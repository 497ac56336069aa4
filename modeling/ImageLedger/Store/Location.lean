import ImageLedger.Text.Blank
import ImageLedger.Text.Order

namespace ImageLedger

inductive Location where
  | file (path : String)
  | server
deriving DecidableEq

namespace Location

def inMemory : String := ":memory:"

def afterStart? (start cs : List Char) : Option (List Char) :=
  if start.isPrefixOf cs then some (cs.drop start.length) else none

/-- The location of a connection text. Two slashes before a path are dropped, and no path means
memory. -/
def ofConnection (s : String) : Location :=
  if s = inMemory then .file inMemory
  else match afterStart? "sqlite:".toList s.toList with
    | none => .server
    | some rest =>
      let path := (afterStart? "//".toList rest).getD rest
      .file (if path.isEmpty then inMemory else String.ofList path)

/-- Follows the segments of a path, noting every directory on the way. -/
def walk : List String → List String → List String
  | _, [] => []
  | here, segment :: rest =>
    if segment = "" ∨ segment = "." then walk here rest
    else if segment = ".." then walk here.dropLast rest
    else Text.join "/" (here ++ [segment]) :: walk (here ++ [segment]) rest

/-- The directories that are made for a database file below the working directory. -/
def directories : Location → List String
  | server => []
  | file path =>
    let cs := path.toList
    if path = inMemory ∨ cs.head? = some '/' then []
    else
      let trimmed := (cs.reverse.dropWhile (· = '/')).reverse
      let segments := (Text.splitChars '/' trimmed).map String.ofList
      Text.sort (Text.distinct (walk [] segments.dropLast))

end Location

end ImageLedger
