import ImageLedger.Text.Base64

namespace ImageLedger.Keys.Pem

/-- A block with its label. A block whose body cannot be read has no bytes. -/
structure PemBlock where
  label : List Char
  bytes : Option (List UInt8)

/-- The lines of a text without blanks and controls at their ends. -/
def lines (s : String) : List (List Char) :=
  let step (c : Char) (acc : List Char × List (List Char)) :=
    if c = '\n' then ([], acc.1 :: acc.2) else (c :: acc.1, acc.2)
  let (first, rest) := s.toList.foldr step ([], [])
  (first :: rest).map fun line => (line.reverse.dropWhile (· ≤ ' ')).reverse

def between (start finish line : List Char) : Option (List Char) :=
  if start.isPrefixOf line ∧ finish.isSuffixOf line ∧
      start.length + finish.length ≤ line.length then
    some ((line.drop start.length).take (line.length - start.length - finish.length))
  else none

def opening? (line : List Char) : Option (List Char) :=
  between "-----BEGIN ".toList "-----".toList line

def closing? (line : List Char) : Option (List Char) :=
  between "-----END ".toList "-----".toList line

/-- The body of a block up to the line that closes it, under the same label. -/
def body (label : List Char) : List (List Char) → List Char → Option (List UInt8)
  | [], _ => none
  | line :: rest, read =>
    match closing? line with
    | some other => if other = label then Base64.decodeStrict? read else none
    | none => body label rest (read ++ line)

/-- The blocks of lines, each from the line that opens it. -/
def blocks : List (List Char) → List PemBlock
  | [] => []
  | line :: rest =>
    match opening? line with
    | some label => ⟨label, body label rest []⟩ :: blocks rest
    | none => blocks rest

/-- The first block with one of the given labels. -/
def find? (labels : List (List Char)) (s : String) : Option PemBlock :=
  (blocks (lines s)).find? fun block => block.label ∈ labels

def wrap : Nat → List Char → List Char
  | 0, _ => []
  | fuel + 1, cs =>
    if cs.isEmpty then [] else cs.take 64 ++ '\n' :: wrap fuel (cs.drop 64)

def write (label : String) (bytes : List UInt8) : String :=
  let digits := Base64.encode bytes
  "-----BEGIN " ++ label ++ "-----\n" ++ String.ofList (wrap digits.length digits) ++
    "-----END " ++ label ++ "-----\n"

end ImageLedger.Keys.Pem
