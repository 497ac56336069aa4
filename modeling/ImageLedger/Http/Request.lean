import ImageLedger.Digest.Sha256
import ImageLedger.Text.Base64
import ImageLedger.Text.Blank

namespace ImageLedger.Http

structure Request where
  method : String
  target : String
  headers : List (String × String)
  body : Option String

/-- The text with its capital letters made small, as names of the protocol are compared. -/
def lower (s : String) : String := String.ofList (s.toList.map Text.lowerChar)

namespace Request

/-- The value of a header, whose name may be in any case, without the blanks around it. -/
def header? (r : Request) (name : String) : Option String :=
  (r.headers.find? fun h => lower h.1 = name).map fun h => Text.trim h.2

/-- The path as it was sent, without query and fragment. -/
def path (r : Request) : String :=
  String.ofList (r.target.toList.takeWhile fun c => c ≠ '?' && c ≠ '#')

/-- The pieces of the path between slashes. A slash at the end does not count. -/
def segments (r : Request) : List String :=
  match (Text.splitChars '/' r.path.toList).map String.ofList with
  | [] => []
  | [_] => []
  | _ :: rest => if 1 < rest.length ∧ rest.getLast? = some "" then rest.dropLast else rest

end Request

/-- The bytes of a text with every escape replaced; an escape needs two digits. -/
def percentBytes : List Char → Option (List UInt8)
  | [] => some []
  | '%' :: a :: b :: rest =>
    match Hex.value? a, Hex.value? b, percentBytes rest with
    | some x, some y, some bytes => some (UInt8.ofNat (x * 16 + y) :: bytes)
    | _, _, _ => none
  | c :: rest =>
    if c = '%' then none else (percentBytes rest).map (utf8 (String.singleton c) ++ ·)

def ofUtf8? (bytes : List UInt8) : Option String := String.fromUTF8? ⟨bytes.toArray⟩

def percentDecode? (s : String) : Option String := (percentBytes s.toList).bind ofUtf8?

/-- The characters that encoded credentials are written with, before their padding. -/
def isTokenChar (c : Char) : Bool := c.isAlphanum || c ∈ ['-', '.', '_', '~', '+', '/']

/-- The encoded credentials of a header: a scheme, blanks, and one token with its padding. -/
def basicToken? (header : String) : Option (List Char) :=
  let cs := header.toList.dropWhile (· = ' ')
  let scheme := cs.takeWhile (· ≠ ' ')
  let rest := (cs.dropWhile (· ≠ ' ')).dropWhile (· = ' ')
  let token := rest.takeWhile isTokenChar
  let after := ((rest.dropWhile isTokenChar).dropWhile (· = '=')).dropWhile (· = ' ')
  if lower (String.ofList scheme) = "basic" ∧ !token.isEmpty ∧ after.isEmpty then some token
  else none

/-- User and password of basic authentication, split at the first colon. -/
def credentials? (header : String) : Option (String × String) := do
  let pair ← ofUtf8? (Base64.decodeLenient (← basicToken? header))
  match pair.toList.dropWhile (· ≠ ':') with
  | _ :: password =>
    return (String.ofList (pair.toList.takeWhile (· ≠ ':')), String.ofList password)
  | [] => none

def credentialsHeader (user password : String) : String :=
  "Basic " ++ String.ofList (Base64.encode (utf8 (user ++ ":" ++ password)))

end ImageLedger.Http
