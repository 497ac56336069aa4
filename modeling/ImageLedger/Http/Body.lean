import ImageLedger.Http.Request
import ImageLedger.Json.Reader

namespace ImageLedger.Http

inductive BodyError where
  | malformed
  | tooLarge
  | unsupportedCharset (name : String)
deriving DecidableEq

/-- The greatest length of a body, in bytes. -/
def maxBody : Nat := 1048576

structure MediaType where
  name : String
  parameters : List (String × String)

/-- A parameter of a media type: a name and a value, which may stand in quotes. -/
def parameter? (piece : List Char) : Option (String × String) :=
  let trimmed := Text.trimChars piece
  let name := trimmed.takeWhile (· ≠ '=')
  match trimmed.dropWhile (· ≠ '=') with
  | [] => none
  | _ :: value =>
    let value := Text.trimChars value
    let value := match value with
      | '"' :: rest => if rest.getLast? = some '"' then rest.dropLast else '"' :: rest
      | other => other
    if name.isEmpty ∨ value.isEmpty ∨ '"' ∈ value ∨ ' ' ∈ value ∨ ' ' ∈ Text.trimChars name then
      none
    else some (lower (String.ofList (Text.trimChars name)), String.ofList value)

/-- The media type of a header; `none` if it is malformed. -/
def mediaType? (header : String) : Option MediaType :=
  match Text.splitChars ';' header.toList with
  | [] => none
  | name :: pieces =>
    (pieces.mapM parameter?).map fun parameters =>
      ⟨lower (String.ofList (Text.trimChars name)), parameters⟩

/-- The JSON value of a body text, which must be an object or a list. A byte order mark in front is
dropped. -/
def parseBody (s : String) : Except BodyError Json :=
  let cs := match s.toList with
    | '\uFEFF' :: rest => rest
    | cs => cs
  match Json.parseChars cs with
  | some (.object fields) => .ok (.object fields)
  | some (.list items) => .ok (.list items)
  | _ => .error .malformed

def upper (s : String) : String :=
  String.ofList (s.toList.map fun c =>
    if 'a' ≤ c ∧ c ≤ 'z' then Char.ofNat (c.toNat - 32) else c)

/-- The body of a request. One that is missing or of another type counts as an empty object. -/
def readBody (r : Request) : Except BodyError Json :=
  match r.body, (r.header? "content-type").bind mediaType? with
  | some text, some type =>
    if type.name ≠ "application/json" then .ok (.object [])
    else
      let charset := ((type.parameters.lookup "charset").map lower).getD "utf-8"
      if !("utf-".toList.isPrefixOf charset.toList) then
        .error (.unsupportedCharset (upper charset))
      else if maxBody < text.utf8ByteSize then .error .tooLarge
      else if text = "" then .ok (.object [])
      else parseBody text
  | _, _ => .ok (.object [])

end ImageLedger.Http
