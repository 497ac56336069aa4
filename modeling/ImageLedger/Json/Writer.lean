import ImageLedger.Json.Basic

namespace ImageLedger.Json

def hexDigit (n : Nat) : Char := Nat.digitChar n

/-- The escape of a code unit: four hexadecimal digits after a backslash and a `u`. -/
def escapeUnit (unit : Nat) : List Char :=
  ['\\', 'u', hexDigit (unit / 4096 % 16), hexDigit (unit / 256 % 16), hexDigit (unit / 16 % 16),
    hexDigit (unit % 16)]

/-- A character inside quotes; with `ascii` also those from U+0080 up are escaped. -/
def quoteChar (ascii : Bool) (c : Char) : List Char :=
  if c = '"' then ['\\', '"']
  else if c = '\\' then ['\\', '\\']
  else if c = '\n' then ['\\', 'n']
  else if c = '\r' then ['\\', 'r']
  else if c = '\t' then ['\\', 't']
  else if c.toNat = 8 then ['\\', 'b']
  else if c.toNat = 12 then ['\\', 'f']
  else if c.toNat < 32 then escapeUnit c.toNat
  else if ascii && 0x80 ≤ c.toNat then (Text.unitsOf c).flatMap escapeUnit
  else [c]

def quote (ascii : Bool) (s : String) : List Char :=
  '"' :: s.toList.flatMap (quoteChar ascii) ++ ['"']

/-- A number that is not finite has no JSON text and is written `null`. -/
def numberChars (x : Number) : List Char :=
  if x.isFinite then x.chars else "null".toList

mutual

def chars (ascii : Bool) : Json → List Char
  | null => "null".toList
  | bool true => "true".toList
  | bool false => "false".toList
  | number x => numberChars x
  | text s => quote ascii s
  | list items => '[' :: itemChars ascii items ++ [']']
  | object fields => '\x7b' :: fieldChars ascii fields ++ ['\x7d']

def itemChars (ascii : Bool) : List Json → List Char
  | [] => []
  | [v] => chars ascii v
  | v :: rest => chars ascii v ++ ',' :: itemChars ascii rest

def fieldChars (ascii : Bool) : List (String × Json) → List Char
  | [] => []
  | [(k, v)] => quote ascii k ++ ':' :: chars ascii v
  | (k, v) :: rest => quote ascii k ++ ':' :: chars ascii v ++ ',' :: fieldChars ascii rest

end

def fieldLe (a b : String × Json) : Bool := Text.le a.1 b.1

mutual

/-- The value with the fields of every object in the order of their keys. -/
def sorted : Json → Json
  | list items => list (sortedItems items)
  | object fields => object ((sortedFields fields).mergeSort fieldLe)
  | v => v

def sortedItems : List Json → List Json
  | [] => []
  | v :: rest => sorted v :: sortedItems rest

def sortedFields : List (String × Json) → List (String × Json)
  | [] => []
  | (k, v) :: rest => (k, sorted v) :: sortedFields rest

end

/-- The text of a value, fields in their order and characters as they are. -/
def toText (v : Json) : String := String.ofList (v.chars false)

/-- The text in which keys are in order and every code unit beyond ASCII is escaped, so that equal
values have one text. -/
def canonical (v : Json) : String := String.ofList (v.sorted.chars true)

end ImageLedger.Json
