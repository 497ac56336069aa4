import ImageLedger.Digest.Sha256
import ImageLedger.Json.Basic
import ImageLedger.Text.Blank

namespace ImageLedger.HashText

/-- Sixty-four hexadecimal digits of either case. -/
def wellFormed (s : String) : Bool := s.toList.length = 64 && s.toList.all Hex.isDigit

/-- The text with its capital letters made small. Well-formed texts have letters of ASCII alone. -/
def lower (s : String) : String := String.ofList (s.toList.map Text.lowerChar)

def normalize? (s : String) : Option String := if wellFormed s then some (lower s) else none

/-- The text of a value, if it is a well-formed one. -/
def ofJson? : Option Json → Option String
  | some (.text s) => if wellFormed s then some s else none
  | _ => none

/-- The hash before the first block. -/
def zero : String := String.ofList (List.replicate 64 '0')

end ImageLedger.HashText
