namespace ImageLedger.Text

/-- The controls from tab to carriage return, the line and paragraph separators, the byte order mark
and every character of Unicode's space separator class. -/
def isBlank (c : Char) : Bool :=
  let n := c.toNat
  (0x09 ≤ n && n ≤ 0x0D) || n = 0x20 || n = 0xA0 || n = 0x1680 || (0x2000 ≤ n && n ≤ 0x200A) ||
    n = 0x2028 || n = 0x2029 || n = 0x202F || n = 0x205F || n = 0x3000 || n = 0xFEFF

def trimChars (cs : List Char) : List Char :=
  ((cs.dropWhile isBlank).reverse.dropWhile isBlank).reverse

/-- The text without blanks at its ends. -/
def trim (s : String) : String := String.ofList (trimChars s.toList)

/-- Whether nothing but blanks is in the text. -/
def isBlankText (s : String) : Bool := s.toList.all isBlank

/-- The pieces between the separators; always at least one. -/
def splitChars (separator : Char) : List Char → List (List Char)
  | [] => [[]]
  | c :: cs =>
    if c = separator then [] :: splitChars separator cs
    else match splitChars separator cs with
      | [] => [[c]]
      | piece :: pieces => (c :: piece) :: pieces

/-- The trimmed pieces between commas, without the empty ones. -/
def splitList (s : String) : List String :=
  ((splitChars ',' s.toList).map (fun piece => String.ofList (trimChars piece))).filter (· ≠ "")

/-- Each text once, where it stands first. -/
def distinct (texts : List String) : List String :=
  (texts.foldl (fun kept s => if s ∈ kept then kept else s :: kept) []).reverse

/-- The small letter of a capital letter of ASCII, any other character as it is. -/
def lowerChar (c : Char) : Char := if 'A' ≤ c ∧ c ≤ 'Z' then Char.ofNat (c.toNat + 32) else c

end ImageLedger.Text
