namespace ImageLedger.Text

/-- The sixteen-bit code units of a character: itself, or a high and a low surrogate. -/
def unitsOf (c : Char) : List Nat :=
  if c.toNat < 0x10000 then [c.toNat]
  else [0xD800 + (c.toNat - 0x10000) / 0x400, 0xDC00 + (c.toNat - 0x10000) % 0x400]

def units (s : String) : List Nat := s.toList.flatMap unitsOf

/-- Whether the first text is not after the second. -/
def le (a b : String) : Bool := !decide (units b < units a)

/-- The texts in order; equal texts keep their places. -/
def sort (texts : List String) : List String := texts.mergeSort le

/-- The texts with the separator between each two. -/
def join (separator : String) (texts : List String) : String := separator.intercalate texts

end ImageLedger.Text
