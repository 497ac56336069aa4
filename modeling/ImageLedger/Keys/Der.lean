namespace ImageLedger.Keys.Der

/-- A value with its tag. -/
structure Element where
  tag : Nat
  content : List UInt8
deriving DecidableEq

def integerTag : Nat := 0x02

def bitStringTag : Nat := 0x03

def octetStringTag : Nat := 0x04

def objectIdTag : Nat := 0x06

def sequenceTag : Nat := 0x30

/-- The number that bytes write, the most significant first. -/
def natOf (bytes : List UInt8) : Nat := bytes.foldl (fun n b => n * 256 + b.toNat) 0

/-- The given number of bytes of a value, the most significant first. -/
def bytesOf (count n : Nat) : List UInt8 :=
  (List.range count).map fun i => UInt8.ofNat (n / Nat.pow 256 (count - 1 - i) % 256)

/-- A length that is written in its shortest form, with what follows it. -/
def readLength : List UInt8 → Option (Nat × List UInt8)
  | [] => none
  | first :: rest =>
    if first < 0x80 then some (first.toNat, rest)
    else
      let count := first.toNat - 0x80
      let digits := rest.take count
      let length := natOf digits
      if count = 0 ∨ 4 < count ∨ digits.length < count ∨ digits.head? = some 0 ∨ length < 0x80 then
        none
      else some (length, rest.drop count)

/-- The first element of a list of bytes, with what follows it. -/
def read : List UInt8 → Option (Element × List UInt8)
  | [] => none
  | tag :: rest =>
    match readLength rest with
    | some (length, rest) =>
      if rest.length < length then none
      else some (⟨tag.toNat, rest.take length⟩, rest.drop length)
    | none => none

/-- The first element, which must have the given tag. -/
def expect (tag : Nat) (bytes : List UInt8) : Option (List UInt8 × List UInt8) :=
  match read bytes with
  | some (e, rest) => if e.tag = tag then some (e.content, rest) else none
  | none => none

/-- The value of an integer that is not negative and written in its shortest form. -/
def natural? (content : List UInt8) : Option Nat :=
  match content with
  | [] => none
  | [b] => if b < 0x80 then some b.toNat else none
  | a :: b :: _ =>
    if 0x80 ≤ a ∨ (a = 0 ∧ b < 0x80) then none else some (natOf content)

def lengthBytes (n : Nat) : List UInt8 :=
  if n < 0x80 then [UInt8.ofNat n]
  else if n < 0x100 then [0x81, UInt8.ofNat n]
  else [0x82, UInt8.ofNat (n / 256), UInt8.ofNat (n % 256)]

def write (tag : Nat) (content : List UInt8) : List UInt8 :=
  UInt8.ofNat tag :: lengthBytes content.length ++ content

/-- The shortest content of an integer of at most thirty-three bytes. -/
def naturalContent (n : Nat) : List UInt8 :=
  let digits := (bytesOf 33 n).dropWhile (· = 0)
  match digits with
  | [] => [0]
  | b :: _ => if 0x80 ≤ b then 0 :: digits else digits

end ImageLedger.Keys.Der
