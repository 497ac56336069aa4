import ImageLedger.Number.Basic

namespace ImageLedger.Number

/-- The number nearest to `digits * 10 ^ exponent`. Exponents that must overflow or vanish are
decided before the power is taken. -/
def ofDecimal (digits : Nat) (exponent : Int) : Number :=
  if digits = 0 then finite 0
  else
    let size : Int := (digits.log2 : Int) * 3 / 10 + exponent
    if 400 < size then infinite false
    else if size < -400 then finite 0
    else if 0 ≤ exponent then ofRat ((digits * Nat.pow 10 exponent.toNat : Nat) : Rat)
    else ofRat (mkRat digits (Nat.pow 10 (-exponent).toNat))

/-- Positive decimal digits with the place of the point: `0.d₁d₂… * 10 ^ point`. -/
structure Digits where
  digits : List Char
  point : Int
deriving DecidableEq

/-- The least `point` with `value < 10 ^ point`, for a positive value. -/
def decimalPoint (value : Rat) : Int :=
  let estimate := floorLog2 value.num.natAbs value.den * 30103 / 100000
  let below (e : Int) : Bool :=
    if 0 ≤ e then value < (Nat.pow 10 e.toNat : Rat)
    else value < mkRat 1 (Nat.pow 10 (-e).toNat)
  if below estimate then estimate
  else if below (estimate + 1) then estimate + 1
  else estimate + 2

/-- The value in units of `10 ^ scale`. -/
def inUnits (value : Rat) (scale : Int) : Rat :=
  if 0 ≤ scale then value / (Nat.pow 10 scale.toNat : Rat)
  else value * (Nat.pow 10 (-scale).toNat : Rat)

/-- The neighbour of the value on the grid of `count` digits that reads back, if one does. When
both do the nearer one is taken, and the even one of two that are equally near. -/
def onGrid? (value : Rat) (point : Int) (count : Nat) : Option Nat :=
  let scale := point - count
  let units := inUnits value scale
  let low := units.floor.toNat
  let readsBack (n : Nat) : Bool := ofDecimal n scale = finite value
  match readsBack low, readsBack (low + 1) with
  | true, true => some (roundDiv units.num.natAbs units.den)
  | true, false => some low
  | false, true => some (low + 1)
  | false, false => none

/-- Drops the zeros at the end of a digit list. -/
def dropTrailingZeros (digits : List Char) : List Char :=
  (digits.reverse.dropWhile (· == '0')).reverse

/-- The first grid, of `count` digits or more, that holds a decimal reading back. -/
def shortestFrom (value : Rat) (point : Int) (count : Nat) : Nat → Digits
  | 0 => ⟨['0'], 1⟩
  | fuel + 1 =>
    match onGrid? value point count with
    | some n =>
      let digits := Nat.toDigits 10 n
      ⟨dropTrailingZeros digits, point + (digits.length - count : Int)⟩
    | none => shortestFrom value point (count + 1) fuel

/-- The shortest digits of a positive value; seventeen always suffice. -/
def shortest (value : Rat) : Digits :=
  shortestFrom value (decimalPoint value) 1 17

/-- Positional below `10 ^ 21` and from `10 ^ (-6)` up, with an exponent outside. -/
def Digits.layout (d : Digits) : List Char :=
  let count : Int := d.digits.length
  if count ≤ d.point ∧ d.point ≤ 21 then
    d.digits ++ List.replicate (d.point - count).toNat '0'
  else if 0 < d.point ∧ d.point ≤ 21 then
    d.digits.take d.point.toNat ++ '.' :: d.digits.drop d.point.toNat
  else if -6 < d.point ∧ d.point ≤ 0 then
    '0' :: '.' :: List.replicate (-d.point).toNat '0' ++ d.digits
  else
    let exponent := d.point - 1
    let tail := 'e' :: (if exponent < 0 then '-' else '+') :: Nat.toDigits 10 exponent.natAbs
    match d.digits with
    | [] => tail
    | [c] => c :: tail
    | c :: rest => c :: '.' :: rest ++ tail

def wholeText (z : Int) : List Char :=
  if z < 0 then '-' :: Nat.toDigits 10 z.natAbs else Nat.toDigits 10 z.natAbs

/-- The characters of a number's text. Whole numbers up to `2 ^ 53` have all their digits. -/
def chars : Number → List Char
  | finite q =>
    if q.den = 1 ∧ q.num.natAbs ≤ Nat.pow 2 53 then wholeText q.num
    else if q < 0 then '-' :: (shortest (-q)).layout
    else (shortest q).layout
  | infinite negative => if negative then "-Infinity".toList else "Infinity".toList
  | nan => "NaN".toList

def toText (x : Number) : String := String.ofList x.chars

/-- The text with one decimal place; a half goes up. -/
def oneDecimal : Number → String
  | finite q =>
    let tenths := (q * 10 + 1 / 2).floor
    let magnitude := tenths.natAbs
    let sign := if tenths < 0 then "-" else ""
    sign ++ String.ofList (Nat.toDigits 10 (magnitude / 10)) ++ "." ++
      String.ofList (Nat.toDigits 10 (magnitude % 10))
  | x => x.toText

end ImageLedger.Number
