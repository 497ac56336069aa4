namespace ImageLedger

/-- A number of the ledger: a rational value, one of the two infinities, or no number. Every
operation rounds its exact result once, to 53 bits. Zero has a single form, since no text written by
the ledger tells its sign. -/
inductive Number where
  | finite (value : Rat)
  | infinite (negative : Bool)
  | nan
deriving DecidableEq

namespace Number

/-- The quotient rounded to the nearest whole number, a half to the even neighbour. -/
def roundDiv (num den : Nat) : Nat :=
  let q := num / den
  let r := num % den
  if 2 * r < den then q
  else if den < 2 * r then q + 1
  else if q % 2 = 0 then q else q + 1

/-- Whether `2 ^ e` is at most `num / den`. -/
def reaches (num den : Nat) (e : Int) : Bool :=
  if 0 ≤ e then den * Nat.pow 2 e.toNat ≤ num else den ≤ num * Nat.pow 2 (-e).toNat

/-- The exponent of the greatest power of two that is at most `num / den`. -/
def floorLog2 (num den : Nat) : Int :=
  let e : Int := (num.log2 : Int) - (den.log2 : Int)
  if reaches num den e then e else e - 1

/-- The exponent of the unit that `num / den` is counted in: 53 bits are kept, and no unit is
smaller than `2 ^ (-1074)`. -/
def unitExponent (num den : Nat) : Int :=
  max (-1074) (floorLog2 num den - 52)

/-- The representable magnitude nearest to `num / den`, before the bound on exponents. -/
def roundMagnitude (num den : Nat) : Rat :=
  let u := unitExponent num den
  if 0 ≤ u then ((roundDiv num (den * Nat.pow 2 u.toNat) * Nat.pow 2 u.toNat : Nat) : Rat)
  else mkRat (roundDiv (num * Nat.pow 2 (-u).toNat) den) (Nat.pow 2 (-u).toNat)

/-- The number nearest to a rational value. Whole values up to `2 ^ 53` are kept as they are. -/
def ofRat (q : Rat) : Number :=
  if q.den = 1 ∧ q.num.natAbs ≤ Nat.pow 2 53 then finite q
  else
    let m := roundMagnitude q.num.natAbs q.den
    if (Nat.pow 2 1024 : Rat) ≤ m then infinite (q.num < 0)
    else finite (if q.num < 0 then -m else m)

/-- The greatest magnitude below which all whole numbers are kept. -/
def wholeLimit : Nat := 9007199254740992

def ofInt (z : Int) : Number := ofRat z

def ofNat (n : Nat) : Number := ofRat n

instance (n : Nat) : OfNat Number n := ⟨ofNat n⟩

instance : Inhabited Number := ⟨0⟩

def neg : Number → Number
  | finite q => finite (-q)
  | infinite s => infinite (!s)
  | nan => nan

def add : Number → Number → Number
  | finite p, finite q => ofRat (p + q)
  | nan, _ => nan
  | _, nan => nan
  | infinite s, infinite t => if s = t then infinite s else nan
  | infinite s, finite _ => infinite s
  | finite _, infinite t => infinite t

def sub (a b : Number) : Number := add a (neg b)

def mul : Number → Number → Number
  | finite p, finite q => ofRat (p * q)
  | nan, _ => nan
  | _, nan => nan
  | infinite s, infinite t => infinite (s != t)
  | infinite s, finite q => if q = 0 then nan else infinite (s != decide (q < 0))
  | finite p, infinite t => if p = 0 then nan else infinite (t != decide (p < 0))

def div : Number → Number → Number
  | finite p, finite q =>
    if q = 0 then (if p = 0 then nan else infinite (p < 0)) else ofRat (p / q)
  | nan, _ => nan
  | _, nan => nan
  | infinite _, infinite _ => nan
  | infinite s, finite q => infinite (s != decide (q < 0))
  | finite _, infinite _ => finite 0

/-- The whole part of a rational value, toward zero. -/
def truncRat (q : Rat) : Int := if q < 0 then -(-q).floor else q.floor

/-- The remainder of the division toward zero; it has the sign of the dividend. -/
def rem : Number → Number → Number
  | finite p, finite q => if q = 0 then nan else finite (p - q * truncRat (p / q))
  | finite p, infinite _ => finite p
  | _, _ => nan

def floor : Number → Number
  | finite q => finite q.floor
  | x => x

def lt : Number → Number → Bool
  | finite p, finite q => p < q
  | finite _, infinite t => !t
  | infinite s, finite _ => s
  | infinite s, infinite t => s && !t
  | _, _ => false

def le : Number → Number → Bool
  | finite p, finite q => p ≤ q
  | finite _, infinite t => !t
  | infinite s, finite _ => s
  | infinite s, infinite t => s || !t
  | _, _ => false

def isFinite : Number → Bool
  | finite _ => true
  | _ => false

/-- The whole number a finite value stands for, if it stands for one. -/
def toInt? : Number → Option Int
  | finite q => if q.den = 1 then some q.num else none
  | _ => none

def isInteger (x : Number) : Bool := x.toInt?.isSome

/-- Whether the value is whole and below the limit, where no other whole number is rounded to it. -/
def isSafe (x : Number) : Bool := x.toInt?.any fun z => z.natAbs < wholeLimit

/-- The value cut to a whole number modulo `2 ^ 32`; what is not finite counts as zero. -/
def low32 : Number → Nat
  | finite q => (truncRat q % 4294967296).toNat
  | _ => 0

/-- Square roots taken one after another from two, as multiples of `2 ^ (-256)`, for the binary
places of `fraction` in turn; the product of those at the places that are set. -/
def fractionPower (fraction : Rat) : Nat → Nat → Nat → Nat
  | 0, _, product => product
  | places + 1, root, product =>
    let root := Nat.sqrt (root * Nat.pow 2 256)
    if 1 ≤ 2 * fraction then
      fractionPower (2 * fraction - 1) places root (product * root / Nat.pow 2 256)
    else fractionPower (2 * fraction) places root product

/-- Two to the given power. -/
def exp2 : Number → Number
  | finite q =>
    let whole := q.floor
    if 1024 ≤ whole then infinite false
    else if whole < -1100 then finite 0
    else
      let power := if 0 ≤ whole then (Nat.pow 2 whole.toNat : Rat)
        else mkRat 1 (Nat.pow 2 (-whole).toNat)
      if q.den = 1 then ofRat power
      else
        let fraction := fractionPower (q - whole) 60 (Nat.pow 2 257) (Nat.pow 2 256)
        ofRat (power * mkRat fraction (Nat.pow 2 256))
  | infinite negative => if negative then finite 0 else infinite false
  | nan => nan

end Number

end ImageLedger
