namespace ImageLedger.Keys

namespace Field

def p : Nat := 0xffffffff00000001000000000000000000000000ffffffffffffffffffffffff

/-- A power modulo `m`, by as many squarings as are given. -/
def powMod (m : Nat) : Nat → Nat → Nat → Nat
  | 0, _, _ => 1 % m
  | squarings + 1, base, exponent =>
    let half := powMod m squarings (base * base % m) (exponent / 2)
    if exponent % 2 = 1 then half * base % m else half

/-- The inverse modulo a prime of at most 256 bits; zero has none and gives zero. -/
def invMod (m a : Nat) : Nat := powMod m 256 (a % m) (m - 2)

def add (a b : Nat) : Nat := (a + b) % p

def sub (a b : Nat) : Nat := (a + p - b % p) % p

def mul (a b : Nat) : Nat := a * b % p

/-- A square root, if there is one; the prime is three modulo four. -/
def sqrt? (a : Nat) : Option Nat :=
  let root := powMod p 256 (a % p) ((p + 1) / 4)
  if mul root root = a % p then some root else none

end Field

/-- A point of the curve `y² = x³ - 3x + b`, other than the one at infinity. -/
structure Affine where
  x : Nat
  y : Nat
deriving DecidableEq

namespace Curve

open ImageLedger.Keys.Field

def b : Nat := 0x5ac635d8aa3a93e7b3ebbd55769886bc651d06b0cc53b0f63bce3c3e27d2604b

def order : Nat := 0xffffffff00000000ffffffffffffffffbce6faada7179e84f3b9cac2fc632551

def generator : Affine where
  x := 0x6b17d1f2e12c4247f8bce6e563a440f277037d812deb33a0f4a13945d898c296
  y := 0x4fe342e2fe1a7f9b8ee7eb4a7c0f9e162bce33576b315ececbb6406837bf51f5

def cubic (x : Nat) : Nat := add (sub (mul (mul x x) x) (mul 3 x)) b

def onCurve (q : Affine) : Bool := q.x < p && q.y < p && mul q.y q.y = cubic q.x

/-- A point as `(x / z², y / z³)`; with `z = 0` it is the one at infinity. -/
structure Jacobian where
  x : Nat
  y : Nat
  z : Nat

def infinity : Jacobian := ⟨1, 1, 0⟩

def ofAffine (q : Affine) : Jacobian := ⟨q.x, q.y, 1⟩

def double (q : Jacobian) : Jacobian :=
  if q.z = 0 ∨ q.y = 0 then infinity
  else
    let delta := mul q.z q.z
    let gamma := mul q.y q.y
    let beta := mul q.x gamma
    let alpha := mul 3 (mul (sub q.x delta) (add q.x delta))
    let x := sub (mul alpha alpha) (mul 8 beta)
    let yz := add q.y q.z
    let z := sub (sub (mul yz yz) gamma) delta
    ⟨x, sub (mul alpha (sub (mul 4 beta) x)) (mul 8 (mul gamma gamma)), z⟩

def sum (q r : Jacobian) : Jacobian :=
  if q.z = 0 then r
  else if r.z = 0 then q
  else
    let zq := mul q.z q.z
    let zr := mul r.z r.z
    let u := mul q.x zr
    let v := mul r.x zq
    let s := mul q.y (mul r.z zr)
    let t := mul r.y (mul q.z zq)
    if u = v then (if s = t then double q else infinity)
    else
      let h := sub v u
      let d := sub t s
      let hh := mul h h
      let hhh := mul h hh
      let w := mul u hh
      let x := sub (sub (mul d d) hhh) (mul 2 w)
      ⟨x, sub (mul d (sub w x)) (mul s hhh), mul h (mul q.z r.z)⟩

/-- A multiple of a point, by as many doublings as are given. -/
def multipleFrom : Nat → Nat → Jacobian → Jacobian → Jacobian
  | 0, _, _, result => result
  | doublings + 1, k, q, result =>
    multipleFrom doublings (k / 2) (double q) (if k % 2 = 1 then sum result q else result)

def multiple (k : Nat) (q : Jacobian) : Jacobian := multipleFrom 256 k q infinity

def toAffine? (q : Jacobian) : Option Affine :=
  if q.z = 0 then none
  else
    let i := invMod p q.z
    let ii := mul i i
    some ⟨mul q.x ii, mul q.y (mul i ii)⟩

end Curve

end ImageLedger.Keys
