import ImageLedger.Number.Decimal
import Mathlib.Data.Rat.Floor

namespace ImageLedger.Number

theorem ofRat_ne_nan (q : Rat) : ofRat q ≠ nan := by
  unfold ofRat
  split
  · exact nofun
  · dsimp only
    split <;> exact nofun

theorem ofRat_intCast {z : Int} (h : z.natAbs ≤ wholeLimit) : ofRat (z : Rat) = finite z := by
  have hpow : Nat.pow 2 53 = wholeLimit := by decide
  rw [ofRat, if_pos]
  rw [Rat.den_intCast, Rat.num_intCast, hpow]
  exact ⟨rfl, h⟩

theorem ofInt_eq {z : Int} (h : z.natAbs ≤ wholeLimit) : ofInt z = finite z := ofRat_intCast h

theorem ofNat_eq {n : Nat} (h : n ≤ wholeLimit) : ofNat n = finite n := by
  have hz : ((n : Int)).natAbs ≤ wholeLimit := by
    rw [Int.natAbs_natCast]
    exact h
  have hofInt := ofInt_eq hz
  rw [ofInt, Int.cast_natCast] at hofInt
  exact hofInt

theorem ofNat_inj {m n : Nat} (hm : m ≤ wholeLimit) (hn : n ≤ wholeLimit) :
    ofNat m = ofNat n ↔ m = n := by
  rw [ofNat_eq hm, ofNat_eq hn, finite.injEq]
  exact Nat.cast_inj

theorem isInteger_ofNat {n : Nat} (h : n ≤ wholeLimit) : (ofNat n).isInteger = true := by
  rw [ofNat_eq h, isInteger, toInt?, if_pos (Rat.den_natCast n)]
  rfl

theorem isSafe_ofNat {n : Nat} (h : n < wholeLimit) : (ofNat n).isSafe = true := by
  rw [ofNat_eq h.le, isSafe, toInt?, if_pos (Rat.den_natCast n), Option.any_some, Rat.num_natCast,
    Int.natAbs_natCast]
  exact decide_eq_true h

theorem le_ofNat {m n : Nat} (hm : m ≤ wholeLimit) (hn : n ≤ wholeLimit) :
    Number.le (ofNat m) (ofNat n) = decide (m ≤ n) := by
  rw [ofNat_eq hm, ofNat_eq hn, Number.le]
  exact decide_eq_decide.mpr Nat.cast_le

theorem sub_ofNat {m n : Nat} (hm : m ≤ wholeLimit) (h : n ≤ m) :
    sub (ofNat m) (ofNat n) = ofNat (m - n) := by
  have hdiff : ((m : Rat) + -(n : Rat)) = ((m - n : Nat) : Rat) := by
    rw [Nat.cast_sub h]
    exact (sub_eq_add_neg _ _).symm
  rw [ofNat_eq hm, ofNat_eq (h.trans hm), sub, neg, add, hdiff]
  rfl

theorem add_ofNat_one {n : Nat} (h : n + 1 ≤ wholeLimit) : add (ofNat n) 1 = ofNat (n + 1) := by
  have hone : (1 : Number) = finite 1 := by decide
  rw [ofNat_eq (Nat.le_of_succ_le h), hone, add, ofNat, Nat.cast_add_one]

@[simp] theorem truncRat_natCast (n : Nat) : truncRat (n : Rat) = n := by
  have hn : ¬ ((n : Rat) < 0) := not_lt.mpr (Nat.cast_nonneg n)
  have hfloor := Rat.floor_intCast (n : Int)
  rw [Int.cast_natCast] at hfloor
  rw [truncRat, if_neg hn, hfloor]

theorem low32_ofNat {n : Nat} (h : n ≤ wholeLimit) : (ofNat n).low32 = n % 4294967296 := by
  rw [ofNat_eq h, low32, truncRat_natCast]
  omega

section Order

variable {x y z : Number}

theorem lt_of_lt_of_le (h : lt x y = true) (h' : le y z = true) : lt x z = true := by
  cases x <;> cases y <;> cases z <;> simp_all [lt, le]
  exact h.trans_le h'

theorem lt_of_le_of_lt (h : le x y = true) (h' : lt y z = true) : lt x z = true := by
  cases x <;> cases y <;> cases z <;> simp_all [lt, le]
  exact h.trans_lt h'

theorem le_trans (h : le x y = true) (h' : le y z = true) : le x z = true := by
  cases x <;> cases y <;> cases z <;> simp_all [le]
  · exact h.trans h'
  · rcases h with h | h <;> simp_all

theorem le_self (hx : x ≠ nan) : le x x = true := by
  cases x with
  | nan => exact absurd rfl hx
  | finite q => exact decide_eq_true (le_refl q)
  | infinite negative => cases negative <;> rfl

theorem not_lt_of_le (h : le y x = true) : ¬ lt x y = true := by
  intro hlt
  have hself := lt_of_lt_of_le hlt h
  cases x <;> simp [lt] at hself

theorem ne_nan_of_le (h : le x y = true) : y ≠ nan := by
  rintro rfl
  cases x <;> cases h

theorem le_or_lt (hx : x ≠ nan) (hy : y ≠ nan) : le x y = true ∨ lt y x = true := by
  cases x with
  | nan => exact absurd rfl hx
  | finite p =>
    cases y with
    | nan => exact absurd rfl hy
    | finite q => simpa [le, lt] using le_or_gt p q
    | infinite negative => cases negative <;> simp [le, lt]
  | infinite sign =>
    cases y with
    | nan => exact absurd rfl hy
    | finite q => cases sign <;> simp [le, lt]
    | infinite negative => cases sign <;> cases negative <;> simp [le, lt]

theorem lt_of_le_of_ne (h : le x y = true) (hne : y ≠ x) : lt x y = true := by
  cases x with
  | nan => cases y <;> cases h
  | finite p =>
    cases y with
    | finite q =>
      have hpq : p ≤ q := of_decide_eq_true h
      exact decide_eq_true (hpq.lt_of_ne fun heq => hne (congrArg finite heq.symm))
    | infinite negative => exact h
    | nan => exact h
  | infinite sign =>
    cases y with
    | infinite negative => cases sign <;> cases negative <;> simp_all [le, lt]
    | finite q => exact h
    | nan => exact h

/-- What is not less is no number, is not compared with one, or is at least as great. -/
theorem lt_eq_false_iff : lt x y = false ↔ x = nan ∨ y = nan ∨ le y x = true := by
  constructor
  · intro h
    by_cases hx : x = nan
    · exact Or.inl hx
    · by_cases hy : y = nan
      · exact Or.inr (Or.inl hy)
      · rcases le_or_lt hy hx with hle | hlt
        · exact Or.inr (Or.inr hle)
        · rw [h] at hlt
          cases hlt
  · rintro (rfl | rfl | hle)
    · rfl
    · cases x <;> rfl
    · exact Bool.eq_false_iff.mpr (not_lt_of_le hle)

end Order

end ImageLedger.Number
