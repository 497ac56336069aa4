import ImageLedger.Proofs.Number.Rounding
import Mathlib.Data.Nat.Log

namespace ImageLedger.Number

theorem inUnits_eq (value : Rat) (scale : Int) : inUnits value scale = value * 10 ^ (-scale) := by
  unfold inUnits
  by_cases hscale : 0 ≤ scale
  · obtain ⟨k, rfl⟩ := Int.eq_ofNat_of_zero_le hscale
    rw [if_pos hscale, Int.toNat_natCast, Nat.pow_eq, zpow_neg, zpow_natCast, div_eq_mul_inv]
    push_cast
    rfl
  · obtain ⟨k, hk⟩ := Int.eq_ofNat_of_zero_le (show 0 ≤ -scale by omega)
    rw [if_neg hscale, hk, Int.toNat_natCast, Nat.pow_eq, zpow_natCast]
    push_cast
    rfl

/-- Decimals of moderate size are rounded once. -/
theorem ofDecimal_eq {n : Nat} {e : Int} (hn : n ≠ 0) (hhigh : (n.log2 : Int) * 3 / 10 + e ≤ 400)
    (hlow : -400 ≤ (n.log2 : Int) * 3 / 10 + e) : ofDecimal n e = ofRat (n * 10 ^ e) := by
  unfold ofDecimal
  dsimp only
  rw [if_neg hn, if_neg (by omega), if_neg (by omega)]
  by_cases he : 0 ≤ e
  · obtain ⟨k, rfl⟩ := Int.eq_ofNat_of_zero_le he
    rw [if_pos he, Int.toNat_natCast, Nat.pow_eq, zpow_natCast]
    push_cast
    rfl
  · obtain ⟨k, hk⟩ := Int.eq_ofNat_of_zero_le (show 0 ≤ -e by omega)
    obtain rfl : e = -(k : Int) := by omega
    rw [if_neg he, neg_neg, Int.toNat_natCast, Nat.pow_eq, Rat.mkRat_eq_div, zpow_neg,
      zpow_natCast, div_eq_mul_inv]
    push_cast
    rfl

/-- A decimal that reads as a value other than zero is rounded to it. -/
theorem ofRat_of_ofDecimal {n : Nat} {e : Int} {q : Rat} (hq : q ≠ 0)
    (h : ofDecimal n e = finite q) : n ≠ 0 ∧ ofRat (n * 10 ^ e) = finite q := by
  have hn : n ≠ 0 := by
    intro hzero
    rw [ofDecimal, if_pos hzero] at h
    exact hq (finite.inj h).symm
  refine ⟨hn, ?_⟩
  by_cases hhigh : (n.log2 : Int) * 3 / 10 + e ≤ 400
  · by_cases hlow : -400 ≤ (n.log2 : Int) * 3 / 10 + e
    · rw [← ofDecimal_eq hn hhigh hlow, h]
    · unfold ofDecimal at h
      dsimp only at h
      rw [if_neg hn, if_neg (by omega), if_pos (by omega)] at h
      exact absurd (finite.inj h).symm hq
  · unfold ofDecimal at h
    dsimp only at h
    rw [if_neg hn, if_pos (by omega)] at h
    cases h

/-- Powers of ten beside powers of two, as far as numbers go. -/
theorem pow_ten_near : ∀ e < 1024, 10 ^ (e * 30103 / 100000) ≤ 10 * 2 ^ e ∧
    2 ^ (e + 1) ≤ 10 ^ (e * 30103 / 100000 + 2) := by
  decide +kernel

/-- The place of the point is the number of digits. -/
theorem decimalPoint_spec {n : Nat} (hn : 0 < n) (hmax : n < Nat.pow 2 1024) :
    ∃ p : Nat, decimalPoint n = p ∧ 10 ^ p ≤ 10 * n ∧ n < 10 ^ p := by
  have hlow := Nat.log2_self_le (n := n) (by omega)
  have hhigh := Nat.lt_log2_self (n := n)
  have hlog : ∀ k, n < Nat.pow 2 k → n.log2 < k := fun k hk => (Nat.log2_lt (by omega)).mpr hk
  obtain ⟨hten, htwo⟩ := pow_ten_near n.log2 (hlog 1024 hmax)
  have hexponent : floorLog2 (n : Rat).num.natAbs (n : Rat).den = (n.log2 : Int) := by
    rw [Rat.num_natCast, Int.natAbs_natCast, Rat.den_natCast]
    apply floorLog2_eq Nat.one_pos
    · rw [Nat.cast_one, mul_one, zpow_natCast]
      exact_mod_cast hlow
    · rw [Nat.cast_one, mul_one]
      exact_mod_cast hhigh
  have hbelow : ∀ k : Nat, ((n : Rat) < (Nat.pow 10 k : Rat)) = (n < 10 ^ k) := by
    intro k
    exact propext Nat.cast_lt
  unfold decimalPoint
  rw [hexponent]
  generalize he : n.log2 * 30103 / 100000 = e at hten htwo
  have hestimate : (n.log2 : Int) * 30103 / 100000 = (e : Int) := by omega
  rw [hestimate]
  have hnext : (e : Int) + 1 = ((e + 1 : Nat) : Int) := by omega
  simp only [hnext, Int.natCast_nonneg, if_true, Int.toNat_natCast, hbelow]
  by_cases hfirst : n < 10 ^ e
  · refine ⟨e, ?_, ?_, hfirst⟩
    · simp only [hfirst, decide_true, if_true]
    · omega
  · by_cases hsecond : n < 10 ^ (e + 1)
    · refine ⟨e + 1, ?_, ?_, hsecond⟩
      · simp only [hfirst, hsecond, decide_true, decide_false, Bool.false_eq_true, if_false,
          if_true]
      · rw [Nat.pow_succ]
        omega
    · refine ⟨e + 2, ?_, ?_, by omega⟩
      · simp only [hfirst, hsecond, decide_false, Bool.false_eq_true, if_false]
        omega
      · rw [Nat.pow_succ]
        omega

section Grid

variable {value : Rat} {point : Int} {count n : Nat}

/-- The whole number of units in a value. -/
def unitsBelow (value : Rat) (scale : Int) : Nat := (inUnits value scale).floor.toNat

theorem unitsBelow_le (hvalue : 0 ≤ value) (scale : Int) :
    (unitsBelow value scale : Rat) * 10 ^ scale ≤ value ∧
      value < (unitsBelow value scale + 1) * 10 ^ scale := by
  have hten : (0 : Rat) < 10 ^ scale := by positivity
  have hunits : 0 ≤ inUnits value scale := by
    rw [inUnits_eq]
    positivity
  have hfloor : 0 ≤ (inUnits value scale).floor := Rat.le_floor_iff.mpr hunits
  have hcast : (unitsBelow value scale : Rat) = ((inUnits value scale).floor : Rat) := by
    rw [unitsBelow, ← Int.cast_natCast, Int.toNat_of_nonneg hfloor]
  have hback : inUnits value scale * 10 ^ scale = value := by
    rw [inUnits_eq, mul_assoc, ← zpow_add₀ (by norm_num), neg_add_cancel, zpow_zero, mul_one]
  rw [hcast]
  constructor
  · have hle := mul_le_mul_of_nonneg_right (Rat.floor_le (inUnits value scale)) hten.le
    rw [hback] at hle
    exact hle
  · have hlt := mul_lt_mul_of_pos_right (Rat.lt_floor_add_one (inUnits value scale)) hten
    rw [hback] at hlt
    push_cast at hlt
    exact hlt

/-- Whatever a grid gives reads back, and is next to the value. -/
theorem onGrid?_eq_some (hvalue : 0 ≤ value) (h : onGrid? value point count = some n) :
    ofDecimal n (point - count) = finite value ∧
      (n = unitsBelow value (point - count) ∨ n = unitsBelow value (point - count) + 1) := by
  have hunits : 0 ≤ inUnits value (point - count) := by
    rw [inUnits_eq]
    positivity
  have hnearest : roundDiv (inUnits value (point - count)).num.natAbs
      (inUnits value (point - count)).den = unitsBelow value (point - count) ∨
      roundDiv (inUnits value (point - count)).num.natAbs
        (inUnits value (point - count)).den = unitsBelow value (point - count) + 1 := by
    have hnum : 0 ≤ (inUnits value (point - count)).num := Rat.num_nonneg.mpr hunits
    have hfloor : unitsBelow value (point - count) =
        (inUnits value (point - count)).num.natAbs / (inUnits value (point - count)).den := by
      obtain ⟨k, hk⟩ := Int.eq_ofNat_of_zero_le hnum
      rw [unitsBelow, Rat.floor_def, hk, Int.natAbs_natCast, ← Int.natCast_div, Int.toNat_natCast]
    rw [hfloor]
    exact roundDiv_mem _ _
  unfold onGrid? at h
  dsimp only at h
  rw [← unitsBelow] at h
  split at h
  · next hlow hhigh =>
    obtain rfl := Option.some.inj h
    rw [decide_eq_true_eq] at hlow hhigh
    rcases hnearest with hr | hr
    · rw [hr]
      exact ⟨hlow, Or.inl rfl⟩
    · rw [hr]
      exact ⟨hhigh, Or.inr rfl⟩
  · next hlow _ =>
    obtain rfl := Option.some.inj h
    exact ⟨decide_eq_true_eq.mp hlow, Or.inl rfl⟩
  · next _ hhigh =>
    obtain rfl := Option.some.inj h
    exact ⟨decide_eq_true_eq.mp hhigh, Or.inr rfl⟩
  · cases h

theorem isSome_onGrid? (h : ofDecimal (unitsBelow value (point - count)) (point - count) =
      finite value ∨
    ofDecimal (unitsBelow value (point - count) + 1) (point - count) = finite value) :
    (onGrid? value point count).isSome = true := by
  unfold onGrid?
  dsimp only
  rw [← unitsBelow]
  rcases h with h | h
  · rw [h]
    cases decide
      (ofDecimal (unitsBelow value (point - count) + 1) (point - count) = finite value) <;>
      simp
  · rw [h]
    cases decide (ofDecimal (unitsBelow value (point - count)) (point - count) = finite value) <;>
      simp

/-- The search stops at a grid that holds digits which read back. -/
theorem shortestFrom_spec {first fuel : Nat} (hcount : (onGrid? value point count).isSome = true)
    (hfirst : first ≤ count) (hfuel : count < first + fuel) :
    ∃ n k, first ≤ k ∧ k ≤ count ∧ onGrid? value point k = some n ∧
      shortestFrom value point first fuel = ⟨dropTrailingZeros (Nat.toDigits 10 n),
        point + ((Nat.toDigits 10 n).length - k : Int)⟩ := by
  induction fuel generalizing first with
  | zero => omega
  | succ fuel ih =>
    rw [shortestFrom]
    cases hgrid : onGrid? value point first with
    | some n => exact ⟨n, first, Nat.le_refl _, hfirst, hgrid, rfl⟩
    | none =>
      have hne : first ≠ count := by
        intro he
        rw [he] at hgrid
        rw [hgrid] at hcount
        cases hcount
      have hnext : first + 1 ≤ count := by omega
      obtain ⟨n, k, hk, hle, hfound, hresult⟩ := ih hnext (by omega)
      exact ⟨n, k, by omega, hle, hfound, hresult⟩

end Grid

section Whole

variable {n p j : Nat}

/-- On the grid of `j + 1` digits a whole number has that many. -/
theorem unitsBelow_bounds (hlow : 10 ^ p ≤ 10 * n) (hhigh : n < 10 ^ p) :
    10 ^ j ≤ unitsBelow n ((p : Int) - (j + 1 : Nat)) ∧
      unitsBelow n ((p : Int) - (j + 1 : Nat)) < 10 ^ (j + 1) := by
  obtain ⟨hle, hlt⟩ := unitsBelow_le (Nat.cast_nonneg n : (0 : Rat) ≤ n) ((p : Int) - (j + 1 : Nat))
  generalize unitsBelow n ((p : Int) - (j + 1 : Nat)) = units at hle hlt
  have hunit : (0 : Rat) < 10 ^ ((p : Int) - (j + 1 : Nat)) := by positivity
  have hpow : (10 : Rat) ^ p = 10 ^ (j + 1) * 10 ^ ((p : Int) - (j + 1 : Nat)) := by
    rw [← zpow_natCast, ← zpow_natCast, ← zpow_add₀ (by norm_num)]
    congr 1
    omega
  have hlow' : (10 : Rat) ^ p ≤ 10 * n := by exact_mod_cast hlow
  have hhigh' : (n : Rat) < 10 ^ p := by exact_mod_cast hhigh
  rw [hpow] at hlow' hhigh'
  constructor
  · have hmul : (10 : Rat) ^ (j + 1) * 10 ^ ((p : Int) - (j + 1 : Nat)) <
        10 * (units + 1) * 10 ^ ((p : Int) - (j + 1 : Nat)) := by linarith
    have hdigits := lt_of_mul_lt_mul_right hmul hunit.le
    have hdigits' : 10 ^ (j + 1) < 10 * (units + 1) := by exact_mod_cast hdigits
    rw [Nat.pow_succ] at hdigits'
    omega
  · have hmul := lt_of_mul_lt_mul_right (hle.trans_lt hhigh') hunit.le
    exact_mod_cast hmul

theorem log2_le_of_lt {k : Nat} (hn : n < 10 ^ k) : n.log2 ≤ 4 * k := by
  rcases Nat.eq_zero_or_pos n with rfl | hpos
  · simp
  · have hpow : 10 ^ k ≤ 2 ^ (4 * k) := by
      rw [Nat.pow_mul]
      exact Nat.pow_le_pow_left (by decide) k
    have hlt := (Nat.log2_lt (by omega)).mpr (hn.trans_le hpow)
    omega

/-- A kept whole number reads back from one of its two neighbours among seventeen digits. -/
theorem Kept.onGrid?_seventeen (h : Kept n) (hn : wholeLimit < n) (hlow : 10 ^ p ≤ 10 * n)
    (hhigh : n < 10 ^ p) (hp : p ≤ 309) : (onGrid? n p 17).isSome = true := by
  have hscale : (10 : Rat) ^ p = 10 ^ 17 * 10 ^ ((p : Int) - (17 : Nat)) := by
    rw [← zpow_natCast, ← zpow_natCast, ← zpow_add₀ (by norm_num)]
    congr 1
    omega
  have hlow' : (10 : Rat) ^ p ≤ 10 * n := by exact_mod_cast hlow
  rw [hscale] at hlow'
  obtain ⟨hle, hlt⟩ := unitsBelow_le (Nat.cast_nonneg n : (0 : Rat) ≤ n) ((p : Int) - (17 : Nat))
  obtain ⟨hbig, hsmall⟩ : 10 ^ 16 ≤ unitsBelow n ((p : Int) - (17 : Nat)) ∧
      unitsBelow n ((p : Int) - (17 : Nat)) < 10 ^ 17 := unitsBelow_bounds hlow hhigh
  have hround : ∀ d : Nat, 10 ^ 16 ≤ d → d < 10 ^ 18 →
      2 * ((n : Rat) - d * 10 ^ ((p : Int) - (17 : Nat))) * 10 ^ 16 ≤ n →
      2 * (d * 10 ^ ((p : Int) - (17 : Nat)) - (n : Rat)) * 10 ^ 16 ≤ n →
      ofDecimal d ((p : Int) - (17 : Nat)) = finite n := by
    intro d hdlow hdhigh hbelow habove
    have hlog := log2_le_of_lt hdhigh
    rw [ofDecimal_eq (by omega) (by omega) (by omega)]
    exact h.ofRat_eq_of_close hn hbelow habove
  apply isSome_onGrid?
  generalize unitsBelow n ((p : Int) - (17 : Nat)) = units at hle hlt hbig hsmall
  generalize (10 : Rat) ^ ((p : Int) - (17 : Nat)) = unit at hle hlt hlow' hround
  -- the nearer neighbour is at most half a unit away
  rcases le_total (2 * ((n : Rat) - units * unit)) unit with hnear | hfar
  · refine Or.inl (hround units hbig (by omega) ?_ ?_)
    · linarith
    · linarith
  · refine Or.inr (hround (units + 1) (by omega) (by omega) ?_ ?_)
    · push_cast
      linarith
    · push_cast
      linarith

end Whole

theorem pow_two_lt_pow_ten : 10 * Nat.pow 2 1024 < Nat.pow 10 310 := by
  decide +kernel

/-- What the digits of a kept whole number are: those of a decimal that is rounded to the number. -/
theorem Kept.shortest_spec {n : Nat} (h : Kept n) (hn : wholeLimit < n) :
    ∃ (d : Nat) (e : Int), 0 < d ∧ ofRat (d * 10 ^ e) = finite n ∧
      (Nat.toDigits 10 d).length ≤ 18 ∧ 16 ≤ e + (Nat.toDigits 10 d).length ∧
      e + (Nat.toDigits 10 d).length ≤ 310 ∧
      shortest n = ⟨dropTrailingZeros (Nat.toDigits 10 d), e + (Nat.toDigits 10 d).length⟩ := by
  obtain ⟨-, -, -, -, -, -, hmax⟩ := h.exists_unit hn
  have hpos : 0 < n := Nat.zero_lt_of_lt hn
  obtain ⟨p, hpoint, hlow, hhigh⟩ := decimalPoint_spec hpos hmax
  have hp16 : 16 ≤ p := by
    by_contra hlt
    have hpow : 10 ^ p ≤ 10 ^ 15 := Nat.pow_le_pow_right (by decide) (by omega)
    have hbig : 10 ^ 15 < wholeLimit := by decide
    omega
  have hp309 : p ≤ 309 := by
    have hpow : ∀ k, 10 ^ p < Nat.pow 10 k → p < k :=
      fun k hk => (Nat.pow_lt_pow_iff_right (by decide)).mp hk
    have hlt := hpow 310 (hlow.trans_lt ((Nat.mul_lt_mul_of_pos_left hmax (by decide)).trans
      pow_two_lt_pow_ten))
    omega
  obtain ⟨d, k, hk, hk17, hgrid, hresult⟩ : ∃ d k, 1 ≤ k ∧ k ≤ 17 ∧ onGrid? n p k = some d ∧
      shortest n = ⟨dropTrailingZeros (Nat.toDigits 10 d),
        p + ((Nat.toDigits 10 d).length - k : Int)⟩ := by
    rw [shortest, hpoint]
    exact shortestFrom_spec (h.onGrid?_seventeen hn hlow hhigh hp309) (by omega) (by omega)
  obtain ⟨hread, hnext⟩ := onGrid?_eq_some (Nat.cast_nonneg n) hgrid
  have hvalue : (n : Rat) ≠ 0 := by exact_mod_cast hpos.ne'
  obtain ⟨hd, hround⟩ := ofRat_of_ofDecimal hvalue hread
  obtain ⟨j, rfl⟩ : ∃ j, k = j + 1 := ⟨k - 1, by omega⟩
  obtain ⟨hbig, hsmall⟩ := unitsBelow_bounds (j := j) hlow hhigh
  have hmost : (Nat.toDigits 10 d).length ≤ j + 2 := by
    rw [Nat.length_toDigits_le_iff (by decide) (by omega)]
    have hpow : 10 ^ (j + 2) = 10 * 10 ^ (j + 1) := by ring
    omega
  have hleast : j + 1 ≤ (Nat.toDigits 10 d).length := by
    by_contra hlt
    have hpositive : 0 < (Nat.toDigits 10 d).length := Nat.length_toDigits_pos
    have hle := (Nat.length_toDigits_le_iff (by decide : 1 < 10) (by omega : 0 < j)).mp
      (by omega : (Nat.toDigits 10 d).length ≤ j)
    omega
  refine ⟨d, (p : Int) - (j + 1 : Nat), by omega, hround, by omega, by omega, by omega, ?_⟩
  rw [hresult]
  congr 1
  omega

end ImageLedger.Number
