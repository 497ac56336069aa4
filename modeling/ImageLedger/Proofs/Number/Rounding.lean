import ImageLedger.Proofs.Number.Whole
import Mathlib.Algebra.Order.Field.Power
import Mathlib.Tactic.Linarith
import Mathlib.Tactic.Positivity
import Mathlib.Tactic.Ring

namespace ImageLedger.Number

theorem roundDiv_eq {num den m : Nat} (hlow : 2 * (m * den) < 2 * num + den)
    (hhigh : 2 * num < 2 * (m * den) + den) : roundDiv num den = m := by
  have hden : 0 < den := by omega
  have hsplit := Nat.div_add_mod num den
  have hrem := Nat.mod_lt num hden
  rw [Nat.mul_comm] at hsplit
  have hle : num / den ≤ m := by
    by_contra h
    have hmul := Nat.mul_le_mul_right den (Nat.lt_of_not_le h)
    rw [Nat.succ_mul] at hmul
    omega
  have hge : m ≤ num / den + 1 := by
    by_contra h
    have hmul := Nat.mul_le_mul_right den (Nat.lt_of_not_le h)
    rw [Nat.succ_mul, Nat.succ_mul] at hmul
    omega
  unfold roundDiv
  rcases Nat.le_iff_lt_or_eq.mp hge with hlt | heq
  · have hm : num / den = m := by omega
    rw [hm] at hsplit
    rw [if_pos (by omega), hm]
  · have hmul : m * den = num / den * den + den := by rw [heq, Nat.succ_mul]
    rw [if_neg (by omega), if_pos (by omega), heq]

theorem roundDiv_mem (num den : Nat) :
    roundDiv num den = num / den ∨ roundDiv num den = num / den + 1 := by
  unfold roundDiv
  dsimp only
  split
  · exact Or.inl rfl
  · split
    · exact Or.inr rfl
    · split
      · exact Or.inl rfl
      · exact Or.inr rfl

theorem roundDiv_mono {num num' den : Nat} (hden : 0 < den) (h : num ≤ num') :
    roundDiv num den ≤ roundDiv num' den := by
  have hquot : num / den ≤ num' / den := Nat.div_le_div_right h
  rcases Nat.lt_or_eq_of_le hquot with hlt | heq
  · rcases roundDiv_mem num den with hr | hr <;> rcases roundDiv_mem num' den with hr' | hr' <;>
      omega
  · have hrem : num % den ≤ num' % den := by
      have hsplit := Nat.div_add_mod num den
      have hsplit' := Nat.div_add_mod num' den
      rw [heq] at hsplit
      omega
    have := Nat.mod_lt num hden
    have := Nat.mod_lt num' hden
    unfold roundDiv
    rw [heq]
    dsimp only
    split_ifs <;> omega

theorem reaches_iff {num den : Nat} {e : Int} :
    reaches num den e = true ↔ (2 : Rat) ^ e * den ≤ num := by
  unfold reaches
  by_cases he : 0 ≤ e
  · obtain ⟨k, rfl⟩ := Int.eq_ofNat_of_zero_le he
    have hpow : ((Nat.pow 2 k : Nat) : Rat) = 2 ^ k := by
      rw [Nat.pow_eq]
      push_cast
      rfl
    rw [if_pos he, decide_eq_true_eq, Int.toNat_natCast, zpow_natCast, ← hpow, mul_comm]
    exact_mod_cast Iff.rfl
  · obtain ⟨k, hk⟩ := Int.eq_ofNat_of_zero_le (show 0 ≤ -e by omega)
    obtain rfl : e = -(k : Int) := by omega
    have hpos : (0 : Rat) < 2 ^ k := by positivity
    rw [if_neg he, decide_eq_true_eq, neg_neg, Int.toNat_natCast, zpow_neg, zpow_natCast,
      inv_mul_le_iff₀ hpos, mul_comm, Nat.pow_eq]
    exact_mod_cast Iff.rfl

/-- The exponent is that of the greatest power of two below the quotient. -/
theorem floorLog2_spec {num den : Nat} (hnum : 0 < num) (hden : 0 < den) :
    (2 : Rat) ^ floorLog2 num den * den ≤ num ∧
      (num : Rat) < 2 ^ (floorLog2 num den + 1) * den := by
  have hnlow : (2 : Rat) ^ (num.log2 : Int) ≤ num := by
    rw [zpow_natCast]
    exact_mod_cast Nat.log2_self_le hnum.ne'
  have hnhigh : (num : Rat) < 2 ^ ((num.log2 : Int) + 1) := by
    have h := Nat.lt_log2_self (n := num)
    exact_mod_cast h
  have hdlow : (2 : Rat) ^ (den.log2 : Int) ≤ den := by
    rw [zpow_natCast]
    exact_mod_cast Nat.log2_self_le hden.ne'
  have hdhigh : (den : Rat) < 2 ^ ((den.log2 : Int) + 1) := by
    have h := Nat.lt_log2_self (n := den)
    exact_mod_cast h
  have htwo : (2 : Rat) ≠ 0 := by norm_num
  unfold floorLog2
  dsimp only
  generalize hgap : (num.log2 : Int) - (den.log2 : Int) = e
  have hupper : (num : Rat) < 2 ^ (e + 1) * den := by
    have hpow : (2 : Rat) ^ ((num.log2 : Int) + 1) = 2 ^ (e + 1) * 2 ^ (den.log2 : Int) := by
      rw [← zpow_add₀ htwo]
      congr 1
      omega
    have hmul : (2 : Rat) ^ (e + 1) * 2 ^ (den.log2 : Int) ≤ 2 ^ (e + 1) * den :=
      mul_le_mul_of_nonneg_left hdlow (by positivity)
    linarith
  have hlower : (2 : Rat) ^ (e - 1) * den ≤ num := by
    have hpow : (2 : Rat) ^ (num.log2 : Int) = 2 ^ (e - 1) * 2 ^ ((den.log2 : Int) + 1) := by
      rw [← zpow_add₀ htwo]
      congr 1
      omega
    have hmul : (2 : Rat) ^ (e - 1) * den ≤ 2 ^ (e - 1) * 2 ^ ((den.log2 : Int) + 1) :=
      mul_le_mul_of_nonneg_left hdhigh.le (by positivity)
    linarith
  by_cases hreach : reaches num den e = true
  · rw [if_pos hreach]
    exact ⟨reaches_iff.mp hreach, hupper⟩
  · rw [if_neg hreach]
    rw [reaches_iff, not_le] at hreach
    refine ⟨hlower, ?_⟩
    rw [sub_add_cancel]
    exact hreach

theorem floorLog2_eq {num den : Nat} {e : Int} (hden : 0 < den) (hlow : (2 : Rat) ^ e * den ≤ num)
    (hhigh : (num : Rat) < 2 ^ (e + 1) * den) : floorLog2 num den = e := by
  have hd : (0 : Rat) < den := by exact_mod_cast hden
  have hnum : 0 < num := by
    have hpos : (0 : Rat) < 2 ^ e * den := by positivity
    exact_mod_cast hpos.trans_le hlow
  obtain ⟨hslow, hshigh⟩ := floorLog2_spec hnum hden
  have hone : (1 : Rat) < 2 := by norm_num
  have hle : floorLog2 num den < e + 1 := by
    have h := lt_of_mul_lt_mul_right (hslow.trans_lt hhigh) hd.le
    exact (zpow_lt_zpow_iff_right₀ hone).mp h
  have hge : e < floorLog2 num den + 1 := by
    have h := lt_of_mul_lt_mul_right (hlow.trans_lt hshigh) hd.le
    exact (zpow_lt_zpow_iff_right₀ hone).mp h
  omega

/-- A quotient of fifty-three bits and more is rounded to a multiple of its unit. -/
theorem roundMagnitude_eq {num den u : Nat} (hden : 0 < den) (hlow : 2 ^ (u + 52) * den ≤ num)
    (hhigh : num < 2 ^ (u + 53) * den) :
    roundMagnitude num den = ((roundDiv num (den * 2 ^ u) * 2 ^ u : Nat) : Rat) := by
  have hlog : floorLog2 num den = (u : Int) + 52 := by
    apply floorLog2_eq hden
    · exact_mod_cast hlow
    · exact_mod_cast hhigh
  have hunit : unitExponent num den = u := by
    rw [unitExponent, hlog]
    omega
  rw [roundMagnitude, hunit, if_pos (Int.natCast_nonneg u), Int.toNat_natCast, Nat.pow_eq]

section Near

variable {x : Rat} {u m : Nat}

theorem natAbs_num_eq (hx : 0 < x) : (x.num.natAbs : Rat) = x * x.den := by
  have hnum : (x.num.natAbs : Int) = x.num := Int.natAbs_of_nonneg (Rat.num_pos.mpr hx).le
  rw [Rat.mul_den_eq_num, ← Int.cast_natCast, hnum]

/-- A value beyond the whole ones that are kept is rounded to the multiple of its unit that lies
within half a unit. -/
theorem ofRat_eq_of_near (hx : (wholeLimit : Rat) < x) (hlow : (2 : Rat) ^ (u + 52) ≤ x)
    (hhigh : x < 2 ^ (u + 53)) (hbelow : (m : Rat) * 2 ^ u < x + 2 ^ u / 2)
    (habove : x < m * 2 ^ u + 2 ^ u / 2) (hmax : m * 2 ^ u < Nat.pow 2 1024) :
    ofRat x = finite ((m * 2 ^ u : Nat) : Rat) := by
  have hpos : 0 < x := by
    have hlimit : (0 : Rat) ≤ wholeLimit := Nat.cast_nonneg _
    exact hlimit.trans_lt hx
  have hnum := natAbs_num_eq hpos
  have hden : (0 : Rat) < x.den := by exact_mod_cast x.den_pos
  have hround : roundDiv x.num.natAbs (x.den * 2 ^ u) = m := by
    apply roundDiv_eq
    · have h := mul_lt_mul_of_pos_right hbelow hden
      have hcast : (2 : Rat) * (m * (x.den * 2 ^ u)) < 2 * x.num.natAbs + x.den * 2 ^ u := by
        rw [hnum]
        linarith
      exact_mod_cast hcast
    · have h := mul_lt_mul_of_pos_right habove hden
      have hcast : (2 : Rat) * x.num.natAbs < 2 * (m * (x.den * 2 ^ u)) + x.den * 2 ^ u := by
        rw [hnum]
        linarith
      exact_mod_cast hcast
  have hmagnitude : roundMagnitude x.num.natAbs x.den = ((m * 2 ^ u : Nat) : Rat) := by
    rw [roundMagnitude_eq x.den_pos, hround]
    · have h := mul_le_mul_of_nonneg_right hlow hden.le
      rw [← hnum] at h
      exact_mod_cast h
    · have h := mul_lt_mul_of_pos_right hhigh hden
      rw [← hnum] at h
      exact_mod_cast h
  have hbig : ¬ (x.den = 1 ∧ x.num.natAbs ≤ Nat.pow 2 53) := by
    intro h
    rw [h.1, Nat.cast_one, mul_one] at hnum
    rw [← hnum] at hx
    have hlimit : wholeLimit < x.num.natAbs := by exact_mod_cast hx
    have hpow : Nat.pow 2 53 = wholeLimit := by decide
    omega
  have hfit : ¬ ((Nat.pow 2 1024 : Rat) ≤ ((m * 2 ^ u : Nat) : Rat)) :=
    not_le.mpr (Nat.cast_lt.mpr hmax)
  have hsign : ¬ x.num < 0 := not_lt.mpr (Rat.num_pos.mpr hpos).le
  rw [ofRat, if_neg hbig]
  simp only [hmagnitude, if_neg hfit, if_neg hsign]

end Near

/-- A whole number that is its own nearest number. -/
def Kept (n : Nat) : Prop := ofRat (n : Rat) = finite n

theorem kept_of_le {n : Nat} (h : n ≤ wholeLimit) : Kept n := ofNat_eq h

/-- Fifty-three bits before any number of zeros are kept. -/
theorem kept_mul_pow {u m : Nat} (hlow : 2 ^ 52 ≤ m) (hhigh : m ≤ 2 ^ 53)
    (hmax : m * 2 ^ u < Nat.pow 2 1024) : Kept (m * 2 ^ u) := by
  have hnext : ∀ u m : Nat, 2 ^ 52 ≤ m → m < 2 ^ 53 → m * 2 ^ u < Nat.pow 2 1024 →
      Kept (m * 2 ^ u) := by
    intro u m hlow hhigh hmax
    rcases Nat.lt_or_ge wholeLimit (m * 2 ^ u) with hbig | hsmall
    · have hpow : (0 : Rat) < 2 ^ u := by positivity
      apply ofRat_eq_of_near
      · exact_mod_cast hbig
      · rw [pow_add]
        exact_mod_cast Nat.mul_comm m (2 ^ u) ▸ Nat.mul_le_mul_left (2 ^ u) hlow
      · have hlt := Nat.mul_lt_mul_of_pos_right hhigh (Nat.two_pow_pos u)
        rw [← Nat.pow_add, Nat.add_comm] at hlt
        exact_mod_cast hlt
      · push_cast
        linarith
      · push_cast
        linarith
      · exact hmax
    · exact kept_of_le hsmall
  rcases Nat.lt_or_eq_of_le hhigh with hlt | rfl
  · exact hnext u m hlow hlt hmax
  · have hshift : 2 ^ 53 * 2 ^ u = 2 ^ 52 * 2 ^ (u + 1) := by ring
    rw [hshift] at hmax ⊢
    exact hnext (u + 1) (2 ^ 52) (Nat.le_refl _) (by decide) hmax

/-- The outcome of rounding a value that is not among the whole ones below the limit. -/
theorem roundMagnitude_of_ofRat {q r : Rat} (hq : ¬ (q.den = 1 ∧ q.num.natAbs ≤ Nat.pow 2 53))
    (h : ofRat q = finite r) :
    roundMagnitude q.num.natAbs q.den < (Nat.pow 2 1024 : Rat) ∧
      (r = roundMagnitude q.num.natAbs q.den ∨ r = -roundMagnitude q.num.natAbs q.den) := by
  rw [ofRat, if_neg hq] at h
  dsimp only at h
  split at h
  · cases h
  · next hfit =>
    have hr := finite.inj h
    refine ⟨not_le.mp hfit, ?_⟩
    split at hr
    · exact Or.inr hr.symm
    · exact Or.inl hr.symm

/-- Beyond the limit, a whole number is kept if it is a multiple of its unit. -/
theorem Kept.exists_unit {n : Nat} (h : Kept n) (hn : wholeLimit < n) :
    ∃ u m, 1 ≤ u ∧ 2 ^ 52 ≤ m ∧ m < 2 ^ 53 ∧ n = m * 2 ^ u ∧ n < Nat.pow 2 1024 := by
  have hlimit : wholeLimit = 2 ^ 53 := by decide
  have hlow := Nat.log2_self_le (n := n) (by omega)
  have hhigh := Nat.lt_log2_self (n := n)
  have hlog : 53 ≤ n.log2 := by
    have hlt : 2 ^ 53 < 2 ^ (n.log2 + 1) := by omega
    have := (Nat.pow_lt_pow_iff_right (by decide : 1 < 2)).mp hlt
    omega
  obtain ⟨u, hu⟩ : ∃ u, n.log2 = u + 52 := ⟨n.log2 - 52, by omega⟩
  rw [hu] at hlow hhigh
  have hlow' : 2 ^ (u + 52) * 1 ≤ n := (Nat.mul_one _).symm ▸ hlow
  have hhigh' : n < 2 ^ (u + 53) * 1 := (Nat.mul_one _).symm ▸ hhigh
  have hwhole : ¬ ((n : Rat).den = 1 ∧ (n : Rat).num.natAbs ≤ Nat.pow 2 53) := by
    rw [Rat.num_natCast, Int.natAbs_natCast]
    intro hle
    have hpow : Nat.pow 2 53 = wholeLimit := by decide
    omega
  obtain ⟨hmax, hround⟩ := roundMagnitude_of_ofRat hwhole h
  rw [Rat.num_natCast, Int.natAbs_natCast, Rat.den_natCast,
    roundMagnitude_eq Nat.one_pos hlow' hhigh', Nat.one_mul] at hmax hround
  generalize roundDiv n (2 ^ u) = m at hmax hround
  have hm : n = m * 2 ^ u := by
    rcases hround with hr | hr
    · exact_mod_cast hr
    · have hpos : (0 : Rat) < n := by exact_mod_cast (by omega : 0 < n)
      have hneg : (0 : Rat) ≤ ((m * 2 ^ u : Nat) : Rat) := Nat.cast_nonneg _
      linarith
  have hpow : 0 < 2 ^ u := by positivity
  refine ⟨u, m, by omega, ?_, ?_, hm, ?_⟩
  · rw [hm, Nat.add_comm, pow_add] at hlow
    exact Nat.le_of_mul_le_mul_right hlow hpow
  · rw [hm, Nat.add_comm u, Nat.add_right_comm, pow_add] at hhigh
    exact Nat.lt_of_mul_lt_mul_right hhigh
  · rw [hm]
    exact Nat.cast_lt.mp hmax

/-- Below the least number of a unit the next smaller unit counts. -/
theorem ofRat_eq_of_close_least {v : Nat} {x : Rat} (hv : 1 ≤ v)
    (hmax : 2 ^ 52 * 2 ^ (v + 1) < Nat.pow 2 1024)
    (hbelow : 2 * (2 ^ 52 * (2 * 2 ^ v) - x) * 10 ^ 16 ≤ 2 ^ 52 * (2 * 2 ^ v))
    (habove : 2 * (x - 2 ^ 52 * (2 * 2 ^ v)) * 10 ^ 16 ≤ 2 ^ 52 * (2 * 2 ^ v)) :
    ofRat x = finite ((2 ^ 52 * 2 ^ (v + 1) : Nat) : Rat) := by
  have hlimit : (wholeLimit : Rat) = 2 ^ 53 := by
    norm_num [wholeLimit]
  have hunit : (2 : Rat) ≤ 2 ^ v := by
    have hpow := pow_le_pow_right₀ (by norm_num : (1 : Rat) ≤ 2) hv
    linarith
  rcases lt_or_ge x (2 ^ 52 * (2 * 2 ^ v)) with hx | hx
  · have hshift : 2 ^ 52 * 2 ^ (v + 1) = 2 ^ 53 * 2 ^ v := by ring
    rw [hshift] at hmax ⊢
    apply ofRat_eq_of_near _ _ _ _ _ hmax
    · rw [hlimit]
      linarith
    · rw [pow_add]
      linarith
    · rw [pow_add]
      linarith
    · push_cast
      linarith
    · push_cast
      linarith
  · apply ofRat_eq_of_near _ _ _ _ _ hmax
    · rw [hlimit]
      linarith
    · rw [pow_add, pow_succ]
      linarith
    · rw [pow_add, pow_succ]
      linarith
    · push_cast
      rw [pow_succ (2 : Rat) v]
      linarith
    · push_cast
      rw [pow_succ (2 : Rat) v]
      linarith

/-- A value that is off from a kept whole number by half of its sixteenth decimal place at most is
rounded to it. -/
theorem Kept.ofRat_eq_of_close {n : Nat} {x : Rat} (h : Kept n) (hn : wholeLimit < n)
    (hbelow : 2 * (n - x) * 10 ^ 16 ≤ n) (habove : 2 * (x - n) * 10 ^ 16 ≤ n) :
    ofRat x = finite n := by
  obtain ⟨u, m, hu, hlow, hhigh, rfl, hmax⟩ := h.exists_unit hn
  obtain ⟨v, rfl⟩ : ∃ v, u = v + 1 := ⟨u - 1, by omega⟩
  have hcast : ((m * 2 ^ (v + 1) : Nat) : Rat) = m * (2 * 2 ^ v) := by
    push_cast
    ring
  rw [hcast] at hbelow habove
  by_cases hm : m = 2 ^ 52
  · subst hm
    have hv : 1 ≤ v := by
      by_contra hzero
      obtain rfl : v = 0 := by omega
      exact absurd hn (by decide)
    push_cast at hbelow habove
    exact ofRat_eq_of_close_least hv hmax hbelow habove
  · have hlimit : (wholeLimit : Rat) = 2 ^ 53 := by
      norm_num [wholeLimit]
    have hunit : (1 : Rat) ≤ 2 ^ v := one_le_pow₀ (by norm_num)
    have hlow' : (2 : Rat) ^ 52 + 1 ≤ m := by exact_mod_cast (by omega : 2 ^ 52 + 1 ≤ m)
    have hhigh' : (m : Rat) ≤ 2 ^ 53 - 1 := by
      have hle : (m : Rat) + 1 ≤ 2 ^ 53 := by exact_mod_cast hhigh
      linarith
    have hstart : (2 ^ 52 + 1) * (2 * 2 ^ v) ≤ (m : Rat) * (2 * 2 ^ v) :=
      mul_le_mul_of_nonneg_right hlow' (by positivity)
    have hwidth : (m : Rat) * (2 * 2 ^ v) ≤ (2 ^ 53 - 1) * (2 * 2 ^ v) :=
      mul_le_mul_of_nonneg_right hhigh' (by positivity)
    apply ofRat_eq_of_near _ _ _ _ _ hmax
    · rw [hlimit]
      linarith
    · rw [pow_add, pow_succ]
      linarith
    · rw [pow_add, pow_succ]
      linarith
    · rw [pow_succ]
      linarith
    · rw [pow_succ]
      linarith

theorem roundDiv_lt_of_lt {num den k : Nat} (hden : 0 < den) (h : num < k * den) :
    roundDiv num den ≤ k := by
  have hdiv := (Nat.div_lt_iff_lt_mul hden).mpr h
  rcases roundDiv_mem num den with hr | hr
  · omega
  · omega

/-- In units below one a quotient has fifty-three bits at most. -/
theorem scaled_lt {num den k : Nat} {e : Int} (hden : 0 < den)
    (hhigh : (num : Rat) < 2 ^ (e + 1) * den) (he : e + 1 ≤ 53 - (k : Int)) :
    num * 2 ^ k < 2 ^ 53 * den := by
  have htwo : (2 : Rat) ≠ 0 := by norm_num
  have hpow : (2 : Rat) ^ (e + 1) ≤ 2 ^ (53 - (k : Int)) := zpow_le_zpow_right₀ (by norm_num) he
  have hsplit : (2 : Rat) ^ (53 - (k : Int)) * 2 ^ k = 2 ^ 53 := by
    rw [← zpow_natCast (2 : Rat) k, ← zpow_add₀ htwo, sub_add_cancel]
    rfl
  have hk : (0 : Rat) < 2 ^ k := by positivity
  have hd : (0 : Rat) < den := by exact_mod_cast hden
  have hlt : (num : Rat) < 2 ^ (53 - (k : Int)) * den :=
    hhigh.trans_le (mul_le_mul_of_nonneg_right hpow hd.le)
  have hmul := mul_lt_mul_of_pos_right hlt hk
  have hcast : (num : Rat) * 2 ^ k < 2 ^ 53 * den := by
    rw [← hsplit]
    linarith
  exact_mod_cast hcast

/-- A whole number that comes out of rounding is kept when it is rounded again. -/
theorem kept_of_roundMagnitude {num den n : Nat} (hnum : 0 < num) (hden : 0 < den)
    (h : roundMagnitude num den = n) (hmax : n < Nat.pow 2 1024) : Kept n := by
  obtain ⟨hlow, hhigh⟩ := floorLog2_spec hnum hden
  unfold roundMagnitude at h
  generalize hu : unitExponent num den = u at h
  unfold unitExponent at hu
  dsimp only at h
  by_cases hsign : 0 ≤ u
  · obtain ⟨k, rfl⟩ := Int.eq_ofNat_of_zero_le hsign
    have hlog : floorLog2 num den = ((k + 52 : Nat) : Int) := by omega
    rw [hlog] at hlow hhigh
    rw [if_pos hsign, Int.toNat_natCast, Nat.pow_eq] at h
    obtain rfl : roundDiv num (den * 2 ^ k) * 2 ^ k = n := by exact_mod_cast h
    have hlow' : 2 ^ 52 * (den * 2 ^ k) ≤ num := by
      have heq : 2 ^ 52 * (den * 2 ^ k) = 2 ^ (k + 52) * den := by ring
      rw [heq]
      exact_mod_cast hlow
    have hhigh' : num < 2 ^ 53 * (den * 2 ^ k) := by
      have heq : 2 ^ 53 * (den * 2 ^ k) = 2 ^ (k + 52 + 1) * den := by ring
      rw [heq]
      exact_mod_cast hhigh
    have hunit : 0 < den * 2 ^ k := by positivity
    have hge := (Nat.le_div_iff_mul_le hunit).mpr hlow'
    apply kept_mul_pow _ (roundDiv_lt_of_lt hunit hhigh') hmax
    rcases roundDiv_mem num (den * 2 ^ k) with hr | hr
    · rw [hr]
      exact hge
    · rw [hr]
      exact Nat.le_succ_of_le hge
  · obtain ⟨k, hk⟩ := Int.eq_ofNat_of_zero_le (show 0 ≤ -u by omega)
    obtain rfl : u = -(k : Int) := by omega
    rw [if_neg hsign, neg_neg, Int.toNat_natCast, Nat.pow_eq] at h
    have hlog : floorLog2 num den + 1 ≤ 53 - (k : Int) := by omega
    have hscaled := scaled_lt hden hhigh hlog
    have hround := roundDiv_lt_of_lt hden hscaled
    apply kept_of_le
    have hle : (n : Rat) ≤ roundDiv (num * 2 ^ k) den := by
      rw [← h, Rat.mkRat_eq_div]
      apply div_le_self (Nat.cast_nonneg _)
      exact_mod_cast Nat.one_le_two_pow
    have hle' : n ≤ roundDiv (num * 2 ^ k) den := by exact_mod_cast hle
    exact hle'.trans hround

/-- A whole number that is the nearest one to any value is kept. -/
theorem kept_of_ofRat {q : Rat} {z : Int} (h : ofRat q = finite z) : Kept z.natAbs := by
  by_cases hq : q.den = 1 ∧ q.num.natAbs ≤ Nat.pow 2 53
  · rw [ofRat, if_pos hq] at h
    obtain rfl := finite.inj h
    exact kept_of_le hq.2
  · obtain ⟨hmax, hround⟩ := roundMagnitude_of_ofRat hq h
    have hnum : 0 < q.num.natAbs := by
      rcases Nat.eq_zero_or_pos q.num.natAbs with hzero | hpos
      · have hq0 : q = 0 := Rat.num_eq_zero.mp (Int.natAbs_eq_zero.mp hzero)
        rw [hq0] at hq
        exact absurd ⟨rfl, Nat.zero_le _⟩ hq
      · exact hpos
    have hpos : 0 ≤ roundMagnitude q.num.natAbs q.den := by
      unfold roundMagnitude
      dsimp only
      split
      · exact Nat.cast_nonneg _
      · rw [Rat.mkRat_eq_div]
        exact div_nonneg (Nat.cast_nonneg _) (Nat.cast_nonneg _)
    have habs : roundMagnitude q.num.natAbs q.den = (z.natAbs : Rat) := by
      rw [Nat.cast_natAbs, Int.cast_abs]
      rcases hround with hr | hr
      · rw [hr, abs_of_nonneg hpos]
      · rw [hr, abs_neg, abs_of_nonneg hpos]
    rw [habs] at hmax
    exact kept_of_roundMagnitude hnum q.den_pos habs (Nat.cast_lt.mp hmax)

/-- A whole number beyond the limit is rounded to a multiple of the unit that it is counted in. -/
theorem exists_unit_of_lt {n : Nat} (hn : wholeLimit < n) :
    ∃ u, 2 ^ (u + 52) ≤ n ∧ n < 2 ^ (u + 53) ∧
      roundMagnitude n 1 = ((roundDiv n (2 ^ u) * 2 ^ u : Nat) : Rat) := by
  have hlog : 52 ≤ n.log2 := by
    refine (Nat.le_log2 (by omega)).mpr (Nat.le_trans ?_ hn.le)
    decide
  obtain ⟨u, hu⟩ : ∃ u, n.log2 = u + 52 := ⟨n.log2 - 52, by omega⟩
  have hlow : 2 ^ (u + 52) ≤ n := hu ▸ Nat.log2_self_le (by omega)
  have hhigh : n < 2 ^ (u + 53) := by
    have hself := Nat.lt_log2_self (n := n)
    rwa [hu] at hself
  refine ⟨u, hlow, hhigh, ?_⟩
  have hlow' : 2 ^ (u + 52) * 1 ≤ n := (Nat.mul_one _).symm ▸ hlow
  have hhigh' : n < 2 ^ (u + 53) * 1 := (Nat.mul_one _).symm ▸ hhigh
  rw [roundMagnitude_eq Nat.one_pos hlow' hhigh', Nat.one_mul]

/-- Rounding to multiples of a unit does not go past a power of two. -/
theorem roundDiv_bounds {n u k l : Nat} (hlow : 2 ^ (u + k) ≤ n) (hhigh : n < 2 ^ (u + l)) :
    2 ^ (u + k) ≤ roundDiv n (2 ^ u) * 2 ^ u ∧ roundDiv n (2 ^ u) * 2 ^ u ≤ 2 ^ (u + l) := by
  have hunit : 0 < 2 ^ u := Nat.two_pow_pos u
  rw [Nat.pow_add, Nat.mul_comm] at hlow hhigh
  have hquot := (Nat.le_div_iff_mul_le hunit).mpr hlow
  have hquot' := (Nat.div_lt_iff_lt_mul hunit).mpr hhigh
  have hround := roundDiv_mem n (2 ^ u)
  rw [Nat.pow_add, Nat.pow_add, Nat.mul_comm _ (2 ^ k), Nat.mul_comm _ (2 ^ l)]
  exact ⟨Nat.mul_le_mul_right _ (by omega), Nat.mul_le_mul_right _ (by omega)⟩

/-- A whole number beyond the limit is rounded to a positive multiple of its unit, which is at most
twice as large. -/
theorem exists_roundMagnitude_eq {n : Nat} (hn : wholeLimit < n) :
    ∃ m, 1 ≤ m ∧ m ≤ 2 * n ∧ roundMagnitude n 1 = (m : Rat) := by
  obtain ⟨u, hlow, -, hround⟩ := exists_unit_of_lt hn
  have hunit : 0 < 2 ^ u := Nat.two_pow_pos u
  have hquot : 1 ≤ n / 2 ^ u := (Nat.le_div_iff_mul_le hunit).mpr <| by
    rw [Nat.one_mul]
    exact (Nat.pow_le_pow_right (by decide) (by omega)).trans hlow
  have hdiv : roundDiv n (2 ^ u) ≤ 2 * (n / 2 ^ u) := by
    rcases roundDiv_mem n (2 ^ u) with hr | hr <;> omega
  have hge : 1 ≤ roundDiv n (2 ^ u) := by
    rcases roundDiv_mem n (2 ^ u) with hr | hr <;> omega
  refine ⟨roundDiv n (2 ^ u) * 2 ^ u, Nat.mul_pos hge hunit, ?_, hround⟩
  calc roundDiv n (2 ^ u) * 2 ^ u ≤ 2 * (n / 2 ^ u) * 2 ^ u := Nat.mul_le_mul_right _ hdiv
    _ = 2 * (n / 2 ^ u * 2 ^ u) := Nat.mul_assoc _ _ _
    _ ≤ 2 * n := Nat.mul_le_mul_left 2 (Nat.div_mul_le_self n _)

theorem not_whole_of_lt {n : Nat} (hn : wholeLimit < n) :
    ¬ ((n : Rat).den = 1 ∧ (n : Rat).num.natAbs ≤ Nat.pow 2 53) := by
  rw [Rat.num_natCast, Int.natAbs_natCast]
  have hpow : Nat.pow 2 53 = wholeLimit := by decide
  omega

/-- Beyond the limit a whole number is rounded, and may be too large. -/
theorem ofNat_of_lt {n : Nat} (hn : wholeLimit < n) :
    ofNat n = if (Nat.pow 2 1024 : Rat) ≤ roundMagnitude n 1 then infinite false
      else finite (roundMagnitude n 1) := by
  have hsign : ¬ (n : Int) < 0 := by omega
  rw [ofNat, ofRat, if_neg (not_whole_of_lt hn), Rat.num_natCast, Int.natAbs_natCast,
    Rat.den_natCast]
  simp only [if_neg hsign, decide_eq_false hsign]

/-- A positive whole number well below the greatest value is rounded to a positive whole number. -/
theorem exists_ofNat_eq {n k : Nat} (hpos : 1 ≤ n) (hmax : n < 2 ^ k) (hk : k < 1024) :
    ∃ m : Nat, 1 ≤ m ∧ ofNat n = finite m := by
  rcases Nat.lt_or_ge wholeLimit n with hbig | hsmall
  · obtain ⟨m, hm, hle, hround⟩ := exists_roundMagnitude_eq hbig
    have hfit : m < Nat.pow 2 1024 := by
      calc m ≤ 2 * n := hle
        _ < 2 * 2 ^ k := (Nat.mul_lt_mul_left (by decide)).mpr hmax
        _ = 2 ^ (k + 1) := Nat.pow_succ'.symm
        _ ≤ Nat.pow 2 1024 := Nat.pow_le_pow_right (by decide) hk
    refine ⟨m, hm, ?_⟩
    have hbelow : ¬ ((Nat.pow 2 1024 : Rat) ≤ (m : Rat)) := not_le.mpr (Nat.cast_lt.mpr hfit)
    rw [ofNat_of_lt hbig, hround, if_neg hbelow]
  · exact ⟨n, hpos, ofNat_eq hsmall⟩

/-- Only zero is rounded to zero. -/
theorem ofNat_eq_zero {n : Nat} : ofNat n = 0 ↔ n = 0 := by
  constructor
  · intro h
    have hzero : (0 : Number) = finite 0 := by decide
    rw [hzero] at h
    rcases Nat.lt_or_ge wholeLimit n with hbig | hsmall
    · obtain ⟨m, hm, -, hround⟩ := exists_roundMagnitude_eq hbig
      obtain ⟨-, hr⟩ := roundMagnitude_of_ofRat (not_whole_of_lt hbig) h
      rw [Rat.num_natCast, Int.natAbs_natCast, Rat.den_natCast, hround] at hr
      have hpos : (0 : Rat) < m := by exact_mod_cast hm
      rcases hr with hr | hr <;> linarith
    · rw [ofNat_eq hsmall, finite.injEq] at h
      exact_mod_cast h
  · rintro rfl
    rfl

theorem roundMagnitude_mono {m n : Nat} (hm : wholeLimit < m) (h : m ≤ n) :
    roundMagnitude m 1 ≤ roundMagnitude n 1 := by
  obtain ⟨u, hlow, hhigh, hround⟩ := exists_unit_of_lt hm
  obtain ⟨u', hlow', hhigh', hround'⟩ := exists_unit_of_lt (hm.trans_le h)
  rw [hround, hround']
  refine Nat.cast_le.mpr ?_
  have hexp : u + 52 < u' + 53 :=
    (Nat.pow_lt_pow_iff_right (by decide)).mp ((hlow.trans h).trans_lt hhigh')
  rcases Nat.lt_or_eq_of_le (show u ≤ u' by omega) with hlt | rfl
  · calc roundDiv m (2 ^ u) * 2 ^ u ≤ 2 ^ (u + 53) := (roundDiv_bounds hlow hhigh).2
      _ ≤ 2 ^ (u' + 52) := Nat.pow_le_pow_right (by decide) (by omega)
      _ ≤ roundDiv n (2 ^ u') * 2 ^ u' := (roundDiv_bounds hlow' hhigh').1
  · exact Nat.mul_le_mul_right _ (roundDiv_mono (Nat.two_pow_pos u) h)

theorem wholeLimit_le_roundMagnitude {n : Nat} (hn : wholeLimit < n) :
    (wholeLimit : Rat) ≤ roundMagnitude n 1 := by
  obtain ⟨u, hlow, hhigh, hround⟩ := exists_unit_of_lt hn
  rw [hround]
  refine Nat.cast_le.mpr ?_
  have hpow : wholeLimit = 2 ^ 53 := by decide
  have hexp : 53 < u + 53 :=
    (Nat.pow_lt_pow_iff_right (Nat.lt_succ_self 1)).mp ((hpow ▸ hn).trans hhigh)
  calc wholeLimit = 2 ^ 53 := hpow
    _ ≤ 2 ^ (u + 52) := Nat.pow_le_pow_right (Nat.succ_pos 1) (by omega)
    _ ≤ roundDiv n (2 ^ u) * 2 ^ u := (roundDiv_bounds hlow hhigh).1

theorem ofNat_mono {m n : Nat} (h : m ≤ n) : le (ofNat m) (ofNat n) = true := by
  rcases Nat.lt_or_ge wholeLimit n with hn | hn
  · rw [ofNat_of_lt hn]
    rcases Nat.lt_or_ge wholeLimit m with hm | hm
    · have hround := roundMagnitude_mono hm h
      rw [ofNat_of_lt hm]
      split
      · next hbig =>
        rw [if_pos (hbig.trans hround)]
        rfl
      · split
        · rfl
        · exact decide_eq_true hround
    · rw [ofNat_eq hm]
      split
      · rfl
      · exact decide_eq_true ((Nat.cast_le.mpr hm).trans (wholeLimit_le_roundMagnitude hn))
  · rw [le_ofNat (h.trans hn) hn]
    exact decide_eq_true h

theorem ofNat_ne_nan (n : Nat) : ofNat n ≠ nan := ne_nan_of_le (ofNat_mono (Nat.le_refl n))

theorem lt_of_lt_ofNat {m n : Nat} (h : lt (ofNat m) (ofNat n) = true) : m < n := by
  by_contra hle
  exact not_lt_of_le (ofNat_mono (Nat.le_of_not_lt hle)) h

theorem neg_le_neg {x y : Number} (h : le x y = true) : le (neg y) (neg x) = true := by
  cases x <;> cases y <;> simp_all [le, neg]
  rcases h with h | h <;> simp [h]

/-- Rounding takes no account of the sign. -/
theorem ofRat_neg (q : Rat) : ofRat (-q) = neg (ofRat q) := by
  have hsame : (-q).den = q.den ∧ (-q).num = -q.num := ⟨Rat.neg_den q, Rat.neg_num q⟩
  rw [ofRat, ofRat, hsame.1, hsame.2, Int.natAbs_neg]
  split
  · rfl
  next hrounded =>
    have hne : q.num ≠ 0 := by
      intro hzero
      obtain rfl := Rat.num_eq_zero.mp hzero
      exact hrounded (by decide)
    have hsign : (-q.num < 0) ↔ ¬ (q.num < 0) := by omega
    simp only [hsign]
    split
    · rw [neg, decide_not]
    · split
      next hpos => rfl
      next hneg => rw [if_pos (not_not.mp hneg), neg, neg_neg]

theorem ofInt_mono {a b : Int} (h : a ≤ b) : le (ofInt a) (ofInt b) = true := by
  have hneg : ∀ z : Int, ofInt (-z) = neg (ofInt z) := by
    intro z
    rw [ofInt, Int.cast_neg, ofRat_neg]
    rfl
  have hnat : ∀ n : Nat, ofInt n = ofNat n := fun _ => rfl
  rcases le_total 0 a with ha | ha
  · obtain ⟨m, rfl⟩ := Int.eq_ofNat_of_zero_le ha
    obtain ⟨n, rfl⟩ := Int.eq_ofNat_of_zero_le (ha.trans h)
    exact ofNat_mono (Int.ofNat_le.mp h)
  · obtain ⟨m, rfl⟩ := Int.exists_eq_neg_ofNat ha
    rcases le_total 0 b with hb | hb
    · obtain ⟨n, rfl⟩ := Int.eq_ofNat_of_zero_le hb
      have hzero : neg 0 = 0 := by decide
      rw [hneg]
      exact le_trans (neg_le_neg (ofNat_mono (Nat.zero_le m))) (hzero ▸ ofNat_mono (Nat.zero_le n))
    · obtain ⟨n, rfl⟩ := Int.exists_eq_neg_ofNat hb
      rw [hneg, hneg]
      exact neg_le_neg (ofNat_mono (Int.ofNat_le.mp (Int.neg_le_neg_iff.mp h)))

end ImageLedger.Number
