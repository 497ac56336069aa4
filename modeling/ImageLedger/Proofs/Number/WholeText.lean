import ImageLedger.Proofs.Json.WholeNumbers
import ImageLedger.Proofs.Digest.HashText

namespace ImageLedger.Number

open Json (isDigit)

/-- A whole number among the representable ones. -/
def Whole (x : Number) : Prop := x.isInteger = true ∧ ∃ q, x = ofRat q

theorem whole_ofNat {n : Nat} (h : n ≤ wholeLimit) : (ofNat n).Whole := ⟨isInteger_ofNat h, n, rfl⟩

theorem Whole.exists_kept {x : Number} (h : x.Whole) : ∃ z : Int, x = finite z ∧ Kept z.natAbs := by
  obtain ⟨hinteger, q, hq⟩ := h
  cases x with
  | finite p =>
    by_cases hden : p.den = 1
    · have hp : finite p = finite (p.num : Rat) := by rw [Rat.coe_int_num_of_den_eq_one hden]
      exact ⟨p.num, hp, kept_of_ofRat (hq.symm.trans hp)⟩
    · rw [isInteger, toInt?, if_neg hden] at hinteger
      cases hinteger
  | infinite negative => cases hinteger
  | nan => cases hinteger

theorem Whole.toText_inj {x y : Number} (hx : x.Whole) (hy : y.Whole) (h : x.toText = y.toText) :
    x = y := by
  obtain ⟨z, rfl, hz⟩ := hx.exists_kept
  obtain ⟨w, rfl, hw⟩ := hy.exists_kept
  have hchars := String.ofList_injective h
  have hreadx := (Json.numberReadsBack_whole hz).2 [] Json.endsNumber_nil
  have hready := (Json.numberReadsBack_whole hw).2 [] Json.endsNumber_nil
  rw [hchars, hready] at hreadx
  exact (Prod.mk.inj (Option.some.inj hreadx)).1.symm

section Kept

variable {n : Nat}

theorem Kept.mem_chars (h : Kept n) {c : Char} (hc : c ∈ (finite n).chars) :
    isDigit c = true ∨ c = '.' ∨ c = 'e' ∨ c = '+' := by
  rcases Nat.lt_or_ge wholeLimit n with hbig | hsmall
  · obtain ⟨ds, point, hchars, hne, hdigits, -, -, hmin, -⟩ := Json.exists_layout h hbig
    rw [hchars] at hc
    rcases Nat.lt_or_ge 21 point with hexponent | hplain
    · cases ds with
      | nil => exact absurd rfl hne
      | cons d ds =>
        rw [Json.layout_exponent hexponent] at hc
        simp only [List.cons_append, List.mem_cons, List.mem_append] at hc
        rcases hc with rfl | hc | rfl | rfl | hc
        · exact Or.inl (hdigits c List.mem_cons_self)
        · split at hc
          · cases hc
          · rcases List.mem_cons.mp hc with rfl | hc
            · exact Or.inr (Or.inl rfl)
            · exact Or.inl (hdigits c (List.mem_cons_of_mem d hc))
        · exact Or.inr (Or.inr (Or.inl rfl))
        · exact Or.inr (Or.inr (Or.inr rfl))
        · exact Or.inl (Json.isDigit_of_mem_toDigits hc)
    · by_cases hlen : ds.length ≤ point
      · rw [Json.layout_plain hlen hplain] at hc
        rcases List.mem_append.mp hc with hc | hc
        · exact Or.inl (hdigits c hc)
        · obtain rfl := List.eq_of_mem_replicate hc
          exact Or.inl rfl
      · rw [Json.layout_point (by omega) (by omega) hplain] at hc
        rcases List.mem_append.mp hc with hc | hc
        · exact Or.inl (hdigits c (List.mem_of_mem_take hc))
        · rcases List.mem_cons.mp hc with rfl | hc
          · exact Or.inr (Or.inl rfl)
          · exact Or.inl (hdigits c (List.mem_of_mem_drop hc))
  · rw [Json.chars_of_le hsmall] at hc
    exact Or.inl (Json.isDigit_of_mem_toDigits hc)

/-- Texts of whole numbers are short, the more so unless they have an exponent. -/
theorem Kept.length_chars (h : Kept n) :
    (finite n).chars ≠ [] ∧ (finite n).chars.length ≤ 24 ∧
      ((finite n).chars.length ≤ 21 ∨ '+' ∈ (finite n).chars) := by
  rcases Nat.lt_or_ge wholeLimit n with hbig | hsmall
  · obtain ⟨ds, point, hchars, hne, -, -, hlength, hmin, hmax, -⟩ := Json.exists_layout h hbig
    rw [hchars]
    rcases Nat.lt_or_ge 21 point with hexponent | hplain
    · cases ds with
      | nil => exact absurd rfl hne
      | cons d ds =>
        have hdigits : (Nat.toDigits 10 (point - 1)).length ≤ 3 := by
          rw [Nat.length_toDigits_le_iff (by decide) (by decide)]
          omega
        rw [Json.layout_exponent hexponent]
        refine ⟨List.cons_ne_nil _ _, ?_, Or.inr (by simp)⟩
        rw [List.length_cons] at hlength
        split <;> simp only [List.cons_append, List.length_append, List.length_cons,
          List.length_nil] <;> omega
    · by_cases hlen : ds.length ≤ point
      · rw [Json.layout_plain hlen hplain]
        have hshort : (ds ++ List.replicate (point - ds.length) '0').length ≤ 21 := by
          rw [List.length_append, List.length_replicate]
          omega
        exact ⟨List.append_ne_nil_of_left_ne_nil hne _, by omega, Or.inl hshort⟩
      · rw [Json.layout_point (by omega) (by omega) hplain]
        have hshort : (ds.take point ++ '.' :: ds.drop point).length ≤ 21 := by
          rw [List.length_append, List.length_cons, List.length_take, List.length_drop]
          omega
        exact ⟨List.append_ne_nil_of_right_ne_nil _ (List.cons_ne_nil _ _), by omega,
          Or.inl hshort⟩
  · rw [Json.chars_of_le hsmall]
    have hshort : (Nat.toDigits 10 n).length ≤ 21 := by
      rw [Nat.length_toDigits_le_iff (by decide) (by decide)]
      exact hsmall.trans_lt (by decide)
    exact ⟨Nat.toDigits_ne_nil, by omega, Or.inl hshort⟩

end Kept

/-- The text of a whole number is that of its magnitude, with a sign in front of a negative one. -/
theorem chars_intCast (z : Int) :
    (finite z).chars = (finite (z.natAbs : Nat)).chars ∨
      (finite z).chars = '-' :: (finite (z.natAbs : Nat)).chars := by
  obtain ⟨n, rfl | rfl⟩ := Int.eq_nat_or_neg z
  · exact Or.inl rfl
  · rcases Nat.eq_zero_or_pos n with rfl | hpos
    · exact Or.inl rfl
    · right
      rw [Int.cast_neg, Int.cast_natCast, Json.chars_neg hpos, Int.natAbs_neg, Int.natAbs_natCast]

theorem Whole.colon_not_mem {x : Number} (h : x.Whole) : ':' ∉ x.toText.toList := by
  obtain ⟨z, rfl, hz⟩ := h.exists_kept
  have hmagnitude : ':' ∉ (finite (z.natAbs : Nat)).chars := by
    intro hc
    rcases hz.mem_chars hc with hc | hc | hc | hc
    · cases hc
    · exact absurd hc (by decide)
    · exact absurd hc (by decide)
    · exact absurd hc (by decide)
  rw [toText, String.toList_ofList]
  rcases chars_intCast z with hchars | hchars
  · rw [hchars]
    exact hmagnitude
  · rw [hchars]
    intro hc
    rcases List.mem_cons.mp hc with hc | hc
    · exact absurd hc (by decide)
    · exact hmagnitude hc

theorem Whole.length_toText_le {x : Number} (h : x.Whole) : x.toText.toList.length ≤ 25 := by
  obtain ⟨z, rfl, hz⟩ := h.exists_kept
  have hmagnitude := hz.length_chars.2.1
  rw [toText, String.toList_ofList]
  rcases chars_intCast z with hchars | hchars
  · rw [hchars]
    omega
  · rw [hchars, List.length_cons]
    omega

theorem Whole.toText_ne_empty {x : Number} (h : x.Whole) : x.toText ≠ "" := by
  obtain ⟨z, rfl, hz⟩ := h.exists_kept
  intro hempty
  have hnil := congrArg String.toList hempty
  rw [toText, String.toList_ofList] at hnil
  rcases chars_intCast z with hchars | hchars
  · exact hz.length_chars.1 (hchars.symm.trans hnil)
  · rw [hchars] at hnil
    cases hnil

theorem Whole.not_wellFormed {x : Number} (h : x.Whole) : HashText.wellFormed x.toText = false := by
  obtain ⟨z, rfl, hz⟩ := h.exists_kept
  by_contra hhash
  rw [Bool.not_eq_false, HashText.wellFormed, Bool.and_eq_true, decide_eq_true_eq, toText,
    String.toList_ofList, List.all_eq_true] at hhash
  obtain ⟨hlength, hhex⟩ := hhash
  have hplus : '+' ∉ (finite z).chars := by
    intro hc
    exact absurd (hhex '+' hc) (by decide)
  rcases chars_intCast z with hchars | hchars
  · rw [hchars] at hlength hplus
    rcases hz.length_chars.2.2 with hle | hmem
    · omega
    · exact hplus hmem
  · rw [hchars] at hlength hplus
    rw [List.length_cons] at hlength
    rcases hz.length_chars.2.2 with hle | hmem
    · omega
    · exact hplus (List.mem_cons_of_mem _ hmem)

end ImageLedger.Number
