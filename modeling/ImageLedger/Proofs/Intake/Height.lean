import ImageLedger.Fault
import ImageLedger.Proofs.Json.WholeNumbers
import ImageLedger.Proofs.Number.Rounding
import Mathlib.Data.Nat.Digits.Defs

namespace ImageLedger.Fields

open Json (digitValue digitsValue isDigit)

/-- A text of one or more decimal digits, and the number that they stand for. -/
structure Denotes (s : String) (n : Nat) : Prop where
  nonempty : s ≠ ""
  digits : ∀ c ∈ s.toList, '0' ≤ c ∧ c ≤ '9'
  value : Nat.ofDigits 10 (s.toList.map digitValue).reverse = n

theorem ofDigits_reverse (cs : List Char) :
    Nat.ofDigits 10 (cs.map digitValue).reverse = digitsValue cs := by
  induction cs with
  | nil => rfl
  | cons c cs ih =>
    have hfirst : digitsValue [c] = digitValue c := Nat.zero_add _
    have hsplit := Json.digitsValue_append [c] cs
    rw [List.singleton_append] at hsplit
    rw [List.map_cons, Nat.ofDigits_reverse_cons, ih, hsplit, hfirst, List.length_map, Nat.add_comm]

variable {s field : String} {n : Nat}

theorem denotes_iff : Denotes s n ↔
    (s.toList.isEmpty || !s.toList.all isDigit) = false ∧ digitsValue s.toList = n := by
  have hempty : s.toList.isEmpty = false ↔ s ≠ "" := by simp
  have hdigits : s.toList.all isDigit = true ↔ ∀ c ∈ s.toList, '0' ≤ c ∧ c ≤ '9' := by
    simp [isDigit]
  rw [Bool.or_eq_false_iff, Bool.not_eq_false', hempty, hdigits, ← ofDigits_reverse]
  exact ⟨fun h => ⟨⟨h.nonempty, h.digits⟩, h.value⟩, fun h => ⟨h.1.1, h.1.2, h.2⟩⟩

/-- The digits of a number denote it, whatever zeros stand in front of them. -/
theorem denotes_of_toDigits {zeros : Nat}
    (h : s.toList = List.replicate zeros '0' ++ Nat.toDigits 10 n) : Denotes s n := by
  have hne : s.toList ≠ [] := h ▸ List.append_ne_nil_of_right_ne_nil _ Nat.toDigits_ne_nil
  have hdigits : ∀ c ∈ s.toList, isDigit c = true := by
    intro c hc
    rcases List.mem_append.mp (h ▸ hc) with hzero | hdigit
    · rw [List.eq_of_mem_replicate hzero]
      decide
    · exact Json.isDigit_of_mem_toDigits hdigit
  rw [denotes_iff, Bool.or_eq_false_iff, Bool.not_eq_false', List.isEmpty_eq_false_iff,
    List.all_eq_true]
  refine ⟨⟨hne, hdigits⟩, ?_⟩
  rw [h, Json.digitsValue_append, Json.digitsValue_zeros, Json.digitsValue_toDigits, Nat.mul_zero,
    Nat.zero_add]

/-- Rounding has no part in the comparison with the greatest height. -/
theorem tooLarge_iff : (!(Number.ofNat n).isSafe ||
    Number.lt (Number.ofNat maxHeight) (Number.ofNat n)) = true ↔ maxHeight < n := by
  rw [Bool.or_eq_true]
  constructor
  · intro h
    by_contra hle
    have hsafe : (Number.ofNat n).isSafe = true :=
      Number.isSafe_ofNat ((Nat.le_of_not_lt hle).trans_lt (by decide))
    rcases h with hunsafe | hlt
    · rw [hsafe] at hunsafe
      cases hunsafe
    · exact hle (Number.lt_of_lt_ofNat hlt)
  · intro h
    -- the number after the greatest height is not rounded, and no greater one is rounded below it
    have hnext : Number.lt (Number.ofNat maxHeight) (Number.ofNat (maxHeight + 1)) = true := by
      decide +kernel
    exact Or.inr (Number.lt_of_lt_of_le hnext (Number.ofNat_mono h))

theorem parseHeight_of_denotes (h : Denotes s n) : parseHeight (some s) field =
    if maxHeight < n then .error (.heightTooLarge field) else .ok (.finite n) := by
  obtain ⟨hdigits, hvalue⟩ := denotes_iff.mp h
  change (if s.toList.isEmpty || !s.toList.all isDigit
      then .error (.notAHeight field)
    else if !(Number.ofNat (digitsValue s.toList)).isSafe ||
        Number.lt (Number.ofNat maxHeight) (Number.ofNat (digitsValue s.toList))
      then .error (.heightTooLarge field)
    else .ok (Number.ofNat (digitsValue s.toList)) : Except FieldError Number) = _
  rw [hdigits, hvalue]
  simp only [Bool.false_eq_true, if_false, tooLarge_iff]
  split
  · rfl
  · next hle => rw [Number.ofNat_eq ((Nat.le_of_not_lt hle).trans (by decide))]

theorem parseHeight_of_not_denotes (h : ∀ n, ¬ Denotes s n) :
    parseHeight (some s) field = .error (.notAHeight field) := by
  have hrefused : (s.toList.isEmpty || !s.toList.all isDigit) = true := by
    by_contra hdigits
    exact h _ (denotes_iff.mpr ⟨Bool.eq_false_iff.mpr hdigits, rfl⟩)
  exact if_pos hrefused

theorem parseHeight_cases (s field : String) :
    (∃ n, Denotes s n ∧ n ≤ maxHeight ∧ parseHeight (some s) field = .ok (.finite n)) ∨
    (∃ n, Denotes s n ∧ maxHeight < n ∧
      parseHeight (some s) field = .error (.heightTooLarge field)) ∨
    ((∀ n, ¬ Denotes s n) ∧ parseHeight (some s) field = .error (.notAHeight field)) := by
  by_cases hs : ∃ n, Denotes s n
  · obtain ⟨n, hn⟩ := hs
    rcases Nat.lt_or_ge maxHeight n with hlt | hle
    · exact .inr (.inl ⟨n, hn, hlt, (parseHeight_of_denotes hn).trans (if_pos hlt)⟩)
    · exact .inl ⟨n, hn, hle, (parseHeight_of_denotes hn).trans (if_neg (Nat.not_lt_of_le hle))⟩
  · have hnone : ∀ n, ¬ Denotes s n := not_exists.mp hs
    exact .inr (.inr ⟨hnone, parseHeight_of_not_denotes hnone⟩)

theorem Denotes.unique {m : Nat} (hm : Denotes s m) (hn : Denotes s n) : m = n :=
  hm.value.symm.trans hn.value

theorem parseHeight_ok_iff {x : Number} : parseHeight (some s) field = .ok x ↔
    ∃ n : Nat, Denotes s n ∧ n ≤ maxHeight ∧ x = .finite n := by
  rcases parseHeight_cases s field with ⟨n, hn, hle, hread⟩ | ⟨n, hn, hlt, hread⟩ | ⟨hnone, hread⟩
  · rw [hread]
    constructor
    · intro h
      exact ⟨n, hn, hle, (Except.ok.inj h).symm⟩
    · rintro ⟨m, hm, -, rfl⟩
      rw [hm.unique hn]
  · rw [hread]
    constructor
    · intro h
      cases h
    · rintro ⟨m, hm, hle, -⟩
      exact absurd (hm.unique hn ▸ hle) (Nat.not_le_of_lt hlt)
  · rw [hread]
    constructor
    · intro h
      cases h
    · rintro ⟨m, hm, -⟩
      exact absurd hm (hnone m)

theorem parseHeight_error_iff {e : FieldError} : parseHeight (some s) field = .error e ↔
    (e = .heightTooLarge field ∧ ∃ n, Denotes s n ∧ maxHeight < n) ∨
    (e = .notAHeight field ∧ ∀ n, ¬ Denotes s n) := by
  rcases parseHeight_cases s field with ⟨n, hn, hle, hread⟩ | ⟨n, hn, hlt, hread⟩ | ⟨hnone, hread⟩
  · rw [hread]
    constructor
    · intro h
      cases h
    · rintro (⟨-, m, hm, hlt⟩ | ⟨-, hnone⟩)
      · exact absurd (hm.unique hn ▸ hlt) (Nat.not_lt_of_le hle)
      · exact absurd hn (hnone n)
  · rw [hread]
    constructor
    · intro h
      exact .inl ⟨(Except.error.inj h).symm, n, hn, hlt⟩
    · rintro (⟨rfl, -⟩ | ⟨-, hnone⟩)
      · rfl
      · exact absurd hn (hnone n)
  · rw [hread]
    constructor
    · intro h
      exact .inr ⟨(Except.error.inj h).symm, hnone⟩
    · rintro (⟨-, m, hm, -⟩ | ⟨rfl, -⟩)
      · exact absurd hm (hnone m)
      · rfl

/-- A height is read exactly: the number of the digits if it can be a height, with any zeros in
front, and nothing else. All other texts are refused as bad requests, which tell digits that stand
for too much from what is not digits. -/
theorem parseHeight_exact (s field : String) :
    (∀ x, parseHeight (some s) field = .ok x ↔
      ∃ n : Nat, Denotes s n ∧ n ≤ 2147483647 ∧ x = .finite n) ∧
    (∀ e, parseHeight (some s) field = .error e ↔
      (e = .heightTooLarge field ∧ ∃ n, Denotes s n ∧ 2147483647 < n) ∨
      (e = .notAHeight field ∧ ∀ n, ¬ Denotes s n)) ∧
    (∀ e, parseHeight (some s) field = .error e →
      (Fault.field e).report = ⟨.request 400, e.message, some field, none⟩) ∧
    ∀ zeros n, s.toList = List.replicate zeros '0' ++ Nat.toDigits 10 n → Denotes s n := by
  refine ⟨fun x => parseHeight_ok_iff, fun e => parseHeight_error_iff, fun e h => ?_,
    fun zeros n => denotes_of_toDigits⟩
  rcases parseHeight_error_iff.mp h with ⟨rfl, -⟩ | ⟨rfl, -⟩ <;> rfl

/-- The greatest height with zeros in front is read, and a number that is rounded on the way, to
its even neighbour, is refused. -/
theorem parseHeight_exact_samples :
    parseHeight (some "0002147483647") "height" = .ok (.finite 2147483647) ∧
      parseHeight (some "9007199254740993") "height" = .error (.heightTooLarge "height") := by
  obtain ⟨haccepts, -, -, hgreatest⟩ := parseHeight_exact "0002147483647" "height"
  obtain ⟨-, hrefuses, -, hlarge⟩ := parseHeight_exact "9007199254740993" "height"
  have hzeros : "0002147483647".toList = List.replicate 3 '0' ++ Nat.toDigits 10 2147483647 := by
    decide +kernel
  have hplain : "9007199254740993".toList =
      List.replicate 0 '0' ++ Nat.toDigits 10 9007199254740993 := by decide +kernel
  exact ⟨(haccepts _).mpr ⟨2147483647, hgreatest 3 _ hzeros, le_rfl, rfl⟩,
    (hrefuses _).mpr (.inl ⟨rfl, 9007199254740993, hlarge 0 _ hplain, by decide⟩)⟩

end ImageLedger.Fields
