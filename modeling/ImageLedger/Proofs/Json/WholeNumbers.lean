import ImageLedger.Proofs.Json.ReadBack
import ImageLedger.Proofs.Number.Shortest

namespace ImageLedger.Json

/-- Characters after which no further digit follows. -/
def EndsDigits (rest : List Char) : Prop := ∀ c cs, rest = c :: cs → isDigit c = false

theorem endsDigits_cons {c : Char} {cs : List Char} (h : isDigit c = false) :
    EndsDigits (c :: cs) := by
  intro d ds he
  obtain ⟨rfl, -⟩ := List.cons.inj he
  exact h

theorem EndsNumber.endsDigits {rest : List Char} (h : EndsNumber rest) : EndsDigits rest :=
  fun c cs he => (h c cs he).1

section Digits

variable {ds rest : List Char}

theorem readDigits_append (hne : ds ≠ []) (hd : ∀ c ∈ ds, isDigit c = true)
    (hrest : EndsDigits rest) : readDigits (ds ++ rest) = some (ds, rest) := by
  have hstop : rest.takeWhile isDigit = [] ∧ rest.dropWhile isDigit = rest := by
    cases rest with
    | nil => exact ⟨rfl, rfl⟩
    | cons c cs =>
      have hc := hrest c cs rfl
      simp [hc]
  have hempty : ds.isEmpty = false := by
    cases ds with
    | nil => exact absurd rfl hne
    | cons c cs => rfl
  rw [readDigits, List.takeWhile_append_of_pos hd, List.dropWhile_append_of_pos hd, hstop.1,
    hstop.2, List.append_nil]
  simp only [hempty, Bool.false_eq_true, if_false]

theorem readWhole_append (hne : ds ≠ []) (hd : ∀ c ∈ ds, isDigit c = true)
    (hhead : ds.head? ≠ some '0' ∨ ds.length = 1) (hrest : EndsDigits rest) :
    readWhole (ds ++ rest) = some (ds, rest) := by
  rw [readWhole, readDigits_append hne hd hrest]
  split
  · next he =>
    obtain ⟨rfl, -⟩ := Prod.mk.inj (Option.some.inj he)
    rcases hhead with hhead | hlen
    · exact absurd rfl hhead
    · simp at hlen
  · rfl

theorem readFraction_end (h : EndsNumber rest) : readFraction rest = some ([], rest) := by
  cases rest with
  | nil => rfl
  | cons c cs =>
    have hc := (h c cs rfl).2.1
    rw [readFraction]
    intro cs' he
    exact hc (List.cons.inj he).1

theorem readExponent_end (h : EndsNumber rest) : readExponent rest = some (0, rest) := by
  cases rest with
  | nil => rfl
  | cons c cs =>
    obtain ⟨-, -, he, hE⟩ := h c cs rfl
    simp [readExponent, he, hE]

theorem digitsValue_eq (cs : List Char) : digitsValue cs = Nat.ofDigitChars 10 cs 0 := by
  rw [digitsValue, Nat.ofDigitChars_eq_foldl]
  congr 1
  funext n c
  rw [Nat.mul_comm]
  rfl

theorem isDigit_of_mem_toDigits {n : Nat} {c : Char} (h : c ∈ Nat.toDigits 10 n) :
    isDigit c = true := by
  have hc := Nat.isDigit_of_mem_toDigits (by decide : 0 < 10) (by decide : 10 ≤ 10) h
  rw [Char.isDigit_iff_toNat] at hc
  simp only [isDigit, Text.le_iff_toNat_le, Bool.and_eq_true, decide_eq_true_eq]
  exact hc

@[simp] theorem digitsValue_toDigits (n : Nat) : digitsValue (Nat.toDigits 10 n) = n := by
  rw [digitsValue_eq, Nat.ofDigitChars_ten_toDigits]

theorem readExponent_plus (k : Nat) (hrest : EndsDigits rest) :
    readExponent ('e' :: '+' :: Nat.toDigits 10 k ++ rest) = some ((k : Int), rest) := by
  have hread : readDigits (Nat.toDigits 10 k ++ rest) = some (Nat.toDigits 10 k, rest) :=
    readDigits_append Nat.toDigits_ne_nil (fun c hc => isDigit_of_mem_toDigits hc) hrest
  simp only [List.cons_append, readExponent, true_or, if_true, hread, Option.map_some,
    digitsValue_toDigits]

theorem digitsValue_append (cs ds : List Char) :
    digitsValue (cs ++ ds) = 10 ^ ds.length * digitsValue cs + digitsValue ds := by
  rw [digitsValue_eq, digitsValue_eq, digitsValue_eq, Nat.ofDigitChars_append,
    Nat.ofDigitChars_eq_ofDigitChars_zero]

@[simp] theorem digitsValue_zeros (k : Nat) : digitsValue (List.replicate k '0') = 0 := by
  rw [digitsValue_eq, Nat.ofDigitChars_replicate_zero, Nat.mul_zero]

theorem digitsValue_lt (hd : ∀ c ∈ ds, isDigit c = true) : digitsValue ds < 10 ^ ds.length := by
  induction ds with
  | nil => decide
  | cons c cs ih =>
    have hc := hd c List.mem_cons_self
    have htail := ih fun d hd' => hd d (List.mem_cons_of_mem c hd')
    have hvalue : digitsValue [c] ≤ 9 := by
      simp only [isDigit, Text.le_iff_toNat_le, Bool.and_eq_true, decide_eq_true_eq] at hc
      have hzero : '0'.toNat = 48 := rfl
      have hnine : '9'.toNat = 57 := rfl
      simp only [digitsValue, digitValue, List.foldl_cons, List.foldl_nil]
      omega
    have hmul := Nat.mul_le_mul_left (10 ^ cs.length) hvalue
    rw [← List.singleton_append, digitsValue_append, List.length_append, List.length_singleton,
      Nat.add_comm 1, Nat.pow_succ]
    omega

end Digits

section Magnitude

variable {ds rest : List Char} {point : Nat}

theorem readMagnitude_eq {cs after₁ after₂ whole fraction : List Char} {exponent : Int}
    (hwhole : readWhole cs = some (whole, after₁))
    (hfraction : readFraction after₁ = some (fraction, after₂))
    (hexponent : readExponent after₂ = some (exponent, rest)) :
    readMagnitude cs = some
      (Number.ofDecimal (digitsValue (whole ++ fraction)) (exponent - fraction.length), rest) := by
  simp only [readMagnitude, hwhole, hfraction, hexponent, Option.bind_eq_bind, Option.bind_some]
  rfl

theorem layout_plain (hlen : ds.length ≤ point) (hmax : point ≤ 21) :
    Number.Digits.layout ⟨ds, point⟩ = ds ++ List.replicate (point - ds.length) '0' := by
  have hcount : ((point : Int) - (ds.length : Int)).toNat = point - ds.length := by omega
  simp only [Number.Digits.layout]
  rw [if_pos (by omega), hcount]

theorem layout_point (hlen : point < ds.length) (hpoint : 1 ≤ point) (hmax : point ≤ 21) :
    Number.Digits.layout ⟨ds, point⟩ = ds.take point ++ '.' :: ds.drop point := by
  simp only [Number.Digits.layout]
  rw [if_neg (by omega), if_pos (by omega), Int.toNat_natCast]

theorem layout_exponent {c : Char} {cs : List Char} (hmin : 22 ≤ point) :
    Number.Digits.layout ⟨c :: cs, point⟩ =
      c :: (if cs = [] then [] else '.' :: cs) ++ 'e' :: '+' :: Nat.toDigits 10 (point - 1) := by
  have hexponent : ((point : Int) - 1).natAbs = point - 1 := by omega
  simp only [Number.Digits.layout]
  rw [if_neg (by omega), if_neg (by omega), if_neg (by omega), if_neg (by omega), hexponent]
  cases cs with
  | nil => rfl
  | cons d ds => simp

theorem head?_take {k : Nat} (hk : 1 ≤ k) : (ds.take k).head? = ds.head? := by
  obtain ⟨j, rfl⟩ : ∃ j, k = j + 1 := ⟨k - 1, by omega⟩
  cases ds with
  | nil => rfl
  | cons c cs => rfl

/-- One digit, the others after a point, and an exponent. -/
theorem readMagnitude_exponent {c : Char} {cs : List Char} (hd : ∀ d ∈ c :: cs, isDigit d = true)
    (hmin : 22 ≤ point) (hrest : EndsNumber rest) :
    readMagnitude (Number.Digits.layout ⟨c :: cs, point⟩ ++ rest) =
      some (Number.ofDecimal (digitsValue (c :: cs)) ((point : Int) - (c :: cs).length), rest) := by
  have hc : ∀ d ∈ [c], isDigit d = true := by
    intro d hmem
    exact hd d (List.mem_singleton.mp hmem ▸ List.mem_cons_self)
  have htail : EndsDigits ('e' :: '+' :: Nat.toDigits 10 (point - 1) ++ rest) :=
    endsDigits_cons rfl
  have hplain : readFraction ('e' :: '+' :: Nat.toDigits 10 (point - 1) ++ rest) =
      some ([], 'e' :: '+' :: Nat.toDigits 10 (point - 1) ++ rest) := rfl
  have hvalue : ((point - 1 : Nat) : Int) - cs.length = (point : Int) - (c :: cs).length := by
    rw [List.length_cons]
    omega
  have hexponent := readExponent_plus (point - 1) hrest.endsDigits
  rw [layout_exponent hmin, ← hvalue]
  generalize 'e' :: '+' :: Nat.toDigits 10 (point - 1) = tail at hexponent htail hplain ⊢
  by_cases hcs : cs = []
  · subst hcs
    have hwhole := readWhole_append (List.cons_ne_nil c []) hc (Or.inr rfl) htail
    exact readMagnitude_eq hwhole hplain hexponent
  · have hcs' : ∀ d ∈ cs, isDigit d = true := by
      intro d hmem
      exact hd d (List.mem_cons_of_mem c hmem)
    have hmark : EndsDigits ('.' :: (cs ++ (tail ++ rest))) := endsDigits_cons rfl
    have hwhole := readWhole_append (List.cons_ne_nil c []) hc (Or.inr rfl) hmark
    have hfraction := readDigits_append hcs hcs' htail
    rw [if_neg hcs]
    simp only [List.cons_append, List.append_assoc, List.nil_append] at hwhole hfraction ⊢
    exact readMagnitude_eq hwhole hfraction hexponent

/-- A point between the digits. -/
theorem readMagnitude_point (hd : ∀ c ∈ ds, isDigit c = true) (hhead : ds.head? ≠ some '0')
    (hinside : point < ds.length) (hpoint : 1 ≤ point) (hmax : point ≤ 21)
    (hrest : EndsNumber rest) :
    readMagnitude (Number.Digits.layout ⟨ds, point⟩ ++ rest) =
      some (Number.ofDecimal (digitsValue ds) ((point : Int) - ds.length), rest) := by
  have htake : ds.take point ≠ [] := by
    intro hnil
    have hlength := congrArg List.length hnil
    rw [List.length_take, List.length_nil] at hlength
    omega
  have hdrop : ds.drop point ≠ [] := by
    intro hnil
    have hlength := congrArg List.length hnil
    rw [List.length_drop, List.length_nil] at hlength
    omega
  have hmark : EndsDigits ('.' :: (ds.drop point ++ rest)) := endsDigits_cons rfl
  have hwhole := readWhole_append htake (fun c hc => hd c (List.mem_of_mem_take hc))
    (Or.inl ((head?_take hpoint).trans_ne hhead)) hmark
  have hfraction := readDigits_append hdrop (fun c hc => hd c (List.mem_of_mem_drop hc))
    hrest.endsDigits
  have hread := readMagnitude_eq hwhole hfraction (readExponent_end hrest)
  have hexponent : 0 - ((ds.length - point : Nat) : Int) = (point : Int) - ds.length := by omega
  rw [List.take_append_drop, List.length_drop, hexponent] at hread
  rw [layout_point hinside hpoint hmax, List.append_assoc]
  exact hread

/-- Zeros up to the point. -/
theorem readMagnitude_plain (hne : ds ≠ []) (hd : ∀ c ∈ ds, isDigit c = true)
    (hhead : ds.head? ≠ some '0') (hafter : ds.length ≤ point) (hmax : point ≤ 21)
    (hrest : EndsNumber rest) :
    readMagnitude (Number.Digits.layout ⟨ds, point⟩ ++ rest) =
      some (Number.ofDecimal (10 ^ (point - ds.length) * digitsValue ds) 0, rest) := by
  have hzeros : ∀ c ∈ ds ++ List.replicate (point - ds.length) '0', isDigit c = true := by
    intro c hc
    rcases List.mem_append.mp hc with hc | hc
    · exact hd c hc
    · rw [(List.mem_replicate.mp hc).2]
      rfl
  have hhead' : (ds ++ List.replicate (point - ds.length) '0').head? ≠ some '0' := by
    cases ds with
    | nil => exact absurd rfl hne
    | cons c cs => exact hhead
  have hwhole := readWhole_append (List.append_ne_nil_of_left_ne_nil hne _) hzeros
    (Or.inl hhead') hrest.endsDigits
  have hread := readMagnitude_eq hwhole (readFraction_end hrest) (readExponent_end hrest)
  rw [List.append_nil, digitsValue_append, digitsValue_zeros, List.length_replicate,
    Nat.add_zero] at hread
  rw [layout_plain hafter hmax]
  exact hread

/-- Digits that were laid out are read as the decimal they stand for. -/
theorem readMagnitude_layout (hne : ds ≠ []) (hd : ∀ c ∈ ds, isDigit c = true)
    (hhead : ds.head? ≠ some '0') (hlen : ds.length ≤ 18) (hpoint : 1 ≤ point)
    (hmax : point ≤ 310) (hrest : EndsNumber rest) :
    ∃ (a : Nat) (e : Int), a < 10 ^ 21 ∧ -18 ≤ e ∧ e ≤ 310 ∧
      (a : Rat) * 10 ^ e = digitsValue ds * 10 ^ ((point : Int) - ds.length) ∧
      readMagnitude (Number.Digits.layout ⟨ds, point⟩ ++ rest) =
        some (Number.ofDecimal a e, rest) := by
  have hvalue := digitsValue_lt hd
  have hpow : 10 ^ ds.length ≤ 10 ^ 18 := Nat.pow_le_pow_right (by decide) hlen
  have hasis : ∀ {r : Option (Number × List Char)},
      r = some (Number.ofDecimal (digitsValue ds) ((point : Int) - ds.length), rest) →
      ∃ (a : Nat) (e : Int), a < 10 ^ 21 ∧ -18 ≤ e ∧ e ≤ 310 ∧
        (a : Rat) * 10 ^ e = digitsValue ds * 10 ^ ((point : Int) - ds.length) ∧
        r = some (Number.ofDecimal a e, rest) := by
    intro r hr
    exact ⟨digitsValue ds, (point : Int) - ds.length, by omega, by omega, by omega, rfl, hr⟩
  rcases Nat.lt_or_ge 21 point with hbig | hsmall
  · cases ds with
    | nil => exact absurd rfl hne
    | cons c cs => exact hasis (readMagnitude_exponent hd hbig hrest)
  · rcases Nat.lt_or_ge point ds.length with hinside | hafter
    · exact hasis (readMagnitude_point hd hhead hinside hpoint hsmall hrest)
    · have hbound : 10 ^ (point - ds.length) * digitsValue ds < 10 ^ 21 := by
        calc 10 ^ (point - ds.length) * digitsValue ds
            < 10 ^ (point - ds.length) * 10 ^ ds.length :=
              Nat.mul_lt_mul_of_pos_left hvalue (Nat.pow_pos (by decide))
          _ = 10 ^ point := by rw [← Nat.pow_add, Nat.sub_add_cancel hafter]
          _ ≤ 10 ^ 21 := Nat.pow_le_pow_right (by decide) hsmall
      have hexponent : (point : Int) - ds.length = ((point - ds.length : Nat) : Int) := by omega
      refine ⟨10 ^ (point - ds.length) * digitsValue ds, 0, hbound, by omega, by omega, ?_,
        readMagnitude_plain hne hd hhead hafter hsmall hrest⟩
      rw [hexponent, zpow_natCast, zpow_zero]
      push_cast
      ring

end Magnitude

theorem exists_zeros (cs : List Char) :
    ∃ k, cs = Number.dropTrailingZeros cs ++ List.replicate k '0' := by
  have hsplit := List.takeWhile_append_dropWhile (p := (· == '0')) (l := cs.reverse)
  have hzeros : cs.reverse.takeWhile (· == '0') =
      List.replicate (cs.reverse.takeWhile (· == '0')).length '0' := by
    apply List.eq_replicate_of_mem
    intro c hc
    exact beq_iff_eq.mp (List.all_eq_true.mp List.all_takeWhile c hc)
  refine ⟨(cs.reverse.takeWhile (· == '0')).length, ?_⟩
  have hreverse := congrArg List.reverse hsplit
  rw [List.reverse_append, List.reverse_reverse, hzeros, List.reverse_replicate] at hreverse
  exact hreverse.symm

theorem head?_toDigits {n : Nat} (hn : 0 < n) : (Nat.toDigits 10 n).head? ≠ some '0' := by
  intro hhead
  have hread := digitsValue_toDigits n
  have hlen := Nat.length_toDigits_le_iff (b := 10) (n := n) (k := (Nat.toDigits 10 n).length - 1)
    (by decide)
  cases hcs : Nat.toDigits 10 n with
  | nil => exact absurd hcs Nat.toDigits_ne_nil
  | cons c cs =>
    rw [hcs] at hhead hread hlen
    obtain rfl : c = '0' := Option.some.inj hhead
    have hd : ∀ d ∈ cs, isDigit d = true := by
      intro d hd
      exact isDigit_of_mem_toDigits (n := n) (hcs ▸ List.mem_cons_of_mem _ hd)
    have hvalue : digitsValue cs = n := hread
    have hlt := digitsValue_lt hd
    rw [hvalue] at hlt
    rw [List.length_cons, Nat.add_sub_cancel] at hlen
    rcases Nat.eq_zero_or_pos cs.length with hzero | hpos
    · rw [hzero] at hlt
      omega
    · have := (hlen hpos).mpr hlt
      omega

section Read

variable {n : Nat} {rest : List Char}

theorem chars_of_le (h : n ≤ Number.wholeLimit) :
    (Number.finite n).chars = Nat.toDigits 10 n := by
  have hpow : Nat.pow 2 53 = Number.wholeLimit := by decide
  have hsign : ¬ ((n : Int) < 0) := by omega
  rw [Number.chars, if_pos, Number.wholeText, Rat.num_natCast, if_neg hsign, Int.natAbs_natCast]
  rw [Rat.num_natCast, Int.natAbs_natCast, hpow]
  exact ⟨Rat.den_natCast n, h⟩

theorem chars_of_lt (h : Number.wholeLimit < n) :
    (Number.finite n).chars = (Number.shortest n).layout := by
  have hpow : Nat.pow 2 53 = Number.wholeLimit := by decide
  have hsign : ¬ ((n : Rat) < 0) := not_lt.mpr (Nat.cast_nonneg n)
  rw [Number.chars, if_neg, if_neg hsign]
  rw [Rat.num_natCast, Int.natAbs_natCast, hpow]
  omega

theorem readMagnitude_small (h : n ≤ Number.wholeLimit) (hrest : EndsNumber rest) :
    readMagnitude ((Number.finite n).chars ++ rest) = some (.finite n, rest) := by
  have hhead : (Nat.toDigits 10 n).head? ≠ some '0' ∨ (Nat.toDigits 10 n).length = 1 := by
    rcases Nat.eq_zero_or_pos n with rfl | hpos
    · exact Or.inr rfl
    · exact Or.inl (head?_toDigits hpos)
  have hwhole := readWhole_append Nat.toDigits_ne_nil
    (fun c hc => isDigit_of_mem_toDigits (n := n) hc) hhead hrest.endsDigits
  rw [chars_of_le h, readMagnitude_eq hwhole (readFraction_end hrest) (readExponent_end hrest),
    List.append_nil, digitsValue_toDigits]
  rcases Nat.eq_zero_or_pos n with rfl | hpos
  · rfl
  · have hlt : n < 10 ^ 16 := by
      unfold Number.wholeLimit at h
      omega
    have hlog := Number.log2_le_of_lt hlt
    rw [Number.ofDecimal_eq (by omega) (by simp; omega) (by simp; omega)]
    have hkept := Number.kept_of_le h
    rw [List.length_nil, Nat.cast_zero, sub_zero, zpow_zero, mul_one, hkept]

/-- A large whole number is written as a decimal that is rounded to it. -/
theorem exists_layout (hkept : Number.Kept n) (h : Number.wholeLimit < n) :
    ∃ (ds : List Char) (point : Nat),
      (Number.finite n).chars = Number.Digits.layout ⟨ds, point⟩ ∧ ds ≠ [] ∧
      (∀ c ∈ ds, isDigit c = true) ∧ ds.head? ≠ some '0' ∧ ds.length ≤ 18 ∧
      16 ≤ point ∧ point ≤ 310 ∧ digitsValue ds ≠ 0 ∧
      Number.ofRat (digitsValue ds * 10 ^ ((point : Int) - ds.length)) = .finite n := by
  obtain ⟨d, e, hd, hround, hlen, hmin, hmax, hshortest⟩ := hkept.shortest_spec h
  obtain ⟨k, hsplit⟩ := exists_zeros (Nat.toDigits 10 d)
  generalize hds : Number.dropTrailingZeros (Nat.toDigits 10 d) = ds at hsplit hshortest
  have hlength := congrArg List.length hsplit
  rw [List.length_append, List.length_replicate] at hlength
  obtain ⟨point, hpoint⟩ := Int.eq_ofNat_of_zero_le
    (show 0 ≤ e + (Nat.toDigits 10 d).length by omega)
  have hvalue : d = 10 ^ k * digitsValue ds := by
    have hread := digitsValue_toDigits d
    rw [hsplit, digitsValue_append, digitsValue_zeros, List.length_replicate] at hread
    omega
  have hpositive : digitsValue ds ≠ 0 := by
    intro hzero
    rw [hzero] at hvalue
    omega
  have hne : ds ≠ [] := by
    intro hnil
    rw [hnil] at hpositive
    exact hpositive rfl
  have hdigits : ∀ c ∈ ds, isDigit c = true := by
    intro c hc
    apply isDigit_of_mem_toDigits (n := d)
    rw [hsplit]
    exact List.mem_append_left _ hc
  have hhead : ds.head? ≠ some '0' := by
    have hfirst := head?_toDigits hd
    rw [hsplit] at hfirst
    cases ds with
    | nil => exact absurd rfl hne
    | cons c cs => exact hfirst
  have hsame : (digitsValue ds : Rat) * 10 ^ ((point : Int) - ds.length) = d * 10 ^ e := by
    have hexponent : (point : Int) - ds.length = e + k := by omega
    rw [hvalue, hexponent, zpow_add₀ (by norm_num), zpow_natCast]
    push_cast
    ring
  refine ⟨ds, point, ?_, hne, hdigits, hhead, by omega, by omega, by omega, hpositive, ?_⟩
  · rw [chars_of_lt h, hshortest, hpoint]
  · rw [hsame, hround]

theorem readMagnitude_large (hkept : Number.Kept n) (h : Number.wholeLimit < n)
    (hrest : EndsNumber rest) :
    readMagnitude ((Number.finite n).chars ++ rest) = some (.finite n, rest) := by
  obtain ⟨ds, point, hchars, hne, hdigits, hhead, hlen, hmin, hmax, hpositive, hround⟩ :=
    exists_layout hkept h
  obtain ⟨a, f, ha, hflow, hfhigh, hdecimal, hread⟩ := readMagnitude_layout hne hdigits hhead
    hlen (by omega : 1 ≤ point) hmax hrest
  have hane : a ≠ 0 := by
    intro hzero
    have hpow : (10 : Rat) ^ ((point : Int) - ds.length) ≠ 0 := by positivity
    have hdcast : (digitsValue ds : Rat) ≠ 0 := by exact_mod_cast hpositive
    rw [hzero, Nat.cast_zero, zero_mul] at hdecimal
    exact mul_ne_zero hdcast hpow hdecimal.symm
  have hlog := Number.log2_le_of_lt ha
  rw [hchars, hread, Number.ofDecimal_eq hane (by omega) (by omega), hdecimal, hround]

end Read

theorem readNumber_of_readMagnitude {cs : List Char} {r : Number × List Char}
    (h : readMagnitude cs = some r) : readNumber cs = some r := by
  cases cs with
  | nil => exact h
  | cons c cs =>
    by_cases hc : c = '-'
    · subst hc
      cases h
    · rw [readNumber, h]
      intro rest he
      exact hc (List.cons.inj he).1

theorem chars_neg {n : Nat} (hn : 0 < n) :
    (Number.finite (-(n : Rat))).chars = '-' :: (Number.finite n).chars := by
  have hnum : (-(n : Rat)).num = -(n : Int) := by rw [Rat.neg_num, Rat.num_natCast]
  have hsign : -(n : Rat) < 0 := by
    have hpos : (0 : Rat) < n := by exact_mod_cast hn
    linarith
  have hnonneg : ¬ ((n : Rat) < 0) := not_lt.mpr (Nat.cast_nonneg n)
  simp only [Number.chars, Rat.den_neg_eq_den, hnum, Int.natAbs_neg, Rat.num_natCast, neg_neg,
    hsign, if_true, hnonneg, if_false]
  split
  · have hneg : -(n : Int) < 0 := by omega
    have hpos : ¬ ((n : Int) < 0) := by omega
    rw [Number.wholeText, Number.wholeText, if_pos hneg, if_neg hpos, Int.natAbs_neg]
  · rfl

/-- A whole number of any sign and size is read back from its text. -/
theorem numberReadsBack_whole {z : Int} (h : Number.Kept z.natAbs) :
    NumberReadsBack (.finite z) := by
  have hread : ∀ n rest, Number.Kept n → EndsNumber rest →
      readMagnitude ((Number.finite n).chars ++ rest) = some (.finite n, rest) := by
    intro n rest hn hrest
    rcases Nat.lt_or_ge Number.wholeLimit n with hbig | hsmall
    · exact readMagnitude_large hn hbig hrest
    · exact readMagnitude_small hsmall hrest
  refine ⟨rfl, fun rest hrest => ?_⟩
  obtain ⟨n, rfl | rfl⟩ := Int.eq_nat_or_neg z
  · rw [Int.natAbs_natCast] at h
    rw [Int.cast_natCast]
    exact readNumber_of_readMagnitude (hread n rest h hrest)
  · rw [Int.natAbs_neg, Int.natAbs_natCast] at h
    rcases Nat.eq_zero_or_pos n with rfl | hpos
    · exact readNumber_of_readMagnitude (hread 0 rest h hrest)
    · rw [Int.cast_neg, Int.cast_natCast, chars_neg hpos, List.cons_append, readNumber,
        hread n rest h hrest]
      rfl

end ImageLedger.Json
