import ImageLedger.Json.Reader
import ImageLedger.Json.Writer
import ImageLedger.Proofs.Digest.HashText

namespace ImageLedger.Json

theorem not_surrogate (c : Char) : c.toNat < 0xD800 ∨ (0xDFFF < c.toNat ∧ c.toNat < 0x110000) :=
  c.valid

@[simp] theorem charOf_toNat (c : Char) : charOf c.toNat = c := by
  have hc := not_surrogate c
  have hhigh : isHighSurrogate c.toNat = false := by
    simp only [isHighSurrogate, Bool.and_eq_false_iff, decide_eq_false_iff_not]
    omega
  have hlow : isLowSurrogate c.toNat = false := by
    simp only [isLowSurrogate, Bool.and_eq_false_iff, decide_eq_false_iff_not]
    omega
  simp only [charOf, hhigh, hlow, Bool.or_self, Bool.false_eq_true, if_false, Char.ofNat_toNat]

/-- The numbers that a character may be read as: its code point or its code units. -/
def Spells (us : List Nat) (c : Char) : Prop := us = [c.toNat] ∨ us = Text.unitsOf c

@[simp] theorem combine_toNat (c : Char) (rest : List Nat) :
    combine (c.toNat :: rest) = c :: combine rest := by
  have hc := not_surrogate c
  have hhigh : isHighSurrogate c.toNat = false := by
    simp only [isHighSurrogate, Bool.and_eq_false_iff, decide_eq_false_iff_not]
    omega
  cases rest with
  | nil => simp only [combine, charOf_toNat]
  | cons n rest => simp only [combine, hhigh, Bool.false_and, Bool.false_eq_true, if_false,
      charOf_toNat]

/-- Two surrogates of a character make that character again. -/
theorem combine_unitsOf (c : Char) (rest : List Nat) :
    combine (Text.unitsOf c ++ rest) = c :: combine rest := by
  have hc := not_surrogate c
  unfold Text.unitsOf
  split_ifs with hbasic
  · exact combine_toNat c rest
  · have hhigh : isHighSurrogate (0xD800 + (c.toNat - 0x10000) / 0x400) = true := by
      simp only [isHighSurrogate, Bool.and_eq_true, decide_eq_true_eq]
      omega
    have hlow : isLowSurrogate (0xDC00 + (c.toNat - 0x10000) % 0x400) = true := by
      simp only [isLowSurrogate, Bool.and_eq_true, decide_eq_true_eq]
      omega
    have hsum : 0x10000 + (0xD800 + (c.toNat - 0x10000) / 0x400 - 0xD800) * 0x400 +
        (0xDC00 + (c.toNat - 0x10000) % 0x400 - 0xDC00) = c.toNat := by
      omega
    simp only [List.cons_append, List.nil_append, combine, hhigh, hlow, Bool.and_self, if_true,
      hsum, Char.ofNat_toNat]

theorem Spells.combine {us : List Nat} {c : Char} (h : Spells us c) (rest : List Nat) :
    combine (us ++ rest) = c :: Json.combine rest := by
  rcases h with rfl | rfl
  · exact combine_toNat c rest
  · exact combine_unitsOf c rest

theorem unit?_escapeUnit {unit : Nat} (h : unit < 65536) :
    unit? (hexDigit (unit / 4096 % 16)) (hexDigit (unit / 256 % 16)) (hexDigit (unit / 16 % 16))
      (hexDigit (unit % 16)) = some unit := by
  have hdigit (n : Nat) : Hex.value? (hexDigit (n % 16)) = some (n % 16) :=
    Hex.value?_digitChar (Nat.mod_lt n (by omega))
  simp only [unit?, hdigit, Option.some.injEq]
  omega

theorem readUnits_escapeUnit {unit : Nat} (h : unit < 65536) (cs : List Char) (read : List Nat) :
    readUnits (escapeUnit unit ++ cs) read = readUnits cs (unit :: read) := by
  simp only [escapeUnit, List.cons_append, List.nil_append, readUnits, unit?_escapeUnit h]

theorem readUnits_escapeUnits {us : List Nat} (h : ∀ u ∈ us, u < 65536) (cs : List Char)
    (read : List Nat) :
    readUnits (us.flatMap escapeUnit ++ cs) read = readUnits cs (us.reverse ++ read) := by
  induction us generalizing read with
  | nil => rfl
  | cons u rest ih =>
    have hu : u < 65536 := h u List.mem_cons_self
    have hrest : ∀ v ∈ rest, v < 65536 := fun v hv => h v (List.mem_cons_of_mem u hv)
    rw [List.flatMap_cons, List.append_assoc, readUnits_escapeUnit hu, ih hrest]
    simp only [List.reverse_cons, List.append_assoc, List.singleton_append]

theorem unitsOf_lt {c : Char} {u : Nat} (h : u ∈ Text.unitsOf c) : u < 65536 := by
  have hc := not_surrogate c
  unfold Text.unitsOf at h
  split_ifs at h
  · obtain rfl := List.mem_singleton.mp h
    omega
  · simp only [List.mem_cons, List.not_mem_nil, or_false] at h
    omega

/-- A character inside quotes is read as numbers that spell it. -/
theorem readUnits_quoteChar (ascii : Bool) (c : Char) (cs : List Char) (read : List Nat) :
    ∃ us, Spells us c ∧ readUnits (quoteChar ascii c ++ cs) read =
      readUnits cs (us.reverse ++ read) := by
  unfold quoteChar
  split_ifs with hquote hback hn hr ht hb hf hcontrol hwide
  · exact ⟨[c.toNat], Or.inl rfl, by subst hquote; rfl⟩
  · exact ⟨[c.toNat], Or.inl rfl, by subst hback; rfl⟩
  · exact ⟨[c.toNat], Or.inl rfl, by subst hn; rfl⟩
  · exact ⟨[c.toNat], Or.inl rfl, by subst hr; rfl⟩
  · exact ⟨[c.toNat], Or.inl rfl, by subst ht; rfl⟩
  · exact ⟨[c.toNat], Or.inl rfl, by rw [hb]; rfl⟩
  · exact ⟨[c.toNat], Or.inl rfl, by rw [hf]; rfl⟩
  · exact ⟨[c.toNat], Or.inl rfl, readUnits_escapeUnit (by omega) cs read⟩
  · exact ⟨Text.unitsOf c, Or.inr rfl, readUnits_escapeUnits (fun u hu => unitsOf_lt hu) cs read⟩
  · refine ⟨[c.toNat], Or.inl rfl, ?_⟩
    rw [List.singleton_append, readUnits]
    · simp only [hcontrol, if_false]
      rfl
    · exact hquote
    · exact fun _ _ _ _ _ h _ => hback h
    · exact fun _ _ h _ => hback h

/-- A text is read back from between its quotes. -/
theorem readUnits_chars (ascii : Bool) (cs rest : List Char) (read : List Nat) :
    ∃ us, combine us = cs ∧ readUnits (cs.flatMap (quoteChar ascii) ++ '"' :: rest) read =
      some (read.reverse ++ us, rest) := by
  induction cs generalizing read with
  | nil => exact ⟨[], rfl, by simp [readUnits]⟩
  | cons c cs ih =>
    obtain ⟨us, hus, hc⟩ := readUnits_quoteChar ascii c
      (cs.flatMap (quoteChar ascii) ++ '"' :: rest) read
    obtain ⟨vs, hvs, hcs⟩ := ih (us.reverse ++ read)
    refine ⟨us ++ vs, by rw [hus.combine, hvs], ?_⟩
    rw [List.flatMap_cons, List.append_assoc, hc, hcs]
    simp only [List.reverse_append, List.reverse_reverse, List.append_assoc]

theorem readText_quote (ascii : Bool) (s : String) (rest : List Char) :
    readText (s.toList.flatMap (quoteChar ascii) ++ '"' :: rest) = some (s, rest) := by
  obtain ⟨us, hus, hread⟩ := readUnits_chars ascii s.toList rest []
  rw [readText, hread]
  simp only [List.reverse_nil, List.nil_append, Option.map_some, hus, String.ofList_toList]

end ImageLedger.Json
