import ImageLedger.Digest.HashText
import Mathlib.Data.List.Basic

namespace ImageLedger

namespace Text

theorem le_iff_toNat_le (a b : Char) : a ≤ b ↔ a.toNat ≤ b.toNat := by
  simp only [Char.le_def, UInt32.le_iff_toNat_le]
  rfl

/-- A fact about all characters of ASCII is a fact about the numbers below 128. -/
theorem of_ascii {p : Char → Prop} (h : ∀ n < 128, p (Char.ofNat n)) {c : Char}
    (hc : c.toNat < 128) : p c := by
  have hp := h c.toNat hc
  rwa [Char.ofNat_toNat] at hp

theorem lowerChar_of_not_ascii {c : Char} (hc : 128 ≤ c.toNat) : lowerChar c = c := by
  have hz : 'Z'.toNat = 90 := rfl
  unfold lowerChar
  rw [if_neg]
  intro hparts
  obtain ⟨-, h⟩ := hparts
  rw [le_iff_toNat_le] at h
  omega

@[simp] theorem lowerChar_lowerChar (c : Char) : lowerChar (lowerChar c) = lowerChar c := by
  rcases Nat.lt_or_ge c.toNat 128 with hc | hc
  · exact of_ascii (p := fun c => lowerChar (lowerChar c) = lowerChar c) (by decide) hc
  · rw [lowerChar_of_not_ascii hc, lowerChar_of_not_ascii hc]

end Text

namespace Hex

theorem toNat_lt_of_value? {c : Char} {v : Nat} (h : value? c = some v) : c.toNat < 128 := by
  have h9 : '9'.toNat = 57 := rfl
  have hf : 'f'.toNat = 102 := rfl
  have hF : 'F'.toNat = 70 := rfl
  simp only [value?, Text.le_iff_toNat_le] at h
  split_ifs at h <;> omega

/-- The small form of a digit is the one that its value is written as. -/
theorem lowerChar_of_value? {c : Char} {v : Nat} (h : value? c = some v) :
    v < 16 ∧ Text.lowerChar c = Nat.digitChar v := by
  refine Text.of_ascii
    (p := fun c => ∀ v, value? c = some v → v < 16 ∧ Text.lowerChar c = Nat.digitChar v)
    ?_ (toNat_lt_of_value? h) v h
  have all : ∀ n < 128, (value? (Char.ofNat n)).all fun v =>
      decide (v < 16 ∧ Text.lowerChar (Char.ofNat n) = Nat.digitChar v) := by decide
  intro n hn v hv
  have hn := all n hn
  rw [hv] at hn
  simpa using hn

theorem value?_digitChar {v : Nat} (h : v < 16) : value? (Nat.digitChar v) = some v := by
  have all : ∀ v < 16, value? (Nat.digitChar v) = some v := by decide
  exact all v h

@[simp] theorem value?_lowerChar (c : Char) : value? (Text.lowerChar c) = value? c := by
  rcases Nat.lt_or_ge c.toNat 128 with hc | hc
  · exact Text.of_ascii (p := fun c => value? (Text.lowerChar c) = value? c) (by decide) hc
  · rw [Text.lowerChar_of_not_ascii hc]

@[simp] theorem isDigit_lowerChar (c : Char) : isDigit (Text.lowerChar c) = isDigit c := by
  rw [isDigit, isDigit, value?_lowerChar]

theorem ofByte_ofNat {x y : Nat} (hx : x < 16) (hy : y < 16) :
    ofByte (UInt8.ofNat (x * 16 + y)) = [Nat.digitChar x, Nat.digitChar y] := by
  have hb : (UInt8.ofNat (x * 16 + y)).toNat = x * 16 + y := by
    rw [UInt8.toNat_ofNat']
    omega
  have hhigh : (x * 16 + y) / 16 = x := by omega
  have hlow : (x * 16 + y) % 16 = y := by omega
  rw [ofByte, hb, hhigh, hlow]

/-- Bytes written as digits are read back. -/
@[simp] theorem decode?_encode (bytes : List UInt8) : decode? (encode bytes) = some bytes := by
  induction bytes with
  | nil => rfl
  | cons b rest ih =>
    have hb : b.toNat < 256 := b.toNat_lt
    have hhigh := value?_digitChar (v := b.toNat / 16) (by omega)
    have hlow := value?_digitChar (v := b.toNat % 16) (by omega)
    have hsum : b.toNat / 16 * 16 + b.toNat % 16 = b.toNat := by omega
    change decode? (Nat.digitChar (b.toNat / 16) :: Nat.digitChar (b.toNat % 16) :: encode rest) = _
    simp only [decode?, hhigh, hlow, ih, hsum, UInt8.ofNat_toNat]

/-- Bytes that were read from digits are written as those digits in their small form. -/
theorem encode_of_decode? {cs : List Char} {bytes : List UInt8} (h : decode? cs = some bytes) :
    encode bytes = cs.map Text.lowerChar := by
  fun_induction decode? cs generalizing bytes with
  | case1 => simp_all [encode]
  | case2 => simp at h
  | case3 a b rest x y bytes' hrest hy hx ih =>
    obtain ⟨hxlt, hxc⟩ := lowerChar_of_value? hx
    obtain ⟨hylt, hyc⟩ := lowerChar_of_value? hy
    obtain rfl : UInt8.ofNat (x * 16 + y) :: bytes' = bytes := Option.some.inj h
    have htail := ih hrest
    simp only [encode] at htail
    simp only [encode, List.flatMap_cons, ofByte_ofNat hxlt hylt, List.map_cons, hxc, hyc, htail]
    rfl
  | case4 => simp at h

@[simp] theorem decode?_map_lowerChar (cs : List Char) :
    decode? (cs.map Text.lowerChar) = decode? cs := by
  fun_induction decode? cs <;> simp_all [decode?, value?_lowerChar]

@[simp] theorem length_encode (bytes : List UInt8) : (encode bytes).length = 2 * bytes.length := by
  induction bytes with
  | nil => rfl
  | cons b rest ih =>
    have hcons : encode (b :: rest) = ofByte b ++ encode rest := rfl
    rw [hcons, List.length_append, ih, List.length_cons]
    simp only [ofByte, List.length_cons, List.length_nil]
    omega

theorem isDigit_of_mem_encode {bytes : List UInt8} {c : Char} (h : c ∈ encode bytes) :
    isDigit c = true := by
  obtain ⟨b, -, hc⟩ := List.mem_flatMap.mp h
  have hb : b.toNat < 256 := b.toNat_lt
  simp only [ofByte, List.mem_cons, List.not_mem_nil, or_false] at hc
  rcases hc with rfl | rfl
  · rw [isDigit, value?_digitChar (by omega)]
    rfl
  · rw [isDigit, value?_digitChar (by omega)]
    rfl

end Hex

namespace Digest

@[simp] theorem ofHex?_toHex (d : Digest) : ofHex? d.toHex = some d := by
  rw [ofHex?, toHex, String.toList_ofList, Hex.decode?_encode]
  simp only [d.length_eq, dif_pos]

theorem toHex_of_ofHex? {s : String} {d : Digest} (h : ofHex? s = some d) :
    d.toHex = HashText.lower s := by
  unfold ofHex? at h
  split at h
  · next bytes hb =>
    split at h
    · obtain rfl := Option.some.inj h
      rw [toHex, HashText.lower, Hex.encode_of_decode? hb]
    · cases h
  · cases h

@[simp] theorem ofHex?_lower (s : String) : ofHex? (HashText.lower s) = ofHex? s := by
  rw [ofHex?, ofHex?, HashText.lower, String.toList_ofList, Hex.decode?_map_lowerChar]

end Digest

namespace HashText

/-- Sixty-four digits in their small form. -/
def Lowercase (s : String) : Prop :=
  s.toList.length = 64 ∧ ∀ c ∈ s.toList, ('0' ≤ c ∧ c ≤ '9') ∨ ('a' ≤ c ∧ c ≤ 'f')

@[simp] theorem lower_lower (s : String) : lower (lower s) = lower s := by
  simp only [lower, String.toList_ofList, List.map_map]
  congr 1
  exact List.map_congr_left fun c _ => Text.lowerChar_lowerChar c

@[simp] theorem wellFormed_lower (s : String) : wellFormed (lower s) = wellFormed s := by
  simp only [wellFormed, lower, String.toList_ofList, List.length_map, List.all_map]
  congr 2
  funext c
  exact Hex.isDigit_lowerChar c

theorem normalize?_eq_some {s t : String} :
    normalize? s = some t ↔ wellFormed s = true ∧ lower s = t := by
  unfold normalize?
  split_ifs with h <;> simp [h]

@[simp] theorem normalize?_lower (s : String) : normalize? (lower s) = normalize? s := by
  rw [normalize?, normalize?, wellFormed_lower, lower_lower]

/-- A normalized text is its own normal form. -/
theorem normalize?_of_normalize? {s t : String} (h : normalize? s = some t) :
    normalize? t = some t := by
  have ht := (normalize?_eq_some.mp h).2
  rw [← ht, normalize?_lower, h, ht]

@[simp] theorem wellFormed_toHex (d : Digest) : wellFormed d.toHex = true := by
  simp only [wellFormed, Digest.toHex, String.toList_ofList, Bool.and_eq_true, decide_eq_true_eq,
    List.all_eq_true]
  exact ⟨by rw [Hex.length_encode, d.length_eq], fun c hc => Hex.isDigit_of_mem_encode hc⟩

@[simp] theorem normalize?_toHex (d : Digest) : normalize? d.toHex = some d.toHex :=
  normalize?_eq_some.mpr
    ⟨wellFormed_toHex d, (Digest.toHex_of_ofHex? (Digest.ofHex?_toHex d)).symm⟩

/-- The normal forms are the texts of sixty-four small digits. -/
theorem normalize?_self_iff (s : String) : normalize? s = some s ↔ Lowercase s := by
  have small : ∀ c : Char, (Hex.isDigit c = true ∧ Text.lowerChar c = c) ↔
      (('0' ≤ c ∧ c ≤ '9') ∨ ('a' ≤ c ∧ c ≤ 'f')) := by
    intro c
    rcases Nat.lt_or_ge c.toNat 128 with hc | hc
    · exact Text.of_ascii (p := fun c => (Hex.isDigit c = true ∧ Text.lowerChar c = c) ↔
        (('0' ≤ c ∧ c ≤ '9') ∨ ('a' ≤ c ∧ c ≤ 'f'))) (by decide) hc
    · have h9 : '9'.toNat = 57 := rfl
      have hf : 'f'.toNat = 102 := rfl
      constructor
      · intro hparts
        obtain ⟨hd, -⟩ := hparts
        obtain ⟨v, hv⟩ := Option.isSome_iff_exists.mp hd
        have := Hex.toNat_lt_of_value? hv
        omega
      · simp only [Text.le_iff_toNat_le]
        omega
  have fixed : lower s = s ↔ ∀ c ∈ s.toList, Text.lowerChar c = c := by
    rw [lower, ← String.toList_inj, String.toList_ofList]
    conv_lhs => rw [← List.map_id s.toList, List.map_map]
    exact List.map_inj_left
  rw [normalize?_eq_some, fixed, wellFormed, Lowercase]
  simp only [Bool.and_eq_true, decide_eq_true_eq, List.all_eq_true, ← small]
  grind

end HashText

end ImageLedger
