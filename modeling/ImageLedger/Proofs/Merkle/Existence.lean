import ImageLedger.Proofs.Merkle.Completeness
import ImageLedger.Proofs.Number.Rounding
import ImageLedger.Proofs.Store.Append
import Mathlib.Data.List.Perm.Subperm
import Mathlib.Data.Nat.Digits.Lemmas

namespace ImageLedger

namespace Hex

/-- An even number of digits can be read, into half as many bytes. -/
theorem exists_decode? (half : Nat) {cs : List Char} (hlen : cs.length = 2 * half)
    (hdigits : ∀ c ∈ cs, isDigit c = true) :
    ∃ bytes, decode? cs = some bytes ∧ bytes.length = half := by
  induction half generalizing cs with
  | zero =>
    obtain rfl := List.eq_nil_of_length_eq_zero hlen
    exact ⟨[], rfl, rfl⟩
  | succ half ih =>
    match cs, hlen with
    | a :: b :: rest, hlen =>
      obtain ⟨x, hx⟩ := Option.isSome_iff_exists.mp (hdigits a (by simp))
      obtain ⟨y, hy⟩ := Option.isSome_iff_exists.mp (hdigits b (by simp))
      have hrest : rest.length = 2 * half := by
        simp only [List.length_cons] at hlen
        omega
      obtain ⟨bytes, hbytes, hcount⟩ := ih hrest fun c hc =>
        hdigits c (List.mem_cons_of_mem _ (List.mem_cons_of_mem _ hc))
      refine ⟨UInt8.ofNat (x * 16 + y) :: bytes, ?_, by rw [List.length_cons, hcount]⟩
      simp only [decode?, hx, hy, hbytes]

end Hex

namespace HashText

theorem exists_ofHex? {s : String} (h : wellFormed s = true) : ∃ d, Digest.ofHex? s = some d := by
  simp only [wellFormed, Bool.and_eq_true, decide_eq_true_eq, List.all_eq_true] at h
  obtain ⟨bytes, hbytes, hlen⟩ := Hex.exists_decode? 32 h.1 h.2
  exact ⟨⟨bytes, hlen⟩, by simp only [Digest.ofHex?, hbytes, hlen, dif_pos]⟩

/-- The code points of a text as the digits of one number. -/
def code (s : String) : Nat := Nat.ofDigits (2 ^ 7) (s.toList.map Char.toNat)

theorem toNat_lt_of_wellFormed {s : String} (h : wellFormed s = true) :
    ∀ n ∈ s.toList.map Char.toNat, n < 2 ^ 7 := by
  simp only [wellFormed, Bool.and_eq_true, List.all_eq_true] at h
  intro n hn
  obtain ⟨c, hc, rfl⟩ := List.mem_map.mp hn
  obtain ⟨v, hv⟩ := Option.isSome_iff_exists.mp (h.2 c hc)
  exact Hex.toNat_lt_of_value? hv

theorem length_of_wellFormed {s : String} (h : wellFormed s = true) : s.toList.length = 64 := by
  simp only [wellFormed, Bool.and_eq_true, decide_eq_true_eq] at h
  exact h.1

theorem code_lt {s : String} (h : wellFormed s = true) : code s < 2 ^ (7 * 64) := by
  have hlt := Nat.ofDigits_lt_base_pow_length (by decide : 1 < 2 ^ 7) (toNat_lt_of_wellFormed h)
  rwa [List.length_map, length_of_wellFormed h, ← Nat.pow_mul] at hlt

theorem code_inj {s t : String} (hs : wellFormed s = true) (ht : wellFormed t = true)
    (h : code s = code t) : s = t := by
  have hlen : (s.toList.map Char.toNat).length = (t.toList.map Char.toNat).length := by
    rw [List.length_map, List.length_map, length_of_wellFormed hs, length_of_wellFormed ht]
  have hchars := Nat.ofDigits_inj_of_len_eq (by decide) hlen (toNat_lt_of_wellFormed hs)
    (toNat_lt_of_wellFormed ht) h
  have hinj : Function.Injective Char.toNat := fun a b hab => Char.toNat_inj.mp hab
  exact String.toList_inj.mp (hinj.list_map hchars)

/-- There are not more different digests than codes. -/
theorem length_le_of_nodup {hashes : List String} (hwell : ∀ h ∈ hashes, wellFormed h = true)
    (hnodup : hashes.Nodup) : hashes.length ≤ 2 ^ (7 * 64) := by
  have hcodes : (hashes.map code).Nodup :=
    hnodup.map_on fun s hs t ht => code_inj (hwell s hs) (hwell t ht)
  have hbelow : hashes.map code ⊆ List.range (2 ^ (7 * 64)) := by
    intro n hn
    obtain ⟨h, hh, rfl⟩ := List.mem_map.mp hn
    exact List.mem_range.mpr (code_lt (hwell h hh))
  have hle := (hcodes.subperm hbelow).length_le
  rwa [List.length_map, List.length_range] at hle

end HashText

namespace Merkle

theorem exists_readLeaves {leaves : List String}
    (h : ∀ leaf ∈ leaves, HashText.wellFormed leaf = true) (start : Nat) :
    ∃ digests, readLeaves start leaves = .ok digests := by
  induction leaves generalizing start with
  | nil => exact ⟨[], rfl⟩
  | cons leaf rest ih =>
    obtain ⟨d, hd⟩ := HashText.exists_ofHex? (h leaf List.mem_cons_self)
    obtain ⟨ds, hds⟩ := ih (fun l hl => h l (List.mem_cons_of_mem leaf hl)) (start + 1)
    exact ⟨d :: ds, by simp only [readLeaves, hd, hds]⟩

theorem exists_depthOf {n k : Nat} (hpos : 1 ≤ n) (hmax : n < 2 ^ k) (hk : k < 1024) :
    ∃ depth, depthOf (Number.ofNat n) = .ok depth := by
  obtain ⟨m, hm, heq⟩ := Number.exists_ofNat_eq hpos hmax hk
  have hguard : ((Number.ofNat n).isInteger && Number.le 1 (Number.ofNat n)) = true := by
    have hone : (1 : Number) = .finite 1 := by decide
    have hle : (1 : Rat) ≤ (m : Rat) := by exact_mod_cast hm
    rw [heq, hone, Number.isInteger, Number.toInt?, if_pos (Rat.den_natCast m), Number.le,
      decide_eq_true hle]
    rfl
  rw [depthOf, if_pos hguard]
  split_ifs with hone
  · exact ⟨0, rfl⟩
  · exact ⟨_, rfl⟩

/-- Leaves that can be counted have a tree. -/
theorem exists_build_of_depth {leaves : List String} (hne : leaves ≠ [])
    (hwell : ∀ leaf ∈ leaves, HashText.wellFormed leaf = true) {depth : Nat}
    (hdepth : depthOf (Number.ofNat leaves.length) = .ok depth) :
    ∃ tree, build leaves = .ok tree := by
  obtain ⟨digests, hread⟩ := exists_readLeaves hwell 0
  have hcount : digests.length = leaves.length := by
    have hlengths := congrArg List.length (readLeaves_eq_ok hread)
    rw [List.length_map, List.length_map] at hlengths
    exact hlengths.symm
  rw [build, if_neg (by simpa using hne), hread]
  simp only [bind, Except.bind, hcount, hdepth]
  exact ⟨_, rfl⟩

/-- Different digests have a tree. -/
theorem exists_build {leaves : List String} (hne : leaves ≠ [])
    (hwell : ∀ leaf ∈ leaves, HashText.wellFormed leaf = true) (hnodup : leaves.Nodup) :
    ∃ tree, build leaves = .ok tree := by
  have hmax : leaves.length < 2 ^ (7 * 64 + 1) :=
    (HashText.length_le_of_nodup hwell hnodup).trans_lt
      (Nat.pow_lt_pow_right (by decide) (Nat.lt_succ_self _))
  obtain ⟨depth, hdepth⟩ := exists_depthOf (List.length_pos_iff.mpr hne) hmax (by decide)
  exact exists_build_of_depth hne hwell hdepth

end Merkle

end ImageLedger
