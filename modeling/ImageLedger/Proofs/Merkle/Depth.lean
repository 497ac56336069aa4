import ImageLedger.Proofs.Merkle.Binding
import Mathlib.Order.Bounds.Defs

namespace ImageLedger.Merkle

variable {n d : Nat}

theorem bitLength_le_iff : bitLength n ≤ d ↔ n < 2 ^ d := by
  unfold bitLength
  split_ifs with hzero
  · subst hzero
    exact iff_of_true (Nat.zero_le d) (Nat.two_pow_pos d)
  · rw [Nat.add_one_le_iff, Nat.log2_lt hzero]

/-- The least depth whose width holds so many leaves. -/
def Fits (leaves depth : Nat) : Prop := IsLeast {d | leaves ≤ 2 ^ d} depth

theorem fits_bitLength (hpos : 1 ≤ n) : Fits n (bitLength (n - 1)) := by
  have hholds : ∀ d, n ≤ 2 ^ d ↔ bitLength (n - 1) ≤ d := by
    intro d
    rw [bitLength_le_iff]
    omega
  exact ⟨(hholds _).mpr le_rfl, fun d hd => (hholds d).mp hd⟩

/-- Filling up to the width of a depth that fits less than doubles the leaves. -/
theorem Fits.pow_lt (h : Fits n d) (hpos : 1 ≤ n) : 2 ^ d < 2 * n := by
  obtain rfl := h.unique (fits_bitLength hpos)
  exact pow_bitLength_lt hpos

/-- What thirty-two bits leave of a number has at most thirty-two digits. -/
theorem pow_bitLength_mod_le (n : Nat) : 2 ^ bitLength (n % leafLimit) ≤ leafLimit := by
  have hmod : n % leafLimit < 2 ^ 32 := Nat.mod_lt n (by decide)
  exact Nat.pow_le_pow_right (by decide) (bitLength_le_iff.mpr hmod)

/-- A tree is built to the depth for the number of its leaves, on a bottom as wide as that depth
makes it if the leaves find room there. -/
theorem built_to_depth {leaves : List String} {tree : Tree} (hcount : leaves.length = n)
    (hdepth : depthOf (Number.ofNat n) = .ok d) (h : build leaves = .ok tree) :
    tree.depth = d ∧ tree.root = (rootOf (levels d (bottom leaves d))).toHex ∧
      (n ≤ 2 ^ d → (bottom leaves d).length = 2 ^ d) := by
  obtain ⟨-, hbuilt, -⟩ := exists_digests_of_build h
  obtain ⟨hread, hroot⟩ := root_of_build h
  rw [hcount, hdepth] at hbuilt
  obtain rfl := Except.ok.inj hbuilt
  exact ⟨rfl, hroot, fun hroom => length_bottom (hread.trans_le (hcount.trans_le hroom))⟩

/-- Every positive whole number has a depth, and trees with so many leaves are built to it. It is
the least depth whose width holds them, and its width is less than twice their number, exactly if
there are no more than `2 ^ 32`. -/
theorem depth_fits_iff (hpos : 1 ≤ n) (hmax : n ≤ 2 ^ 53 - 1) :
    ∃ d, depthOf (Number.ofNat n) = .ok d ∧
      (Fits n d ↔ n ≤ 2 ^ 32) ∧ (n ≤ 2 ^ d ∧ 2 ^ d < 2 * n ↔ n ≤ 2 ^ 32) ∧
      ∀ leaves tree, leaves.length = n → build leaves = .ok tree →
        tree.depth = d ∧ tree.root = (rootOf (levels d (bottom leaves d))).toHex ∧
          (n ≤ 2 ^ 32 → (bottom leaves d).length = 2 ^ d) := by
  have hdepth := depthOf_whole hpos (hmax.trans (by decide))
  have hsmall : n ≤ 2 ^ 32 → Fits n (bitLength ((n - 1) % leafLimit)) := by
    intro h
    have hmod : (n - 1) % leafLimit = n - 1 := Nat.mod_eq_of_lt (by unfold leafLimit; omega)
    rw [hmod]
    exact fits_bitLength hpos
  have hbeyond : n ≤ 2 ^ bitLength ((n - 1) % leafLimit) → n ≤ 2 ^ 32 :=
    fun h => h.trans (pow_bitLength_mod_le (n - 1))
  refine ⟨_, hdepth, ⟨fun h => hbeyond h.1, hsmall⟩,
    ⟨fun h => hbeyond h.1, fun h => ⟨(hsmall h).1, (hsmall h).pow_lt hpos⟩⟩,
    fun leaves tree hcount hbuild => ?_⟩
  obtain ⟨hsame, hroot, hwidth⟩ := built_to_depth hcount hdepth hbuild
  exact ⟨hsame, hroot, fun h => hwidth (hsmall h).1⟩

/-- The greatest number of leaves whose depth fits. -/
theorem depth_fits_at_limit :
    (1 ≤ 4294967296 ∧ 4294967296 ≤ 2 ^ 53 - 1) ∧
      depthOf (Number.ofNat 4294967296) = .ok 32 ∧ Fits 4294967296 32 := by
  have hrange : 1 ≤ 4294967296 ∧ 4294967296 ≤ 2 ^ 53 - 1 := by decide
  obtain ⟨d, hdepth, hfits, -⟩ := depth_fits_iff hrange.1 hrange.2
  have hvalue : depthOf (Number.ofNat 4294967296) = .ok 32 := by decide +kernel
  obtain rfl := Except.ok.inj (hdepth.symm.trans hvalue)
  exact ⟨hrange, hvalue, hfits.mpr (by decide)⟩

/-- One leaf more is given no depth at all, where thirty-three would fit. -/
theorem depth_lost_beyond_limit :
    (1 ≤ 4294967297 ∧ 4294967297 ≤ 2 ^ 53 - 1) ∧
      depthOf (Number.ofNat 4294967297) = .ok 0 ∧ ¬ Fits 4294967297 0 ∧ Fits 4294967297 33 := by
  have hrange : 1 ≤ 4294967297 ∧ 4294967297 ≤ 2 ^ 53 - 1 := by decide
  have hfits : Fits 4294967297 33 := fits_bitLength hrange.1
  refine ⟨hrange, by decide +kernel, fun h => ?_, hfits⟩
  exact absurd (h.unique hfits) (by decide)

end ImageLedger.Merkle
