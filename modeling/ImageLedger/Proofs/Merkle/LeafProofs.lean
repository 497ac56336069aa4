import ImageLedger.Proofs.Merkle.Existence
import ImageLedger.Proofs.Merkle.Replay

namespace ImageLedger.Merkle

/-- The side of the sibling of a place with this last digit. -/
def Side.ofBit : Bool → Side
  | true => left
  | false => right

theorem side_stepAt (level : Array Digest) (i : Nat) :
    (stepAt level i).side = Side.ofBit (i.testBit 0) := by
  rw [stepAt, Nat.testBit_zero]
  rcases Nat.mod_two_eq_zero_or_one i with heven | hodd
  · simp [heven, Side.ofBit]
  · simp [hodd, Side.ofBit]

/-- A path has one step for every height, taken at the place above the leaf. -/
theorem getElem?_pathOf {height k : Nat} (level : List Digest) (i : Nat) (hk : k < height) :
    (pathOf height level i)[k]? = some (stepAt (levelAbove level k).toArray (i / 2 ^ k)) := by
  induction k generalizing height level i with
  | zero =>
    obtain ⟨height, rfl⟩ := Nat.exists_eq_add_one.mpr hk
    rw [pathOf_succ, Nat.pow_zero, Nat.div_one]
    rfl
  | succ k ih =>
    obtain ⟨height, rfl⟩ := Nat.exists_eq_add_one.mpr (Nat.zero_lt_of_lt hk)
    rw [pathOf_succ, List.getElem?_cons_succ, ih (parents level) (i / 2) (by omega),
      levelAbove_parents, Nat.div_div_eq_div_mul, ← Nat.pow_succ']

/-- Step by step the sides of a path are the binary digits of the place it starts from. -/
theorem side_pathOf {height k i : Nat} {level : List Digest} {step : Step}
    (h : (pathOf height level i)[k]? = some step) : step.side = Side.ofBit (i.testBit k) := by
  have hk : k < height := by
    obtain ⟨hlt, -⟩ := List.getElem?_eq_some_iff.mp h
    rwa [length_pathOf] at hlt
  rw [getElem?_pathOf level i hk, Option.some.injEq] at h
  rw [← h, side_stepAt, Nat.testBit_div_two_pow, Nat.zero_add]

theorem pow_bitLength_lt {n : Nat} (h : 1 ≤ n) : 2 ^ bitLength (n - 1) < 2 * n := by
  unfold bitLength
  split_ifs with hone
  · omega
  · have hle := Nat.log2_self_le hone
    rw [Nat.pow_succ]
    omega

/-- The case of letters has no part in a verification. -/
theorem verify_lower (leaf : String) (path : List Step) (root : String) :
    verify (HashText.lower leaf) (path.map Step.lower) (HashText.lower root) =
      verify leaf path root := by
  simp only [verify, HashText.wellFormed_lower, Digest.ofHex?_lower, replay_map_lower,
    HashText.lower_lower]

theorem verify_congr {leaf leaf' root root' : String} {path path' : List Step}
    (hleaf : HashText.lower leaf = HashText.lower leaf')
    (hpath : path.map Step.lower = path'.map Step.lower)
    (hroot : HashText.lower root = HashText.lower root') :
    verify leaf path root = verify leaf' path' root' := by
  rw [← verify_lower leaf, ← verify_lower leaf', hleaf, hpath, hroot]

/-- What a tree over some leaves must be. It is just deep enough for them, its root is written in
small letters, and the leaf at each place has a proof there. The sides of that proof are the binary
digits of the place, and it verifies however its letters, the leaf's and the root's are written. -/
structure Tree.Proves (tree : Tree) (leaves : List String) : Prop where
  wide : leaves.length ≤ 2 ^ tree.depth
  tight : 2 ^ tree.depth < 2 * leaves.length
  root : HashText.Lowercase tree.root
  count : tree.proofs.length = leaves.length
  proofs : ∀ (i : Nat) (leaf : String), leaves[i]? = some leaf → ∃ path,
    tree.proofs[i]? = some ⟨HashText.lower leaf, i, path⟩ ∧ path.length = tree.depth ∧
    (∀ k step, path[k]? = some step → step.side = Side.ofBit (i.testBit k)) ∧
    ∀ text steps root, HashText.lower text = HashText.lower leaf →
      steps.map Step.lower = path.map Step.lower →
      HashText.lower root = HashText.lower tree.root → verify text steps root = true

theorem exists_build_of_length {leaves : List String} (hne : leaves ≠ [])
    (hwell : ∀ leaf ∈ leaves, HashText.wellFormed leaf = true)
    (hlength : leaves.length ≤ leafLimit) : ∃ tree, build leaves = .ok tree :=
  exists_build_of_depth hne hwell (depthOf_ofNat (List.length_pos_iff.mpr hne) hlength)

theorem fits_of_build {leaves : List String} {tree : Tree} (h : build leaves = .ok tree)
    (hlength : leaves.length ≤ leafLimit) :
    leaves.length ≤ 2 ^ tree.depth ∧ 2 ^ tree.depth < 2 * leaves.length := by
  obtain ⟨hne, -, -⟩ := exists_digests_of_build h
  obtain ⟨-, -, hdepth, -⟩ := build_eq_ok h hlength
  have hpos : 1 ≤ leaves.length := List.length_pos_iff.mpr hne
  have hwide : leaves.length - 1 < 2 ^ bitLength (leaves.length - 1) := lt_pow_bitLength _
  have htight := pow_bitLength_lt hpos
  rw [hdepth]
  exact ⟨by omega, htight⟩

/-- Well-formed leaves, as many as can be counted, have a tree with all their proofs. -/
theorem build_proves {leaves : List String} (hne : leaves ≠ [])
    (hwell : ∀ leaf ∈ leaves, HashText.wellFormed leaf = true) (hlength : leaves.length < 2 ^ 32) :
    ∃ tree, build leaves = .ok tree ∧ tree.Proves leaves := by
  have hlimit : leaves.length ≤ leafLimit := hlength.le
  obtain ⟨tree, hbuild⟩ := exists_build_of_length hne hwell hlimit
  obtain ⟨digests, -, -, hroot, hproofs⟩ := build_eq_ok hbuild hlimit
  obtain ⟨hwide, htight⟩ := fits_of_build hbuild hlimit
  refine ⟨tree, hbuild, hwide, htight, ?_, length_proofs_of_build hbuild, ?_⟩
  · rw [hroot, ← HashText.normalize?_self_iff, HashText.normalize?_toHex]
  · intro i leaf hleaf
    obtain ⟨path, hproof, hdepth, hverify⟩ := verify_of_build hbuild hlimit hleaf
    refine ⟨path, hproof, hdepth, fun k step hstep => ?_, fun text steps root ht hs hr => ?_⟩
    · rw [hproofs, List.getElem?_mapIdx, hleaf, Option.map_some, Option.some.injEq] at hproof
      rw [← (LeafProof.mk.inj hproof).2.2] at hstep
      exact side_pathOf hstep
    · rw [← hverify]
      exact verify_congr (ht.trans (HashText.lower_lower leaf).symm) hs hr

/-- One leaf more than two places hold, and one in capital letters. -/
def threeLeaves : List String :=
  ['a', 'B', 'c'].map fun digit => String.ofList (List.replicate 64 digit)

theorem build_proves_threeLeaves :
    (threeLeaves ≠ [] ∧ (∀ leaf ∈ threeLeaves, HashText.wellFormed leaf = true) ∧
      threeLeaves.length < 2 ^ 32) ∧
    ∃ tree, build threeLeaves = .ok tree ∧ tree.Proves threeLeaves ∧ tree.depth = 2 := by
  have hparts : threeLeaves ≠ [] ∧ (∀ leaf ∈ threeLeaves, HashText.wellFormed leaf = true) ∧
      threeLeaves.length < 2 ^ 32 := by decide
  obtain ⟨tree, hbuild, hproves⟩ := build_proves hparts.1 hparts.2.1 hparts.2.2
  have hwide : 2 ^ 1 < 2 ^ tree.depth := Nat.lt_of_lt_of_le (by decide) hproves.wide
  have htight : 2 ^ tree.depth < 2 ^ 3 := hproves.tight.trans_le (by decide)
  have hmore := (Nat.pow_lt_pow_iff_right (by decide)).mp hwide
  have hless := (Nat.pow_lt_pow_iff_right (by decide)).mp htight
  exact ⟨hparts, tree, hbuild, hproves, by omega⟩

end ImageLedger.Merkle
