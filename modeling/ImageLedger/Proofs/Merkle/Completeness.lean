import ImageLedger.Proofs.Merkle.Levels

namespace ImageLedger.Merkle

/-- Up to so many leaves are counted exactly. -/
def leafLimit : Nat := 4294967296

/-- The depth is told by what is left of the count less one in thirty-two bits. -/
theorem depthOf_whole {n : Nat} (hpos : 1 ≤ n) (hlimit : n ≤ Number.wholeLimit) :
    depthOf (Number.ofNat n) = .ok (bitLength ((n - 1) % leafLimit)) := by
  have hone : (1 : Nat) ≤ Number.wholeLimit := hpos.trans hlimit
  have hle : Number.le 1 (Number.ofNat n) = true := by
    change Number.le (Number.ofNat 1) (Number.ofNat n) = true
    rw [Number.le_ofNat hone hlimit, decide_eq_true hpos]
  have hguard : ((Number.ofNat n).isInteger && Number.le 1 (Number.ofNat n)) = true := by
    rw [Number.isInteger_ofNat hlimit, hle, Bool.and_self]
  have hsub : Number.sub (Number.ofNat n) 1 = Number.ofNat (n - 1) := Number.sub_ofNat hlimit hpos
  rw [depthOf, if_pos hguard]
  by_cases hn1 : n = 1
  · subst hn1
    rfl
  · have hne : Number.ofNat n ≠ 1 := fun h => hn1 ((Number.ofNat_inj hlimit hone).mp h)
    rw [if_neg hne, hsub, Number.low32_ofNat (by omega), leafLimit]

theorem depthOf_ofNat {n : Nat} (hpos : 1 ≤ n) (hn : n ≤ leafLimit) :
    depthOf (Number.ofNat n) = .ok (bitLength (n - 1)) := by
  have hlimit : leafLimit ≤ Number.wholeLimit := by decide
  rw [depthOf_whole hpos (hn.trans hlimit), Nat.mod_eq_of_lt (by omega)]

theorem lt_pow_bitLength (n : Nat) : n < Nat.pow 2 (bitLength n) := by
  unfold bitLength
  split_ifs with h
  · subst h
    decide
  · exact Nat.lt_log2_self

theorem readLeaves_eq_ok {leaves : List String} {start : Nat} {digests : List Digest}
    (h : readLeaves start leaves = .ok digests) :
    leaves.map Digest.ofHex? = digests.map some := by
  induction leaves generalizing start digests with
  | nil =>
    obtain rfl := Except.ok.inj h
    rfl
  | cons leaf rest ih =>
    simp only [readLeaves] at h
    cases hleaf : Digest.ofHex? leaf with
    | none => simp [hleaf] at h
    | some d =>
      cases hrest : readLeaves (start + 1) rest with
      | error e => simp [hleaf, hrest] at h
      | ok ds =>
        simp only [hleaf, hrest, Except.ok.injEq] at h
        subst h
        simp only [List.map_cons, hleaf, ih hrest]

/-- What a built tree is made of: the digests of its leaves, filled up to the width that belongs to
its depth, and a path for each leaf. -/
theorem exists_digests_of_build {leaves : List String} {tree : Tree}
    (h : build leaves = .ok tree) :
    leaves ≠ [] ∧ depthOf (Number.ofNat leaves.length) = .ok tree.depth ∧
      ∃ digests, leaves.map Digest.ofHex? = digests.map some ∧
        tree.root = (rootOf (levels tree.depth (pad (Nat.pow 2 tree.depth) digests))).toHex ∧
        tree.proofs = leaves.mapIdx fun i leaf => ⟨HashText.lower leaf, i,
          pathOf tree.depth (pad (Nat.pow 2 tree.depth) digests) i⟩ := by
  unfold build at h
  split_ifs at h with hempty
  cases hread : readLeaves 0 leaves with
  | error e => simp [hread, bind, Except.bind] at h
  | ok digests =>
    have hdigests := readLeaves_eq_ok hread
    have hcount : digests.length = leaves.length := by
      have hlengths := congrArg List.length hdigests
      rw [List.length_map, List.length_map] at hlengths
      exact hlengths.symm
    cases hdepth : depthOf (Number.ofNat leaves.length) with
    | error e => simp [hread, hcount, hdepth, bind, Except.bind] at h
    | ok depth =>
      simp only [hread, hcount, hdepth, bind, Except.bind, pure, Except.pure,
        Except.ok.injEq] at h
      subst h
      exact ⟨by simpa using hempty, rfl, digests, hdigests, rfl, rfl⟩

/-- A tree of leaves: its digests, filled up to a power of two, and a path for each leaf. -/
theorem build_eq_ok {leaves : List String} {tree : Tree} (h : build leaves = .ok tree)
    (hlen : leaves.length ≤ leafLimit) :
    ∃ digests, leaves.map Digest.ofHex? = digests.map some ∧
      tree.depth = bitLength (leaves.length - 1) ∧
      tree.root = (rootOf (levels tree.depth (pad (Nat.pow 2 tree.depth) digests))).toHex ∧
      tree.proofs = leaves.mapIdx fun i leaf => ⟨HashText.lower leaf, i,
        pathOf tree.depth (pad (Nat.pow 2 tree.depth) digests) i⟩ := by
  obtain ⟨hne, hdepth, digests, hdigests, hroot, hproofs⟩ := exists_digests_of_build h
  rw [depthOf_ofNat (List.length_pos_iff.mpr hne) hlen, Except.ok.injEq] at hdepth
  exact ⟨digests, hdigests, hdepth.symm, hroot, hproofs⟩

/-- There is one proof for each leaf, however many leaves there are. -/
theorem length_proofs_of_build {leaves : List String} {tree : Tree} (h : build leaves = .ok tree) :
    tree.proofs.length = leaves.length := by
  obtain ⟨-, -, digests, -, -, hproofs⟩ := exists_digests_of_build h
  rw [hproofs, List.length_mapIdx]

/-- Every leaf has the proof at its place, whose path is as long as the tree is deep and leads to
the root. -/
theorem verify_of_build {leaves : List String} {tree : Tree} (h : build leaves = .ok tree)
    (hlen : leaves.length ≤ leafLimit) {i : Nat} {leaf : String} (hleaf : leaves[i]? = some leaf) :
    ∃ path, tree.proofs[i]? = some ⟨HashText.lower leaf, i, path⟩ ∧ path.length = tree.depth ∧
      verify (HashText.lower leaf) path tree.root = true := by
  obtain ⟨digests, hdigests, hdepth, hroot, hproofs⟩ := build_eq_ok h hlen
  have hcount : digests.length = leaves.length := by
    have hlengths := congrArg List.length hdigests
    rw [List.length_map, List.length_map] at hlengths
    exact hlengths.symm
  obtain ⟨hi, -⟩ := List.getElem?_eq_some_iff.mp hleaf
  have hlt : i < digests.length := by omega
  obtain ⟨digest, hdigest⟩ : ∃ d, digests[i]? = some d := ⟨_, List.getElem?_eq_getElem hlt⟩
  have hfits : digests.length ≤ Nat.pow 2 tree.depth := by
    have hlt := lt_pow_bitLength (leaves.length - 1)
    rw [← hdepth] at hlt
    omega
  have hhex : Digest.ofHex? leaf = some digest := by
    have hat := congrArg (·[i]?) hdigests
    simpa [hleaf, hdigest] using hat
  refine ⟨pathOf tree.depth (pad (Nat.pow 2 tree.depth) digests) i, ?_, length_pathOf _ _ i, ?_⟩
  · rw [hproofs, List.getElem?_mapIdx, hleaf]
    rfl
  · have hwidth := le_length_pad (Nat.pow 2 tree.depth) digests
    have hreplay := replay_pathOf tree.depth hwidth (hlt.trans_le hfits) (getElem?_pad _ hdigest)
    rw [getElem?_root hwidth] at hreplay
    simp only [verify, hroot, HashText.wellFormed_toHex, if_true, Digest.ofHex?_lower, hhex,
      hreplay, decide_eq_true_eq]
    exact Digest.toHex_of_ofHex? (Digest.ofHex?_toHex _)

end ImageLedger.Merkle
