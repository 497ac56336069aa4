import ImageLedger.Proofs.Merkle.Existence
import ImageLedger.Proofs.Merkle.Replay

namespace ImageLedger.Merkle

/-- The digests at the bottom of a tree: those of the leaves, then the padding. -/
def bottom (leaves : List String) (depth : Nat) : List Digest :=
  pad (2 ^ depth) (leaves.filterMap Digest.ofHex?)

theorem pow_le_length_bottom (leaves : List String) (depth : Nat) :
    2 ^ depth ≤ (bottom leaves depth).length := le_length_pad _ _

variable {leaves : List String} {tree : Tree}

/-- Every leaf of a built tree names a digest. -/
theorem map_ofHex?_of_build (h : build leaves = .ok tree) :
    leaves.map Digest.ofHex? = (leaves.filterMap Digest.ofHex?).map some := by
  obtain ⟨-, -, digests, hdigests, -, -⟩ := exists_digests_of_build h
  have hread := congrArg (List.filterMap id) hdigests
  rw [List.filterMap_map, Function.id_comp, List.filterMap_map, Function.id_comp,
    List.filterMap_some] at hread
  rw [hread, hdigests]

/-- A built tree has the root of the levels on its bottom. -/
theorem root_of_build (h : build leaves = .ok tree) :
    (leaves.filterMap Digest.ofHex?).length = leaves.length ∧
      tree.root = (rootOf (levels tree.depth (bottom leaves tree.depth))).toHex := by
  have hread := map_ofHex?_of_build h
  have hcount := congrArg List.length hread
  rw [List.length_map, List.length_map] at hcount
  obtain ⟨-, -, digests, hdigests, hroot, -⟩ := exists_digests_of_build h
  have hbottom : leaves.filterMap Digest.ofHex? = digests :=
    List.map_injective_iff.mpr (Option.some_injective _) (hread.symm.trans hdigests)
  refine ⟨hcount.symm, ?_⟩
  rw [bottom, hbottom]
  exact hroot

/-- A digest of the bottom is that of a leaf or stands in the padding. -/
theorem mem_or_padding {depth i : Nat} {d : Digest} (h : (bottom leaves depth)[i]? = some d) :
    (∃ leaf ∈ leaves, Digest.ofHex? leaf = some d) ∨
      d = Digest.zero ∧ (leaves.filterMap Digest.ofHex?).length ≤ i := by
  rw [bottom, pad] at h
  rcases Nat.lt_or_ge i (leaves.filterMap Digest.ofHex?).length with hlt | hge
  · rw [List.getElem?_append_left hlt] at h
    exact Or.inl (List.mem_filterMap.mp (List.mem_of_getElem? h))
  · rw [List.getElem?_append_right hge] at h
    exact Or.inr ⟨List.eq_of_mem_replicate (List.mem_of_getElem? h), hge⟩

theorem ne_null_of_ofJson? {v : Json} {step : Step} (h : Step.ofJson? v = some step) :
    (v != .null) = true := by
  cases v with
  | object fields => rfl
  | _ => cases h

/-- A path of steps is looked at to its end. -/
theorem takeWhile_of_steps {path : List Json} {steps : List Step}
    (h : path.mapM Step.ofJson? = some steps) : path.takeWhile (· != .null) = path := by
  induction path generalizing steps with
  | nil => rfl
  | cons v rest ih =>
    simp only [List.mapM_cons, Option.bind_eq_bind, Option.bind_eq_some_iff] at h
    obtain ⟨step, hstep, others, hothers, -⟩ := h
    rw [List.takeWhile_cons, if_pos (ne_null_of_ofJson? hstep), ih hothers]

/-- A path of any values verifies exactly when all of them are steps and these lead to the root. -/
theorem verifyReceived_iff {leaf : String} {path : List Json} {root : Digest} :
    verifyReceived (.text leaf) path (.text root.toHex) = some true ↔
      ∃ d steps, Digest.ofHex? leaf = some d ∧ path.mapM Step.ofJson? = some steps ∧
        replay d steps = some root := by
  have hroot : HashText.lower root.toHex = root.toHex :=
    (Digest.toHex_of_ofHex? (Digest.ofHex?_toHex root)).symm
  simp only [verifyReceived, HashText.wellFormed_toHex, if_true, hroot]
  constructor
  · intro h
    split at h
    · next d steps hd hsteps =>
      split at h
      · next top htop =>
        split_ifs at h with hshort
        have hwhole : path.takeWhile (· != .null) = path :=
          (List.takeWhile_prefix _).eq_of_length_le (Nat.le_of_not_lt hshort)
        rw [hwhole] at hsteps
        have hsame : top = root := by
          have hhex := Digest.ofHex?_toHex top
          simp only [Option.some.injEq, decide_eq_true_eq] at h
          rw [h, Digest.ofHex?_toHex, Option.some.injEq] at hhex
          exact hhex.symm
        exact ⟨d, steps, hd, hsteps, hsame ▸ htop⟩
      · cases h
    · cases h
  · rintro ⟨d, steps, hd, hsteps, hreplay⟩
    simp only [takeWhile_of_steps hsteps, hd, hsteps, hreplay, Nat.lt_irrefl, if_false,
      decide_true]

/-- The ways on which steps lead from a digest that is no leaf to the root of a tree. Nothing marks
the height of a digest or tells padding from leaves. -/
inductive OutsidePath (leaves : List String) (depth : Nat) (d : Digest) (steps : List Step) : Prop
  /-- The digest stands inside the tree, and the steps are the rest of the way up. -/
  | inner {height i : Nat} (hheight : 0 < height)
    (h : StandsAt depth (bottom leaves depth) height i d steps)
  /-- The digest is the zero digest, which stands at every place after the leaves. -/
  | padding {i : Nat} (hzero : d = Digest.zero) (hi : leaves.length ≤ i)
    (h : StandsAt depth (bottom leaves depth) 0 i d steps)
  /-- The first steps make a digest of the bottom, from which the others lead on. -/
  | below {front upper : List Step} {i : Nat} {x : Digest} (hsteps : steps = front ++ upper)
    (hfront : front ≠ []) (hx : replay d front = some x)
    (h : StandsAt depth (bottom leaves depth) 0 i x upper)

theorem OutsidePath.replay_eq {depth : Nat} {d : Digest} {steps : List Step}
    (h : OutsidePath leaves depth d steps) :
    replay d steps = some (rootOf (levels depth (bottom leaves depth))) := by
  have hwidth := pow_le_length_bottom leaves depth
  cases h with
  | inner _ h => exact h.replay_eq hwidth
  | padding _ _ h => exact h.replay_eq hwidth
  | below hsteps _ hx h =>
    rw [hsteps, replay_append, hx]
    exact h.replay_eq hwidth

/-- A digest that is no leaf leads to the root only on such a way, or by a clash. -/
theorem outsidePath_of_replay {d : Digest} {steps : List Step} {depth : Nat}
    (hcount : (leaves.filterMap Digest.ofHex?).length = leaves.length)
    (hout : ∀ leaf ∈ leaves, Digest.ofHex? leaf ≠ some d)
    (hclash : ¬ Clash (builtPairs depth (bottom leaves depth) ++ replayedPairs d steps))
    (h : replay d steps = some (rootOf (levels depth (bottom leaves depth)))) :
    OutsidePath leaves depth d steps := by
  rcases (replay_root_iff (pow_le_length_bottom leaves depth) hclash).mp h with
    ⟨height, i, hstands⟩ | ⟨front, upper, i, x, hsteps, hfront, hx, hstands⟩
  · rcases Nat.eq_zero_or_pos height with rfl | hheight
    · rcases mem_or_padding hstands.2.2.1 with ⟨leaf, hleaf, hd⟩ | ⟨hzero, hi⟩
      · exact absurd hd (hout leaf hleaf)
      · exact .padding hzero (hcount ▸ hi) hstands
    · exact .inner hheight hstands
  · exact .below hsteps hfront hx hstands

/-- A hash that is no leaf of a tree verifies against its root on the ways above, and only on
these unless building and replaying hash two different pairs to one digest. -/
theorem verifies_outsider {h : String} (path : List Json) (hbuild : build leaves = .ok tree)
    (hwell : HashText.wellFormed h = true)
    (hout : ∀ leaf ∈ leaves, HashText.lower leaf ≠ HashText.lower h) :
    ∃ d, Digest.ofHex? h = some d ∧
      (verifyReceived (.text h) path (.text tree.root) = some true →
        ∃ steps, path.mapM Step.ofJson? = some steps ∧
          (OutsidePath leaves tree.depth d steps ∨
            Clash (builtPairs tree.depth (bottom leaves tree.depth) ++ replayedPairs d steps))) ∧
      ∀ steps, path.mapM Step.ofJson? = some steps → OutsidePath leaves tree.depth d steps →
        verifyReceived (.text h) path (.text tree.root) = some true := by
  obtain ⟨d, hd⟩ := HashText.exists_ofHex? hwell
  obtain ⟨hcount, hroot⟩ := root_of_build hbuild
  have hdigest : ∀ leaf ∈ leaves, Digest.ofHex? leaf ≠ some d := by
    intro leaf hleaf hsame
    apply hout leaf hleaf
    rw [← Digest.toHex_of_ofHex? hsame, Digest.toHex_of_ofHex? hd]
  refine ⟨d, hd, ?_, ?_⟩
  · intro hverify
    rw [hroot, verifyReceived_iff] at hverify
    obtain ⟨d', steps, hd', hsteps, hreplay⟩ := hverify
    obtain rfl := Option.some.inj (hd.symm.trans hd')
    refine ⟨steps, hsteps, ?_⟩
    by_cases hclash : Clash (builtPairs tree.depth (bottom leaves tree.depth) ++
        replayedPairs d steps)
    · exact Or.inr hclash
    · exact Or.inl (outsidePath_of_replay hcount hdigest hclash hreplay)
  · intro steps hsteps hway
    rw [hroot, verifyReceived_iff]
    exact ⟨d, steps, hd, hsteps, hway.replay_eq⟩

def twoLeaves : List String :=
  [String.ofList (List.replicate 64 'a'), String.ofList (List.replicate 64 'b')]

def twoLeavesRoot : String := "e2d80f78d79027556d6619a1400605abbdca6bb6eb24e0831e33ecd5466fa5f6"

def twoLeavesTree : Tree where
  root := twoLeavesRoot
  depth := 1
  proofs := [⟨String.ofList (List.replicate 64 'a'), 0,
      [⟨String.ofList (List.replicate 64 'b'), .right⟩]⟩,
    ⟨String.ofList (List.replicate 64 'b'), 1, [⟨String.ofList (List.replicate 64 'a'), .left⟩]⟩]

theorem build_twoLeaves : build twoLeaves = .ok twoLeavesTree := by decide +kernel

theorem twoLeavesRoot_not_mem : HashText.wellFormed twoLeavesRoot = true ∧
    ∀ leaf ∈ twoLeaves, HashText.lower leaf ≠ HashText.lower twoLeavesRoot := by decide +kernel

theorem twoLeaves_no_clash (d : Digest) :
    ¬ Clash (builtPairs 1 (bottom twoLeaves 1) ++ replayedPairs d []) := by
  have hlength : (builtPairs 1 (bottom twoLeaves 1)).length = 1 := by decide +kernel
  obtain ⟨pair, hpair⟩ := List.length_eq_one_iff.mp hlength
  rw [hpair, replayedPairs, List.append_nil]
  exact not_clash_of_forall_eq fun p hp => List.mem_singleton.mp hp

/-- The root of two leaves is none of them and verifies with no steps at all. -/
theorem root_verifies_as_leaf :
    build twoLeaves = .ok twoLeavesTree ∧ HashText.wellFormed twoLeavesRoot = true ∧
      (∀ leaf ∈ twoLeaves, HashText.lower leaf ≠ HashText.lower twoLeavesRoot) ∧
      (∀ d, ¬ Clash (builtPairs 1 (bottom twoLeaves 1) ++ replayedPairs d [])) ∧
      verify twoLeavesRoot [] twoLeavesTree.root = true :=
  ⟨build_twoLeaves, twoLeavesRoot_not_mem.1, twoLeavesRoot_not_mem.2, twoLeaves_no_clash,
    by decide +kernel⟩

/-- It verifies because it stands inside the tree. -/
theorem root_is_on_outsidePath :
    ∃ d, Digest.ofHex? twoLeavesRoot = some d ∧
      verifyReceived (.text twoLeavesRoot) [] (.text twoLeavesTree.root) = some true ∧
      OutsidePath twoLeaves 1 d [] := by
  obtain ⟨hwell, hout⟩ := twoLeavesRoot_not_mem
  obtain ⟨d, hd, honly, -⟩ := verifies_outsider [] build_twoLeaves hwell hout
  have hverify : verifyReceived (.text twoLeavesRoot) [] (.text twoLeavesTree.root) = some true :=
    by decide +kernel
  obtain ⟨steps, hsteps, hway⟩ := honly hverify
  obtain rfl : [] = steps := Option.some.inj hsteps
  exact ⟨d, hd, hverify, hway.resolve_right (twoLeaves_no_clash d)⟩

end ImageLedger.Merkle
