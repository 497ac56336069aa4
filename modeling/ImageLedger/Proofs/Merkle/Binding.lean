import ImageLedger.Proofs.Merkle.LeafProofs
import ImageLedger.Proofs.Merkle.Outsiders

namespace ImageLedger.Merkle

variable {level other : List Digest} {depth : Nat} {leaves : List String} {tree : Tree}

/-- The place beside another, below the same parent. -/
def beside (i : Nat) : Nat := if i % 2 = 0 then i + 1 else i - 1

/-- The steps open a tree at a place: their sides spell it, the text is the leaf there, or the zero
hash after the last leaf, and their siblings are the digests beside the way up. -/
structure OpensAt (leaves : List String) (depth : Nat) (text : String) (steps : List Step)
    (i : Nat) : Prop where
  place : i < 2 ^ depth
  sides : ∀ (k : Nat) (step : Step), steps[k]? = some step →
    step.side = Side.ofBit (i.testBit k)
  text_eq : HashText.lower text = HashText.lower ((leaves[i]?).getD HashText.zero)
  siblings : ∀ (k : Nat) (step : Step), steps[k]? = some step →
    ∃ d, (levelAbove (bottom leaves depth) k)[beside (i / 2 ^ k)]? = some d ∧
      HashText.lower step.sibling = d.toHex

theorem sibling_stepAt {i : Nat} {d : Digest} (h : level[beside i]? = some d) :
    (stepAt level.toArray i).sibling = d.toHex := by
  unfold beside at h
  rw [stepAt]
  split_ifs at h ⊢ with heven
  · rw [toArray_getD h]
  · rw [toArray_getD h]

/-- Below the root every place has one beside it. -/
theorem beside_lt {i k : Nat} (hi : i < 2 ^ depth) (hk : k < depth) :
    beside (i / 2 ^ k) < 2 ^ (depth - k) := by
  obtain ⟨rest, rfl⟩ : ∃ rest, depth = k + (rest + 1) := ⟨depth - k - 1, by omega⟩
  have hplace : i / 2 ^ k < 2 * 2 ^ rest := by
    rw [Nat.pow_add, Nat.pow_succ'] at hi
    exact Nat.div_lt_of_lt_mul hi
  rw [Nat.add_sub_cancel_left, Nat.pow_succ']
  generalize i / 2 ^ k = j at hplace ⊢
  unfold beside
  split_ifs
  · omega
  · omega

/-- The digest at a place of the bottom is that of the leaf there, or the zero digest. -/
theorem toHex_bottom (h : build leaves = .ok tree) {i : Nat} {d : Digest}
    (hd : (bottom leaves depth)[i]? = some d) :
    d.toHex = HashText.lower ((leaves[i]?).getD HashText.zero) := by
  have hdigests := map_ofHex?_of_build h
  have hcount := (root_of_build h).1
  rw [bottom, pad] at hd
  rcases Nat.lt_or_ge i leaves.length with hlt | hge
  · rw [List.getElem?_append_left (hcount ▸ hlt)] at hd
    have hat := congrArg (·[i]?) hdigests
    simp only [List.getElem?_map, hd, List.getElem?_eq_getElem hlt, Option.map_some,
      Option.some.injEq] at hat
    rw [List.getElem?_eq_getElem hlt, Option.getD_some]
    exact Digest.toHex_of_ofHex? hat
  · rw [List.getElem?_append_right (hcount ▸ hge)] at hd
    have hzero : HashText.lower HashText.zero = Digest.zero.toHex := by decide +kernel
    rw [List.eq_of_mem_replicate (List.mem_of_getElem? hd), List.getElem?_eq_none hge,
      Option.getD_none, hzero]

theorem length_of_steps {path : List Json} {steps : List Step}
    (h : path.mapM Step.ofJson? = some steps) : steps.length = path.length := by
  induction path generalizing steps with
  | nil =>
    obtain rfl := Option.some.inj h
    rfl
  | cons v rest ih =>
    simp only [List.mapM_cons, Option.bind_eq_bind, Option.bind_eq_some_iff] at h
    obtain ⟨step, -, others, hothers, hsteps⟩ := h
    obtain rfl := Option.some.inj hsteps
    rw [List.length_cons, List.length_cons, ih hothers]

/-- A digest of the bottom with the steps of its place opens the tree there. -/
theorem StandsAt.opensAt (hbuild : build leaves = .ok tree) {i : Nat} {d : Digest} {text : String}
    {steps : List Step} (htext : Digest.ofHex? text = some d)
    (h : StandsAt depth (bottom leaves depth) 0 i d steps) : OpensAt leaves depth text steps i := by
  obtain ⟨-, hi, hnode, hsteps⟩ := h
  rw [Nat.sub_zero] at hi hsteps
  have hpath : ∀ (k : Nat) (step : Step), steps[k]? = some step →
      (pathOf depth (bottom leaves depth) i)[k]? = some step.lower := by
    intro k step hstep
    have hmap : (steps.map Step.lower)[k]? = some step.lower := by
      rw [List.getElem?_map, hstep, Option.map_some]
    rwa [hsteps] at hmap
  refine ⟨hi, fun k step hstep => ?_, ?_, fun k step hstep => ?_⟩
  · have hside : step.lower.side = Side.ofBit (i.testBit k) := side_pathOf (hpath k step hstep)
    exact hside
  · rw [← Digest.toHex_of_ofHex? htext]
    exact toHex_bottom hbuild hnode
  · have hk : k < depth := by
      obtain ⟨hlt, -⟩ := List.getElem?_eq_some_iff.mp (hpath k step hstep)
      rwa [length_pathOf] at hlt
    have hbeside := (beside_lt hi hk).trans_le
      (pow_le_length_levelAbove (pow_le_length_bottom leaves depth) hk.le)
    have hdigest := List.getElem?_eq_getElem hbeside
    have hlower := (hpath k step hstep).symm.trans (getElem?_pathOf _ i hk)
    refine ⟨_, hdigest, ?_⟩
    rw [← sibling_stepAt hdigest, ← Option.some.inj hlower]
    rfl

/-- Without a clash a path of full length that leads to the root opens the tree. -/
theorem exists_opensAt (hbuild : build leaves = .ok tree) {d : Digest} {text : String}
    {steps : List Step} (htext : Digest.ofHex? text = some d) (hlength : steps.length = depth)
    (hclash : ¬ Clash (builtPairs depth (bottom leaves depth) ++ replayedPairs d steps))
    (h : replay d steps = some (rootOf (levels depth (bottom leaves depth)))) :
    ∃ i, OpensAt leaves depth text steps i := by
  have hsteps : ∀ {height i : Nat} {x : Digest} {upper : List Step},
      StandsAt depth (bottom leaves depth) height i x upper → upper.length = depth - height := by
    intro height i x upper hstands
    have hmap := congrArg List.length hstands.2.2.2
    rwa [List.length_map, length_pathOf] at hmap
  rcases (replay_root_iff (pow_le_length_bottom leaves depth) hclash).mp h with
    ⟨height, i, hstands⟩ | ⟨front, upper, i, x, rfl, hfront, -, hstands⟩
  · obtain rfl : height = 0 := by
      have hheight := hstands.1
      have hupper := hsteps hstands
      omega
    exact ⟨i, hstands.opensAt hbuild htext⟩
  · have hupper := hsteps hstands
    have hpos := List.length_pos_iff.mpr hfront
    rw [List.length_append] at hlength
    omega

/-- Levels of one even size with the same parents are the same. -/
theorem eq_of_parents_eq {pairs : List (Digest × Digest)} (hclash : ¬ Clash pairs)
    (hlevel : ∀ pair ∈ neighbours level, pair ∈ pairs)
    (hother : ∀ pair ∈ neighbours other, pair ∈ pairs) (hlength : level.length = other.length)
    (heven : level.length % 2 = 0) (h : parents level = parents other) : level = other := by
  fun_induction parents level generalizing other with
  | case1 a b rest ih =>
    rcases other with _ | ⟨c, _ | ⟨d, rest'⟩⟩
    · cases hlength
    · cases hlength
    · simp only [neighbours, List.forall_mem_cons] at hlevel hother
      simp only [parents, List.cons.injEq] at h
      simp only [List.length_cons] at hlength heven
      have hpair : (a, b) = (c, d) := by
        by_contra hne
        exact hclash ⟨_, hlevel.1, _, hother.1, hne, h.1⟩
      obtain ⟨rfl, rfl⟩ := Prod.mk.inj hpair
      rw [ih hlevel.2 hother.2 (by omega) (by omega) h.2]
  | case2 level hshort =>
    -- a level of even size without two digests at its front is empty
    rcases level with _ | ⟨a, _ | ⟨b, rest⟩⟩
    · exact (List.length_eq_zero_iff.mp hlength.symm).symm
    · cases heven
    · exact absurd rfl (hshort a b rest)

/-- Levels as wide as the tree under one root are the same. -/
theorem eq_of_rootOf_eq {pairs : List (Digest × Digest)} (hclash : ¬ Clash pairs)
    (hlevel : ∀ pair ∈ builtPairs depth level, pair ∈ pairs)
    (hother : ∀ pair ∈ builtPairs depth other, pair ∈ pairs) (hwidth : level.length = 2 ^ depth)
    (hwidth' : other.length = 2 ^ depth)
    (h : rootOf (levels depth level) = rootOf (levels depth other)) : level = other := by
  induction depth generalizing level other with
  | zero =>
    obtain ⟨a, rfl⟩ := List.length_eq_one_iff.mp hwidth
    obtain ⟨b, rfl⟩ := List.length_eq_one_iff.mp hwidth'
    exact congrArg (fun d => [d]) h
  | succ depth ih =>
    rw [rootOf_levels_succ, rootOf_levels_succ] at h
    simp only [builtPairs, List.forall_mem_append] at hlevel hother
    rw [Nat.pow_succ'] at hwidth hwidth'
    have hparents := ih hlevel.2 hother.2 (by rw [length_parents]; omega)
      (by rw [length_parents]; omega) h
    exact eq_of_parents_eq hclash hlevel.1 hother.1 (hwidth.trans hwidth'.symm) (by omega) hparents

theorem length_bottom (hfits : (leaves.filterMap Digest.ofHex?).length ≤ 2 ^ depth) :
    (bottom leaves depth).length = 2 ^ depth := by
  rw [bottom, pad, List.length_append, List.length_replicate]
  omega

theorem map_lower_of_build (h : build leaves = .ok tree) :
    leaves.map HashText.lower = (leaves.filterMap Digest.ofHex?).map Digest.toHex := by
  have hdigests := map_ofHex?_of_build h
  refine List.ext_getElem? fun i => ?_
  have hat := congrArg (·[i]?) hdigests
  simp only [List.getElem?_map] at hat ⊢
  cases hleaf : leaves[i]? with
  | none =>
    rw [hleaf] at hat
    rw [Option.map_eq_none_iff.mp hat.symm]
    rfl
  | some leaf =>
    rw [hleaf] at hat
    obtain ⟨d, hd, heq⟩ := Option.map_eq_some_iff.mp hat.symm
    rw [hd, Option.map_some, Option.map_some, Digest.toHex_of_ofHex? heq.symm]

/-- Without a clash equally many leaves under one root differ in the case of letters only. -/
theorem map_lower_eq_of_root_eq {others : List String} {built : Tree}
    (hbuild : build leaves = .ok tree) (hothers : build others = .ok built)
    (hlimit : leaves.length ≤ leafLimit) (hlength : others.length = leaves.length)
    (hroot : built.root = tree.root)
    (hclash : ¬ Clash (builtPairs tree.depth (bottom leaves tree.depth) ++
      builtPairs tree.depth (bottom others tree.depth))) :
    others.map HashText.lower = leaves.map HashText.lower := by
  obtain ⟨hcount, hleaves⟩ := root_of_build hbuild
  obtain ⟨hcount', hothers'⟩ := root_of_build hothers
  have hdepth : built.depth = tree.depth := by
    obtain ⟨-, htree, -⟩ := exists_digests_of_build hbuild
    obtain ⟨-, hbuilt, -⟩ := exists_digests_of_build hothers
    rw [hlength, htree, Except.ok.injEq] at hbuilt
    exact hbuilt.symm
  have hfits := (fits_of_build hbuild hlimit).1
  rw [hothers', hleaves, hdepth] at hroot
  have hsame : rootOf (levels tree.depth (bottom leaves tree.depth)) =
      rootOf (levels tree.depth (bottom others tree.depth)) := by
    have hhex := congrArg Digest.ofHex? hroot
    rw [Digest.ofHex?_toHex, Digest.ofHex?_toHex, Option.some.injEq] at hhex
    exact hhex.symm
  have hbottom := eq_of_rootOf_eq hclash (fun _ hpair => List.mem_append_left _ hpair)
    (fun _ hpair => List.mem_append_right _ hpair) (length_bottom (by omega))
    (length_bottom (by omega)) hsame
  rw [bottom, bottom, pad, pad] at hbottom
  rw [map_lower_of_build hbuild, map_lower_of_build hothers,
    (List.append_inj hbottom (by omega)).1]

/-- A tree's root binds its leaves, unless the hashing involved gives two different pairs one
digest: any text and any path of as many steps as the tree is deep verify only as an opening of the
tree, and equally many leaves with that root are these leaves. -/
theorem root_binds (hne : leaves ≠ []) (hwell : ∀ leaf ∈ leaves, HashText.wellFormed leaf = true)
    (hlength : leaves.length < 2 ^ 32) : ∃ tree, build leaves = .ok tree ∧
      (∀ (text : String) (path : List Json), path.length = tree.depth →
        verifyReceived (.text text) path (.text tree.root) = some true →
        ∃ d steps, Digest.ofHex? text = some d ∧ path.mapM Step.ofJson? = some steps ∧
          (Clash (builtPairs tree.depth (bottom leaves tree.depth) ++ replayedPairs d steps) ∨
            ∃ i, OpensAt leaves tree.depth text steps i)) ∧
      ∀ (others : List String) (built : Tree), others.length = leaves.length →
        build others = .ok built → built.root = tree.root →
        Clash (builtPairs tree.depth (bottom leaves tree.depth) ++
            builtPairs tree.depth (bottom others tree.depth)) ∨
          others.map HashText.lower = leaves.map HashText.lower := by
  obtain ⟨tree, hbuild⟩ := exists_build_of_length hne hwell hlength.le
  refine ⟨tree, hbuild, ?_, ?_⟩
  · intro text path hpath hverify
    rw [(root_of_build hbuild).2, verifyReceived_iff] at hverify
    obtain ⟨d, steps, hd, hsteps, hreplay⟩ := hverify
    refine ⟨d, steps, hd, hsteps, or_iff_not_imp_left.mpr fun hclash => ?_⟩
    exact exists_opensAt hbuild hd ((length_of_steps hsteps).trans hpath) hclash hreplay
  · intro others built hcount hothers hroot
    exact or_iff_not_imp_left.mpr
      (map_lower_eq_of_root_eq hbuild hothers hlength.le hcount hroot)

/-- The path of the second of two leaves, in capital letters. -/
def secondPath : List Json :=
  [.object [("siblingHash", .text (String.ofList (List.replicate 64 'A'))),
    ("position", .text "left")]]

/-- Only one pair is hashed, in building the tree and in replaying the path. -/
theorem secondPath_no_clash {d : Digest} {steps : List Step}
    (hd : Digest.ofHex? (String.ofList (List.replicate 64 'B')) = some d)
    (hsteps : secondPath.mapM Step.ofJson? = some steps) :
    ¬ Clash (builtPairs 1 (bottom twoLeaves 1) ++ replayedPairs d steps) := by
  let a : Digest := ⟨List.replicate 32 0xaa, by simp⟩
  let b : Digest := ⟨List.replicate 32 0xbb, by simp⟩
  have hread : Digest.ofHex? (String.ofList (List.replicate 64 'B')) = some b := by decide +kernel
  have hpath : secondPath.mapM Step.ofJson? =
      some [⟨String.ofList (List.replicate 64 'A'), .left⟩] := by decide +kernel
  obtain rfl := Option.some.inj (hd.symm.trans hread)
  obtain rfl := Option.some.inj (hsteps.symm.trans hpath)
  have hbuilt : builtPairs 1 (bottom twoLeaves 1) = [(a, b)] := by decide +kernel
  have hreplayed : replayedPairs b [⟨String.ofList (List.replicate 64 'A'), .left⟩] = [(a, b)] := by
    decide +kernel
  have hall : ∀ pair ∈ [(a, b)] ++ [(a, b)], pair = (a, b) := by simp
  rw [hbuilt, hreplayed]
  exact not_clash_of_forall_eq hall

theorem root_binds_twoLeaves :
    (twoLeaves ≠ [] ∧ (∀ leaf ∈ twoLeaves, HashText.wellFormed leaf = true) ∧
      twoLeaves.length < 2 ^ 32) ∧ build twoLeaves = .ok twoLeavesTree ∧
    ∃ steps, secondPath.mapM Step.ofJson? = some steps ∧
      OpensAt twoLeaves 1 (String.ofList (List.replicate 64 'B')) steps 1 := by
  have hparts : twoLeaves ≠ [] ∧ (∀ leaf ∈ twoLeaves, HashText.wellFormed leaf = true) ∧
      twoLeaves.length < 2 ^ 32 := by decide
  obtain ⟨tree, hbuild, hopen, -⟩ := root_binds hparts.1 hparts.2.1 hparts.2.2
  obtain rfl := Except.ok.inj (build_twoLeaves.symm.trans hbuild)
  have hverify : verifyReceived (.text (String.ofList (List.replicate 64 'B'))) secondPath
      (.text twoLeavesTree.root) = some true := by decide +kernel
  obtain ⟨d, steps, hd, hsteps, hcase⟩ := hopen _ _ rfl hverify
  obtain ⟨i, hi⟩ := hcase.resolve_left (secondPath_no_clash hd hsteps)
  have hplace : i = 0 ∨ i = 1 := by
    have hlt : i < 2 := hi.place
    omega
  rcases hplace with rfl | rfl
  · have hpath : secondPath.mapM Step.ofJson? =
        some [⟨String.ofList (List.replicate 64 'A'), .left⟩] := by decide +kernel
    obtain rfl := Option.some.inj (hsteps.symm.trans hpath)
    cases hi.sides 0 _ rfl
  · exact ⟨hparts, hbuild, steps, hsteps, hi⟩

end ImageLedger.Merkle
