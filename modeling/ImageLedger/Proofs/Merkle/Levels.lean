import ImageLedger.Merkle.Verify
import ImageLedger.Proofs.Digest.HashText
import ImageLedger.Proofs.Number.Whole

namespace ImageLedger.Merkle

variable {level : List Digest} {depth : Nat}

@[simp] theorem length_parents (level : List Digest) :
    (parents level).length = level.length / 2 := by
  fun_induction parents level with
  | case1 a b rest ih =>
    simp only [List.length_cons, ih]
    omega
  | case2 level h =>
    rcases level with _ | ⟨a, _ | ⟨b, rest⟩⟩
    · rfl
    · simp
    · exact absurd rfl (h a b rest)

/-- A node of the level above is the hash of the two nodes below it. -/
theorem getElem?_parents {i : Nat} {a b : Digest} (ha : level[2 * i]? = some a)
    (hb : level[2 * i + 1]? = some b) : (parents level)[i]? = some (hashPair a b) := by
  fun_induction parents level generalizing i with
  | case1 x y rest ih =>
    cases i with
    | zero =>
      obtain rfl : x = a := by simpa using ha
      obtain rfl : y = b := by simpa using hb
      rfl
    | succ i =>
      have ha' : rest[2 * i]? = some a := by simpa [Nat.mul_add] using ha
      have hb' : rest[2 * i + 1]? = some b := by simpa [Nat.mul_add] using hb
      simpa using ih ha' hb'
  | case2 level h =>
    rcases level with _ | ⟨x, _ | ⟨y, rest⟩⟩
    · simp at ha
    · simp at hb
    · exact absurd rfl (h x y rest)

/-- Every digest above the bottom was made of the two below it. -/
theorem exists_children {i : Nat} {parent : Digest} (h : (parents level)[i]? = some parent) :
    ∃ a b, level[2 * i]? = some a ∧ level[2 * i + 1]? = some b ∧ parent = hashPair a b := by
  obtain ⟨hi, -⟩ := List.getElem?_eq_some_iff.mp h
  rw [length_parents] at hi
  have ha : level[2 * i]? = some level[2 * i] := List.getElem?_eq_getElem (by omega)
  have hb : level[2 * i + 1]? = some level[2 * i + 1] := List.getElem?_eq_getElem (by omega)
  refine ⟨_, _, ha, hb, ?_⟩
  rw [getElem?_parents ha hb, Option.some.injEq] at h
  exact h.symm

theorem length_levels (height : Nat) (level : List Digest) :
    (levels height level).length = height + 1 := by
  induction height generalizing level with
  | zero => rfl
  | succ height ih => simp only [levels, List.length_cons, ih]

theorem levels_ne_nil (height : Nat) (level : List Digest) : levels height level ≠ [] := by
  intro h
  have hlen := length_levels height level
  rw [h] at hlen
  cases hlen

theorem rootOf_levels_succ (height : Nat) (level : List Digest) :
    rootOf (levels (height + 1) level) = rootOf (levels height (parents level)) := by
  simp only [levels, rootOf]
  rw [List.getLast?_cons_of_ne_nil (levels_ne_nil height _)]

/-- The level so many heights above the given one. -/
def levelAbove (level : List Digest) : Nat → List Digest
  | 0 => level
  | height + 1 => parents (levelAbove level height)

theorem levelAbove_parents (level : List Digest) (height : Nat) :
    levelAbove (parents level) height = levelAbove level (height + 1) := by
  induction height with
  | zero => rfl
  | succ height ih => rw [levelAbove, ih, levelAbove, levelAbove, levelAbove]

theorem levelAbove_add (level : List Digest) (height more : Nat) :
    levelAbove (levelAbove level height) more = levelAbove level (height + more) := by
  induction more with
  | zero => rfl
  | succ more ih => rw [levelAbove, ih, Nat.add_succ, levelAbove]

theorem pow_le_length_levelAbove {height : Nat} (hwidth : 2 ^ depth ≤ level.length)
    (hheight : height ≤ depth) : 2 ^ (depth - height) ≤ (levelAbove level height).length := by
  induction height with
  | zero => exact hwidth
  | succ height ih =>
    have hbelow := ih (by omega)
    have hpow : 2 ^ (depth - height) = 2 * 2 ^ (depth - (height + 1)) := by
      rw [← Nat.pow_succ']
      congr 1
      omega
    rw [levelAbove, length_parents]
    omega

theorem rootOf_eq {root : Digest} (h : (levelAbove level depth)[0]? = some root) :
    rootOf (levels depth level) = root := by
  induction depth generalizing level with
  | zero =>
    cases level with
    | nil => cases h
    | cons a rest => exact Option.some.inj h
  | succ depth ih =>
    rw [rootOf_levels_succ]
    exact ih (by rw [levelAbove_parents]; exact h)

theorem getElem?_root (hwidth : 2 ^ depth ≤ level.length) :
    (levelAbove level depth)[0]? = some (rootOf (levels depth level)) := by
  have hlength := pow_le_length_levelAbove hwidth (Nat.le_refl depth)
  rw [Nat.sub_self] at hlength
  have hroot : (levelAbove level depth)[0]? = some (levelAbove level depth)[0] :=
    List.getElem?_eq_getElem hlength
  rw [rootOf_eq hroot, hroot]

theorem climb_right (node sibling : Digest) :
    climb node ⟨sibling.toHex, .right⟩ = some (hashPair node sibling) := by
  simp only [climb, Digest.ofHex?_toHex]

theorem climb_left (node sibling : Digest) :
    climb node ⟨sibling.toHex, .left⟩ = some (hashPair sibling node) := by
  simp only [climb, Digest.ofHex?_toHex]

/-- The path of a leaf in a tree of the given height. -/
def pathOf (height : Nat) (level : List Digest) (i : Nat) : List Step :=
  pathFrom (((levels height level).take height).map List.toArray) i

theorem pathOf_succ (height : Nat) (level : List Digest) (i : Nat) :
    pathOf (height + 1) level i =
      stepAt level.toArray i :: pathOf height (parents level) (i / 2) := by
  simp only [pathOf, levels, List.take_succ_cons, List.map_cons, pathFrom]

/-- One height more is one step more at the end. -/
theorem pathOf_succ_last (height : Nat) (level : List Digest) (i : Nat) :
    pathOf (height + 1) level i =
      pathOf height level i ++ [stepAt (levelAbove level height).toArray (i / 2 ^ height)] := by
  induction height generalizing level i with
  | zero =>
    rw [pathOf_succ, Nat.pow_zero, Nat.div_one]
    rfl
  | succ height ih =>
    rw [pathOf_succ, ih, pathOf_succ height level i, levelAbove_parents, Nat.div_div_eq_div_mul,
      ← Nat.pow_succ', List.cons_append]

theorem toArray_getD {j : Nat} {d : Digest} (h : level[j]? = some d) :
    level.toArray.getD j Digest.zero = d := by
  simp [Array.getD_eq_getD_getElem?, h]

theorem stepAt_left {i : Nat} {b : Digest} (hb : level[2 * i + 1]? = some b) :
    stepAt level.toArray (2 * i) = ⟨b.toHex, .right⟩ := by
  rw [stepAt, if_pos (by omega), toArray_getD hb]

theorem stepAt_right {i : Nat} {a : Digest} (ha : level[2 * i]? = some a) :
    stepAt level.toArray (2 * i + 1) = ⟨a.toHex, .left⟩ := by
  rw [stepAt, if_neg (by omega), Nat.add_sub_cancel, toArray_getD ha]

/-- The path of a place leads to the root, also when the bottom is wider than the tree. -/
theorem replay_pathOf (height : Nat) {i : Nat} {node : Digest}
    (hwidth : 2 ^ height ≤ level.length) (hi : i < 2 ^ height) (hnode : level[i]? = some node) :
    replay node (pathOf height level i) = (levelAbove level height)[0]? := by
  induction height generalizing level i node with
  | zero =>
    rw [Nat.pow_zero, Nat.lt_one_iff] at hi
    subst hi
    rw [levelAbove, hnode]
    rfl
  | succ height ih =>
    rw [Nat.pow_succ'] at hwidth hi
    have hparents : 2 ^ height ≤ (parents level).length := by
      rw [length_parents]
      omega
    obtain ⟨parent, hparent⟩ : ∃ d, (parents level)[i / 2]? = some d :=
      ⟨_, List.getElem?_eq_getElem (by omega)⟩
    obtain ⟨a, b, ha, hb, rfl⟩ := exists_children hparent
    have hclimb : climb node (stepAt level.toArray i) = some (hashPair a b) := by
      rcases Nat.mod_two_eq_zero_or_one i with heven | hodd
      · obtain ⟨j, rfl⟩ : ∃ j, i = 2 * j := ⟨i / 2, by omega⟩
        rw [Nat.mul_div_cancel_left j (by decide)] at ha hb
        obtain rfl := Option.some.inj (hnode.symm.trans ha)
        rw [stepAt_left hb, climb_right]
      · obtain ⟨j, rfl⟩ : ∃ j, i = 2 * j + 1 := ⟨i / 2, by omega⟩
        have hhalf : (2 * j + 1) / 2 = j := by omega
        rw [hhalf] at ha hb
        obtain rfl := Option.some.inj (hnode.symm.trans hb)
        rw [stepAt_right ha, climb_left]
    rw [pathOf_succ, replay, hclimb, ← levelAbove_parents]
    exact ih hparents (by omega) hparent

@[simp] theorem length_pathFrom (below : List (Array Digest)) (i : Nat) :
    (pathFrom below i).length = below.length := by
  induction below generalizing i with
  | nil => rfl
  | cons level above ih => simp only [pathFrom, List.length_cons, ih]

/-- A path has as many steps as the tree has levels below the root. -/
theorem length_pathOf (height : Nat) (level : List Digest) (i : Nat) :
    (pathOf height level i).length = height := by
  rw [pathOf, length_pathFrom, List.length_map, List.length_take, length_levels]
  omega

theorem le_length_pad (width : Nat) (leaves : List Digest) :
    width ≤ (pad width leaves).length := by
  rw [pad, List.length_append, List.length_replicate]
  omega

theorem getElem?_pad (width : Nat) {leaves : List Digest} {i : Nat} {leaf : Digest}
    (h : leaves[i]? = some leaf) : (pad width leaves)[i]? = some leaf := by
  obtain ⟨hi, -⟩ := List.getElem?_eq_some_iff.mp h
  rw [pad, List.getElem?_append_left hi, h]

end ImageLedger.Merkle
