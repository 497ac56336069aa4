import ImageLedger.Proofs.Merkle.Completeness
import Mathlib.Data.List.Induction

namespace ImageLedger.Merkle

variable {level : List Digest} {depth : Nat}

/-- The neighbours of a level, two by two. -/
def neighbours : List Digest → List (Digest × Digest)
  | a :: b :: rest => (a, b) :: neighbours rest
  | _ => []

/-- The pairs hashed to build so many heights on a level. -/
def builtPairs : Nat → List Digest → List (Digest × Digest)
  | 0, _ => []
  | height + 1, level => neighbours level ++ builtPairs height (parents level)

/-- A digest and its sibling in the order in which they are hashed. -/
def Side.arrange (node sibling : Digest) : Side → Digest × Digest
  | left => (sibling, node)
  | right => (node, sibling)

/-- The pairs hashed to replay a path, up to a sibling that is no digest. -/
def replayedPairs : Digest → List Step → List (Digest × Digest)
  | _, [] => []
  | node, step :: rest =>
    match Digest.ofHex? step.sibling with
    | none => []
    | some sibling =>
      let pair := step.side.arrange node sibling
      pair :: replayedPairs (hashPair pair.1 pair.2) rest

/-- Two different pairs have one digest. -/
def Clash (pairs : List (Digest × Digest)) : Prop :=
  ∃ p ∈ pairs, ∃ q ∈ pairs, p ≠ q ∧ hashPair p.1 p.2 = hashPair q.1 q.2

/-- One pair clashes with nothing. -/
theorem not_clash_of_forall_eq {pairs : List (Digest × Digest)} {pair : Digest × Digest}
    (h : ∀ p ∈ pairs, p = pair) : ¬ Clash pairs := by
  rintro ⟨p, hp, q, hq, hne, -⟩
  exact hne ((h p hp).trans (h q hq).symm)

theorem mem_neighbours {i : Nat} {a b : Digest} (ha : level[2 * i]? = some a)
    (hb : level[2 * i + 1]? = some b) : (a, b) ∈ neighbours level := by
  fun_induction neighbours level generalizing i with
  | case1 x y rest ih =>
    cases i with
    | zero =>
      obtain rfl : x = a := by simpa using ha
      obtain rfl : y = b := by simpa using hb
      exact List.mem_cons_self
    | succ i =>
      have ha' : rest[2 * i]? = some a := by simpa [Nat.mul_add] using ha
      have hb' : rest[2 * i + 1]? = some b := by simpa [Nat.mul_add] using hb
      exact List.mem_cons_of_mem _ (ih ha' hb')
  | case2 level h =>
    rcases level with _ | ⟨x, _ | ⟨y, rest⟩⟩
    · simp at ha
    · simp at hb
    · exact absurd rfl (h x y rest)

/-- The two digests below a place were hashed in building the tree. -/
theorem mem_builtPairs {height i : Nat} {a b : Digest} (hheight : height < depth)
    (ha : (levelAbove level height)[2 * i]? = some a)
    (hb : (levelAbove level height)[2 * i + 1]? = some b) : (a, b) ∈ builtPairs depth level := by
  induction depth generalizing level height with
  | zero => omega
  | succ depth ih =>
    rw [builtPairs, List.mem_append]
    cases height with
    | zero => exact Or.inl (mem_neighbours ha hb)
    | succ height =>
      rw [← levelAbove_parents] at ha hb
      exact Or.inr (ih (by omega) ha hb)

theorem climb_eq (node : Digest) (step : Step) :
    climb node step = (Digest.ofHex? step.sibling).map fun sibling =>
      hashPair (step.side.arrange node sibling).1 (step.side.arrange node sibling).2 := by
  rw [climb]
  cases Digest.ofHex? step.sibling with
  | none => rfl
  | some sibling =>
    cases step.side with
    | left => rfl
    | right => rfl

theorem replay_cons (node : Digest) (step : Step) (rest : List Step) :
    replay node (step :: rest) = (climb node step).bind (replay · rest) := by
  rw [replay]
  cases climb node step with
  | none => rfl
  | some parent => rfl

theorem replay_append (node : Digest) (front rest : List Step) :
    replay node (front ++ rest) = (replay node front).bind (replay · rest) := by
  induction front generalizing node with
  | nil => rfl
  | cons step front ih =>
    rw [List.cons_append, replay_cons, replay_cons]
    cases climb node step with
    | none => rfl
    | some parent => exact ih parent

/-- The last step of a path that leads somewhere was hashed with all steps before it. -/
theorem exists_last_pair {node c : Digest} {front : List Step} {step : Step}
    (h : replay node (front ++ [step]) = some c) :
    ∃ x sibling, replay node front = some x ∧ Digest.ofHex? step.sibling = some sibling ∧
      c = hashPair (step.side.arrange x sibling).1 (step.side.arrange x sibling).2 ∧
      step.side.arrange x sibling ∈ replayedPairs node (front ++ [step]) ∧
      ∀ pair ∈ replayedPairs node front, pair ∈ replayedPairs node (front ++ [step]) := by
  induction front generalizing node with
  | nil =>
    rw [List.nil_append, replay_cons, climb_eq] at h
    cases hsibling : Digest.ofHex? step.sibling with
    | none => simp [hsibling] at h
    | some sibling =>
      simp only [hsibling, Option.map_some, Option.bind_some, replay, Option.some.injEq] at h
      refine ⟨node, sibling, rfl, rfl, h.symm, ?_, fun _ hpair => absurd hpair List.not_mem_nil⟩
      simp [replayedPairs, hsibling]
  | cons first front ih =>
    rw [List.cons_append, replay_cons, climb_eq] at h
    rw [replay_cons, climb_eq, List.cons_append]
    cases hfirst : Digest.ofHex? first.sibling with
    | none => simp [hfirst] at h
    | some sibling =>
      simp only [hfirst, Option.map_some, Option.bind_some] at h ⊢
      obtain ⟨x, last, hx, hlast, hc, hmem, hsub⟩ := ih h
      refine ⟨x, last, hx, hlast, hc, ?_, ?_⟩
      · simp only [replayedPairs, hfirst]
        exact List.mem_cons_of_mem _ hmem
      · simp only [replayedPairs, hfirst, List.mem_cons]
        exact fun pair hpair => hpair.imp id (hsub pair)

/-- The step with its sibling in small letters. -/
def Step.lower (step : Step) : Step := { step with sibling := HashText.lower step.sibling }

@[simp] theorem climb_lower (node : Digest) (step : Step) :
    climb node step.lower = climb node step := by
  simp only [climb, Step.lower, Digest.ofHex?_lower]

theorem replay_map_lower (node : Digest) (steps : List Step) :
    replay node (steps.map Step.lower) = replay node steps := by
  induction steps generalizing node with
  | nil => rfl
  | cons step rest ih => simp only [List.map_cons, replay, climb_lower, ih]

/-- The digest stands at a place of the tree, and the steps are that place's path to the root. -/
def StandsAt (depth : Nat) (level : List Digest) (height i : Nat) (d : Digest)
    (steps : List Step) : Prop :=
  height ≤ depth ∧ i < 2 ^ (depth - height) ∧ (levelAbove level height)[i]? = some d ∧
    steps.map Step.lower = pathOf (depth - height) (levelAbove level height) i

theorem StandsAt.replay_eq {height i : Nat} {d : Digest} {steps : List Step}
    (h : StandsAt depth level height i d steps) (hwidth : 2 ^ depth ≤ level.length) :
    replay d steps = some (rootOf (levels depth level)) := by
  obtain ⟨hheight, hi, hnode, hsteps⟩ := h
  have hlength := pow_le_length_levelAbove hwidth hheight
  rw [← replay_map_lower, hsteps, replay_pathOf _ hlength hi hnode, levelAbove_add,
    Nat.add_sub_cancel' hheight, getElem?_root hwidth]

section NoClash

variable {pairs : List (Digest × Digest)}

/-- A step that makes the digest of a place starts at one of the two places below it and is that
place's own step, for both pairs made that digest and so are one. -/
theorem exists_place_below (hclash : ¬ Clash pairs)
    (hbuilt : ∀ pair ∈ builtPairs depth level, pair ∈ pairs) {height i : Nat} {c x sibling : Digest}
    {step : Step} (hheight : height < depth)
    (hplace : (levelAbove level (height + 1))[i]? = some c)
    (hsibling : Digest.ofHex? step.sibling = some sibling)
    (hpair : step.side.arrange x sibling ∈ pairs)
    (hc : c = hashPair (step.side.arrange x sibling).1 (step.side.arrange x sibling).2) :
    ∃ j, j / 2 = i ∧ (levelAbove level height)[j]? = some x ∧
      step.lower = stepAt (levelAbove level height).toArray j := by
  obtain ⟨a, b, ha, hb, hab⟩ := exists_children hplace
  have hsame : step.side.arrange x sibling = (a, b) := by
    by_contra hne
    exact hclash ⟨_, hpair, _, hbuilt _ (mem_builtPairs hheight ha hb), hne, hc.symm.trans hab⟩
  have hlower : HashText.lower step.sibling = sibling.toHex :=
    (Digest.toHex_of_ofHex? hsibling).symm
  cases hside : step.side with
  | left =>
    rw [hside, Side.arrange, Prod.mk.injEq] at hsame
    obtain ⟨rfl, rfl⟩ := hsame
    refine ⟨2 * i + 1, by omega, hb, ?_⟩
    rw [stepAt_right ha, Step.lower, hlower, hside]
  | right =>
    rw [hside, Side.arrange, Prod.mk.injEq] at hsame
    obtain ⟨rfl, rfl⟩ := hsame
    refine ⟨2 * i, by omega, ha, ?_⟩
    rw [stepAt_left hb, Step.lower, hlower, hside]

/-- A path that leads to a place ends with the steps of a place below, and the steps before them
lead to a digest of the bottom. -/
theorem exists_place (hclash : ¬ Clash pairs)
    (hbuilt : ∀ pair ∈ builtPairs depth level, pair ∈ pairs) {d : Digest} (steps : List Step)
    (hreplayed : ∀ pair ∈ replayedPairs d steps, pair ∈ pairs) {height i : Nat} {c : Digest}
    (hheight : height ≤ depth) (hplace : (levelAbove level height)[i]? = some c)
    (hreplay : replay d steps = some c) :
    ∃ front upper low j x, steps = front ++ upper ∧ low + upper.length = height ∧
      j / 2 ^ upper.length = i ∧ (levelAbove level low)[j]? = some x ∧
      upper.map Step.lower = pathOf upper.length (levelAbove level low) j ∧
      replay d front = some x ∧ (front = [] ∨ low = 0) := by
  -- From the last step down: each that is above the bottom belongs to a place of the tree.
  induction steps using List.reverseRecOn generalizing height i c with
  | nil => exact ⟨[], [], height, i, c, rfl, rfl, Nat.div_one i, hplace, rfl, hreplay, Or.inl rfl⟩
  | append_singleton front step ih =>
    cases height with
    | zero =>
      exact ⟨front ++ [step], [], 0, i, c, (List.append_nil _).symm, rfl, Nat.div_one i, hplace,
        rfl, hreplay, Or.inr rfl⟩
    | succ height =>
      obtain ⟨x, sibling, hx, hsibling, hc, hlast, hsub⟩ := exists_last_pair hreplay
      obtain ⟨j, hj, hnode, hstep⟩ :=
        exists_place_below hclash hbuilt hheight hplace hsibling (hreplayed _ hlast) hc
      obtain ⟨front', upper, low, k, y, hfront, hlow, hk, hy, hupper, hreach, hend⟩ :=
        ih (fun pair hpair => hreplayed pair (hsub pair hpair)) (by omega) hnode hx
      refine ⟨front', upper ++ [step], low, k, y, ?_, ?_, ?_, hy, ?_, hreach, hend⟩
      · rw [hfront, List.append_assoc]
      · rw [List.length_append, List.length_singleton]
        omega
      · rw [List.length_append, List.length_singleton, Nat.pow_succ, ← Nat.div_div_eq_div_mul, hk,
          hj]
      · rw [List.map_append, List.length_append, List.length_singleton, pathOf_succ_last, hupper,
          levelAbove_add, hlow, hk, List.map_singleton, hstep]

end NoClash

/-- Without a clash a path leads to the root exactly when it ends with the steps of a place, and
the steps before them, if there are any, lead to a digest of the bottom. -/
theorem replay_root_iff {d : Digest} {steps : List Step} (hwidth : 2 ^ depth ≤ level.length)
    (hclash : ¬ Clash (builtPairs depth level ++ replayedPairs d steps)) :
    replay d steps = some (rootOf (levels depth level)) ↔
      (∃ height i, StandsAt depth level height i d steps) ∨
      ∃ front upper i x, steps = front ++ upper ∧ front ≠ [] ∧ replay d front = some x ∧
        StandsAt depth level 0 i x upper := by
  constructor
  · intro h
    obtain ⟨front, upper, low, i, x, hsteps, hlow, hi, hx, hupper, hreach, hend⟩ :=
      exists_place hclash (fun _ hpair => List.mem_append_left _ hpair) steps
        (fun _ hpair => List.mem_append_right _ hpair) (Nat.le_refl depth) (getElem?_root hwidth) h
    have hlength : depth - low = upper.length := by omega
    have hstands : StandsAt depth level low i x upper := by
      refine ⟨by omega, ?_, hx, by rw [hlength, hupper]⟩
      rw [hlength]
      exact (Nat.div_eq_zero_iff_lt (Nat.two_pow_pos _)).mp hi
    by_cases hfront : front = []
    · subst hfront
      obtain rfl := Option.some.inj hreach
      exact Or.inl ⟨low, i, hsteps ▸ hstands⟩
    · obtain rfl := hend.resolve_left hfront
      exact Or.inr ⟨front, upper, i, x, hsteps, hfront, hreach, hstands⟩
  · rintro (⟨height, i, hstands⟩ | ⟨front, upper, i, x, rfl, -, hreach, hstands⟩)
    · exact hstands.replay_eq hwidth
    · rw [replay_append, hreach]
      exact hstands.replay_eq hwidth

end ImageLedger.Merkle
