import ImageLedger.Proofs.Node.WriteLock

namespace ImageLedger

open Activity (Agent Course Follows Seamless)

namespace Store

/-- The blocks that a step adds. -/
def added (own : Node × Node) : List Block :=
  own.2.store.blocks.drop own.1.store.blocks.length

theorem added_of_sameLedger {own : Node × Node} (h : own.1.store.SameLedger own.2.store) :
    added own = [] := by
  rw [added, h.blocks, List.drop_length]

theorem Extends.blocks {s t : Store} (h : s.Extends t) : ∃ b, t.blocks = s.blocks ++ [b] := by
  obtain ⟨nodeId, p, new, -, hledger⟩ := h
  exact ⟨s.nextBlock p, hledger.blocks⟩

theorem added_of_extends {own : Node × Node} (h : own.1.store.Extends own.2.store) :
    (added own).length = 1 := by
  obtain ⟨b, hb⟩ := h.blocks
  rw [added, hb, List.drop_left, List.length_singleton]

/-- Steps of the ledger, one after another, add their blocks one after another. -/
theorem blocks_of_seamless {steps : List (Node × Node)} {n m : Node}
    (h : Seamless (fun n m => n.store.SameLedger m.store) steps n m)
    (hsteps : ∀ own ∈ steps, own.1.store.LedgerStep own.2.store) :
    m.store.blocks = n.store.blocks ++ steps.flatMap added := by
  induction steps generalizing n with
  | nil => rw [h.blocks, List.flatMap_nil, List.append_nil]
  | cons own rest ih =>
    obtain ⟨hown, hrest⟩ := List.forall_mem_cons.mp hsteps
    have hblocks : own.2.store.blocks = own.1.store.blocks ++ added own := by
      rcases hown with hsame | hextends
      · rw [hsame.blocks, added_of_sameLedger hsame, List.append_nil]
      · obtain ⟨b, hb⟩ := Extends.blocks hextends
        rw [added, hb, List.drop_left]
    rw [ih h.2 hrest, hblocks, h.1.blocks, List.flatMap_cons, List.append_assoc]

theorem sound_of_seamless {steps : List (Node × Node)} {n m : Node}
    (h : Seamless (fun n m => n.store.SameLedger m.store) steps n m)
    (hsteps : ∀ own ∈ steps, own.1.store.LedgerStep own.2.store) (hn : n.store.Sound) :
    m.store.Sound := by
  apply h.related (Q := fun n m => n.store.Sound → m.store.Sound) ?_ ?_ ?_ hn
  · exact fun n m hsame hn => hn.sameLedger hsame
  · exact fun n m k hnm hmk hn => hmk (hnm hn)
  · exact fun own hown hn => hn.step (hsteps own hown)

end Store

namespace Visit

/-- The blocks that a section has added so far. -/
def blocks (v : Visit) : List Block := v.steps.flatMap Store.added

variable {v : Visit}

/-- The steps of a section leave the ledger alone, but for one that adds a block. -/
theorem Genuine.steps (h : v.Genuine) :
    (∀ own ∈ v.steps, own.1.store.SameLedger own.2.store) ∨
    ∃ before own after, v.steps = before ++ own :: after ∧
      (∀ other ∈ before, other.1.store.SameLedger other.2.store) ∧
      own.1.store.Extends own.2.store ∧
      ∀ other ∈ after, other.1.store.SameLedger other.2.store := by
  rcases h.follows.turns h.keeps.addsOnce with ⟨-, hkept⟩ | ⟨-, hparts⟩
  · exact Or.inl hkept
  · exact Or.inr hparts

theorem Genuine.ledgerStep (h : v.Genuine) :
    ∀ own ∈ v.steps, own.1.store.LedgerStep own.2.store := by
  rcases h.steps with hkept | ⟨before, own, after, hsteps, hbefore, hextends, hafter⟩
  · exact fun own hown => Or.inl (hkept own hown)
  · rw [hsteps]
    exact List.forall_mem_append.mpr ⟨fun other hother => Or.inl (hbefore other hother),
      List.forall_mem_cons.mpr ⟨Or.inr hextends, fun other hother => Or.inl (hafter other hother)⟩⟩

/-- A section adds one block at most. -/
theorem Genuine.length_blocks (h : v.Genuine) : v.blocks.length ≤ 1 := by
  have hnone : ∀ steps : List (Node × Node),
      (∀ own ∈ steps, own.1.store.SameLedger own.2.store) → steps.flatMap Store.added = [] :=
    fun steps hsteps => List.flatMap_eq_nil_iff.mpr fun own hown =>
      Store.added_of_sameLedger (hsteps own hown)
  rw [blocks]
  rcases h.steps with hkept | ⟨before, own, after, hsteps, hbefore, hextends, hafter⟩
  · rw [hnone _ hkept]
    exact Nat.zero_le 1
  · rw [hsteps, List.flatMap_append, List.flatMap_cons, hnone _ hbefore, hnone _ hafter,
      List.nil_append, List.append_nil, Store.added_of_extends hextends]

/-- What comes before the step that adds a block leaves the ledger alone. -/
theorem Genuine.kept_before (h : v.Genuine) {before after : List (Node × Node)} {own : Node × Node}
    (hsteps : v.steps = before ++ own :: after) (hadds : Store.added own ≠ []) :
    ∀ other ∈ before, other.1.store.SameLedger other.2.store := by
  -- the step is the one that adds the section's block, as all those after it add none
  rcases h.steps with hkept | ⟨earlier, turn, later, hturns, hearlier, -, hlater⟩
  · exact fun other hother => hkept other (hsteps ▸ List.mem_append_left _ hother)
  · rw [hsteps] at hturns
    rcases List.append_eq_append_iff.mp hturns with ⟨between, rfl, -⟩ | ⟨between, rfl, hrest⟩
    · exact fun other hother => hearlier other (List.mem_append_left _ hother)
    · cases between with
      | nil => simpa using hearlier
      | cons first between =>
        obtain ⟨-, hlast⟩ := List.cons.inj hrest
        have hown : own ∈ later := hlast ▸ List.mem_append_right _ List.mem_cons_self
        exact absurd (Store.added_of_sameLedger (hlater own hown)) hadds

/-- All states that a section finds before it adds a block have the tip that the block is added
to. -/
theorem Genuine.tip (h : v.Genuine) {n m : Node}
    (hseamless : Seamless (fun n m => n.store.SameLedger m.store) v.steps n m)
    {before after : List (Node × Node)} {own : Node × Node}
    (hsteps : v.steps = before ++ own :: after) (hadds : Store.added own ≠ []) :
    ∀ other ∈ before, other.1.tip = own.1.tip := by
  rw [hsteps, Seamless.append Node.sameLedger_refl Node.sameLedger_trans] at hseamless
  obtain ⟨last, hbefore, hlast, -⟩ := hseamless
  intro other hother
  have hkept := h.kept_before hsteps hadds
  have hsame := (hbefore.since Node.sameLedger_trans hkept other hother).trans hlast
  rw [Node.tip, Node.tip, Store.latestBlock, Store.latestBlock, hsame.blocks]

end Visit

/-- What may begin at the same time: everything that makes blocks, and what the node does beside. -/
inductive Work : Activity.Some Node → Prop
  | submit (network : Consensus.Network) (input : SubmitInput) :
      Work ⟨_, (Node.submit network input).run⟩
  | createGenesis (validatorId : Option String) (time : Option Number) :
      Work ⟨_, (Node.createGenesis validatorId time).run⟩
  | commit (network : Consensus.Network) (now : Number) (batch : Batching.Batch) :
      Work ⟨_, (Node.commit network now batch).run⟩
  | batchingCycle (network : Consensus.Network) (now : Option Number) :
      Work ⟨_, (Node.batchingCycle network now).run⟩
  | validationCycle (replies : Nat → Authority.Reply) (now limit : Option Number) :
      Work ⟨_, (Node.validationCycle replies now limit).run⟩
  | stage (d : Draft) : Work ⟨_, (Node.stage d).run⟩
  | intake (d : Draft) : Work ⟨_, (Node.intake d).run⟩
  | clock (milliseconds : Int) :
      Work ⟨_, Activity.change fun n : Node => n.advance milliseconds⟩

/-- Whatever begins leads to a call of the lock, or leaves the lock and the ledger alone. -/
theorem Work.approach {a : Activity.Some Node} (h : Work a) : Approach a := by
  have hrefl := Store.sameLedger_refl
  cases h with
  | submit network input =>
    rw [Node.submit_eq]
    exact .bind (Operation.Free.look _) (.look hrefl _) fun tx =>
      .call (Node.submitLocked_section network tx)
  | createGenesis validatorId time =>
    rw [Node.createGenesis_eq]
    exact .call (Node.genesisLocked_section validatorId time)
  | commit network now batch => exact .call (Node.commitLocked_section network now batch)
  | batchingCycle network now =>
    refine .bind (Operation.Free.look _) (.look hrefl _) fun current => ?_
    refine .bind (Node.assemble_free _) ?_ fun first => ?_
    · exact (Node.assemble_changes trivial _).within Node.Change.sameLedger
    · cases first with
      | inl result => exact .done _
      | inr batch => exact .call (Node.commitLocked_section network _ batch)
  | validationCycle replies now limit =>
    exact .of_free (Node.validationCycle_free replies now limit)
      ((Node.validationCycle_changes trivial replies now limit).within Node.Change.sameLedger)
  | stage d =>
    exact .of_free (Node.stage_free d)
      ((Node.stage_changes trivial).within Node.Change.sameLedger)
  | intake d =>
    exact .of_free (Node.intake_free d)
      ((Node.intake_changes trivial).within Node.Change.sameLedger)
  | clock milliseconds =>
    exact .of_free (Activity.Free.atomic fun _ => rfl)
      (Activity.Within.atomic Node.sameLedger_refl)

/-- The sections come one after another in the order of the calls, each caller ends with what came
of its own section, and nobody waits for anything but an earlier section. The tip that a section
finds is the one that its block is stored on, and the blocks follow each other as the calls did. -/
structure Serialized (start : Node) (visits : List Visit) (agents : List (Agent Node)) (n : Node) :
    Prop extends Orderly start visits agents n where
  answers : ∀ ag ∈ agents, ∀ v ∈ visits, v.caller = ag.number → ∀ result, ag.rest = .done result →
    v.stage = .settled ∧ (⟨_, ag.rest⟩ : Activity.Some Node) = ⟨_, v.rest⟩
  progress : ∀ ag ∈ agents, (∃ result, ag.rest = .done result) ∨
    (ag.rest.advance n).isSome = true ∨ ∃ v ∈ visits, v.caller = ag.number ∧ v.stage = .waiting ∧
      ∃ u ∈ visits, u.ticket < v.ticket ∧ u.stage ≠ .settled
  tip : ∀ v ∈ visits, ∀ before own after, v.steps = before ++ own :: after →
    Store.added own ≠ [] → ∀ other ∈ before, other.1.tip = own.1.tip
  extending : ∀ v ∈ visits, ∀ answer, v.rest = .done answer → Extending answer
  single : ∀ v ∈ visits, v.blocks.length ≤ 1
  blocks : n.store.blocks = start.store.blocks ++ visits.flatMap Visit.blocks
  heights : n.store.blocks.map (·.height) = List.range n.store.blocks.length

namespace Orderly

variable {start n : Node} {visits : List Visit} {agents : List (Agent Node)}

theorem ledgerStep (h : Orderly start visits agents n) :
    ∀ own ∈ visits.flatMap (·.steps), own.1.store.LedgerStep own.2.store := by
  intro own hown
  obtain ⟨v, hv, hstep⟩ := List.mem_flatMap.mp hown
  exact (h.genuine v hv).ledgerStep own hstep

/-- The steps of one section go from one state to another without a change of the ledger by
anybody else. -/
theorem during (h : Orderly start visits agents n) (hsound : start.store.Sound) {v : Visit}
    (hv : v ∈ visits) : ∃ first last, first.store.Sound ∧
      Seamless (fun n m => n.store.SameLedger m.store) v.steps first last := by
  obtain ⟨before, after, rfl⟩ := List.append_of_mem hv
  have hseamless := h.seamless
  have hsteps := h.ledgerStep
  rw [List.flatMap_append] at hseamless hsteps
  obtain ⟨hstepsBefore, -⟩ := List.forall_mem_append.mp hsteps
  rw [Seamless.append Node.sameLedger_refl Node.sameLedger_trans] at hseamless
  obtain ⟨first, hbefore, hrest⟩ := hseamless
  have hfirst := Store.sound_of_seamless hbefore hstepsBefore hsound
  rw [List.flatMap_cons, Seamless.append Node.sameLedger_refl Node.sameLedger_trans] at hrest
  obtain ⟨last, hown, -⟩ := hrest
  exact ⟨first, last, hfirst, hown⟩

/-- A caller that is done ends with what came of its own section. -/
theorem answers (h : Orderly start visits agents n) {ag : Agent Node} (hag : ag ∈ agents)
    {v : Visit} (hv : v ∈ visits) (hcaller : v.caller = ag.number) {result : ag.α}
    (hdone : ag.rest = .done result) :
    v.stage = .settled ∧ (⟨_, ag.rest⟩ : Activity.Some Node) = ⟨_, v.rest⟩ := by
  cases h.standing ag hag with
  | outside hnone => exact absurd hcaller (hnone v hv)
  | @visiting u x called waited left hu hcalled hquiet hleft =>
    obtain rfl : u = v := List.inj_on_of_nodup_map h.callers hu hv hcaller.symm
    dsimp only [Visit.agent] at hdone ⊢
    cases hstage : u.stage with
    | settled => exact ⟨rfl, by rw [Visit.task, hstage]⟩
    | waiting =>
      rw [Visit.task, hstage] at hdone
      cases hdone
    | inside =>
      rw [Visit.task, hstage] at hdone
      cases hrest : u.rest <;> rw [hrest] at hdone <;> cases hdone

end Orderly

/-- However many calls that make blocks are under way at the same time, and however their steps
fall, they are serialized. -/
theorem commits_serialized (start : Node) (hsound : start.store.Sound)
    (hfree : start.lock.queue = []) {agents : List (Agent Node)} {n : Node}
    (h : Course (fun _ => Work) [] start agents n) :
    ∃ visits, Serialized start visits agents n := by
  obtain ⟨visits, hv⟩ := Approach.exists_orderly (fun _ _ ha => ha.approach) hfree h
  have hblocks := Store.blocks_of_seamless hv.seamless hv.ledgerStep
  refine ⟨visits, { hv with
    answers := fun ag hag v hmem hcaller result hdone => hv.answers hag hmem hcaller hdone
    progress := fun ag hag => hv.progress hag
    tip := fun v hmem before own after hsteps hadds => ?_
    extending := fun v hmem answer hanswer => ?_
    single := fun v hmem => (hv.genuine v hmem).length_blocks
    blocks := ?_
    heights := ?_ }⟩
  · obtain ⟨first, last, -, hseamless⟩ := hv.during hsound hmem
    exact (hv.genuine v hmem).tip hseamless hsteps hadds
  · obtain ⟨first, last, hfirst, hseamless⟩ := hv.during hsound hmem
    have hfits := (hv.genuine v hmem).keeps.fits first hfirst
    have hguarded := (hv.genuine v hmem).follows.guarded Node.sameLedger_refl
      Node.sameLedger_trans hseamless hfits
    rw [hanswer] at hguarded
    exact (hguarded last last.sameLedger_refl).1
  · rw [hblocks, List.flatMap_assoc]
    rfl
  · exact (Store.sound_of_seamless hv.seamless hv.ledgerStep hsound).linked.heights

/-- The making of the first block is called while a submission holds the lock. The submission is
rejected, and then the block is made. -/
theorem serialized_after_rejection : ∃ agents n visits v b own called,
    Course (fun _ => Work) [] Node.lone agents n ∧ Serialized Node.lone visits agents n ∧
      agents = [⟨1, (Node.createGenesis none none).run, .done (.ok b),
          (Node.lone.enter, Node.lone.enter.enter) :: called⟩,
        ⟨0, (Node.submit .silent Node.blankInput).run, .done (.error (.rejected v)), own⟩] ∧
      visits.length = 2 ∧ n.store.blocks = [b] ∧ n.lock.queue = [] := by
  have hsome : (Node.lone.violation Node.lone.seconds
      (Node.blankInput.transaction Node.lone.sign).received).isSome = true := by
    decide +kernel
  obtain ⟨v, hv⟩ := Option.isSome_iff_exists.mp hsome
  let waiting : Node := Node.lone.enter.enter
  let next : Node := { waiting with lock := waiting.lock.leave 0 }
  have hbegun : Course (fun _ => Work) [] Node.lone
      [.fresh 0 ⟨_, (Node.submit .silent Node.blankInput).run⟩] Node.lone :=
    .begin _ (.submit .silent Node.blankInput) .start
  have hcalled := (hbegun.step rfl).step (advance_exclusively _ 0 _)
  have hwaits := (hcalled.begin _ (.createGenesis none none)).step
    (advance_exclusively (Node.genesisLocked none none) 1 _)
  have hfirst : waiting.lock.holds 0 = true := by decide
  have hsecond : next.lock.holds 1 = true := by decide
  have hrejects := Operation.run_awaited hfirst
    (Node.perform_submitLocked_rejected .silent (n := waiting) hv)
  have hmakes := Operation.run_awaited hsecond
    (Node.perform_genesisLocked (n := next) rfl none none nofun)
  obtain ⟨own, -, hrejected⟩ := hwaits.run_after [_] hrejects
  obtain ⟨called, -, hmade⟩ := hrejected.run hmakes
  obtain ⟨visits, hvisits⟩ := commits_serialized Node.lone Store.sound_empty rfl hmade
  refine ⟨_, _, visits, v, _, _, _, hmade, hvisits, rfl, ?_, rfl, ?_⟩
  · have hnext := hvisits.next
    change 2 = 0 + visits.length at hnext
    omega
  · decide

end ImageLedger
