import ImageLedger.Proofs.Activity.Course
import ImageLedger.Proofs.Node.CommittedCycle

namespace ImageLedger

namespace Batching

/-- The candidates that screening drops, each with those that it accepts before. -/
def droppedAfter (onChain : List String) (now : Number) :
    List Submission → List Submission → List (List Submission × Submission)
  | _, [] => []
  | before, c :: rest =>
    match dropReason onChain (before.map (·.row.hash)) now c.row.entry with
    | some _ => (before, c) :: droppedAfter onChain now before rest
    | none => droppedAfter onChain now (before ++ [c]) rest

/-- Screening drops just these candidates. What it accepts before one of them is a first part of
what it accepts in the end. -/
theorem droppedAfter_spec (onChain : List String) (now : Number) (accepted : List String)
    (before : List Submission)
    (hsame : ∀ hash, hash ∈ accepted ↔ hash ∈ before.map (·.row.hash)) (cs : List Submission) :
    (droppedAfter onChain now before cs).map (·.2) = (screen onChain now accepted cs).2.map (·.1) ∧
    ∀ d ∈ droppedAfter onChain now before cs,
      d.1 <+: before ++ (screen onChain now accepted cs).1 ∧
      ∃ reason, dropReason onChain (d.1.map (·.row.hash)) now d.2.row.entry = some reason := by
  induction cs generalizing before accepted with
  | nil => exact ⟨rfl, fun d hd => nomatch hd⟩
  | cons c rest ih =>
    have hcongr := dropReason_congr onChain now hsame c.row.entry
    cases hreason : dropReason onChain accepted now c.row.entry with
    | some reason =>
      obtain ⟨hmap, hdropped⟩ := ih accepted before hsame
      rw [droppedAfter, screen, ← hcongr, hreason]
      refine ⟨congrArg (c :: ·) hmap, fun d hd => ?_⟩
      rcases List.mem_cons.mp hd with rfl | hd
      · exact ⟨List.prefix_append _ _, reason, hcongr ▸ hreason⟩
      · exact hdropped d hd
    | none =>
      have hnext : ∀ hash, hash ∈ c.row.hash :: accepted ↔
          hash ∈ (before ++ [c]).map (·.row.hash) := by
        intro hash
        rw [List.mem_cons, hsame, List.map_append, List.mem_append, List.map_singleton,
          List.mem_singleton, or_comm]
      obtain ⟨hmap, hdropped⟩ := ih (c.row.hash :: accepted) (before ++ [c]) hnext
      rw [droppedAfter, screen, ← hcongr, hreason]
      refine ⟨hmap, fun d hd => ?_⟩
      obtain ⟨hpart, hwhy⟩ := hdropped d hd
      rw [List.append_assoc] at hpart
      exact ⟨hpart, hwhy⟩

end Batching

namespace Node

open Operation

/-- The same batches break the same rules: settings and images on the ledger are the same. -/
structure SameRules (n m : Node) : Prop where
  settings : m.settings = n.settings
  images : m.store.images = n.store.images

/-- Screens some candidates: rejects those that it drops, and gives those that it accepts. -/
def screening (now : Number) (cs : List Submission) : Operation (List Submission) := do
  let onChain ← .look fun n =>
    (n.store.existing (cs.map (·.row.entry.imageHash))).mapError Fault.store
  let (kept, dropped) := Batching.screen onChain now [] cs
  rejectAll dropped
  return kept

/-- The first half of a cycle reads candidates, screens them and makes a batch of the others. -/
theorem assemble_eq (now : Number) : assemble now = (do
    let candidates ← .look fun n =>
      (n.store.findReady n.settings.batchSizeMax).mapError Fault.submission
    if candidates.isEmpty then return .inl ⟨.idle, 0, none, none, none⟩
    let kept ← screening now candidates
    .look fun n => .ok (n.assembled kept)) := by
  simp only [assemble, screening, bind_assoc, pure_bind]
  rfl

/-- What screening makes of some candidates: those it accepts and those it drops. -/
def screen (n : Node) (now : Number) (cs : List Submission) :
    List Submission × List (Submission × Batching.DropReason) :=
  Batching.screen (n.store.existingOf (cs.map (·.row.hash))) now [] cs

/-- The candidates that screening drops, each with those that it accepts before. -/
def droppedAfter (n : Node) (now : Number) (cs : List Submission) :
    List (List Submission × Submission) :=
  Batching.droppedAfter (n.store.existingOf (cs.map (·.row.hash))) now [] cs

section Screen

variable {n m : Node} {now : Number} {cs : List Submission}

theorem SameRules.refl (n : Node) : n.SameRules n := ⟨rfl, rfl⟩

theorem SameRules.trans {k : Node} (h : n.SameRules m) (h' : m.SameRules k) : n.SameRules k :=
  ⟨h'.settings.trans h.settings, h'.images.trans h.images⟩

theorem SameRules.existingOf (h : n.SameRules m) : m.store.existingOf = n.store.existingOf := by
  have hamong : m.store.recordedAmong = n.store.recordedAmong := by
    funext hashes
    rw [Store.recordedAmong, Store.recordedAmong, h.images]
  funext hashes
  rw [Store.existingOf, Store.existingOf, Store.existingIn, Store.existingIn, hamong]

theorem SameRules.violation (h : n.SameRules m) : m.violation = n.violation := by
  funext now tx
  rw [Node.violation, Node.violation, ruleOptions, ruleOptions, h.settings, h.existingOf]

theorem SameRules.received (h : n.SameRules m) (kept : List Submission) :
    (m.batchOf kept).transaction.received = (n.batchOf kept).transaction.received := by
  rw [batchOf, batchOf, h.settings]
  rfl

theorem sameRules_rejectEach (n : Node) (dropped : List (Submission × Batching.DropReason)) :
    n.SameRules { n with store := n.store.rejectEach dropped } := by
  refine ⟨rfl, ?_⟩
  change (n.store.rejectEach dropped).images = n.store.images
  rw [Store.sameLedger_rejectEach (s := n.store) dropped]

/-- The lookup on the ledger succeeds for well-formed hashes, and says which are there. -/
theorem existing_of_wellFormed
    (hwell : ∀ c ∈ cs, HashText.wellFormed c.row.entry.imageHash = true) :
    n.store.existing (cs.map (·.row.entry.imageHash)) =
      .ok (n.store.existingOf (cs.map (·.row.hash))) := by
  have hall : ∀ hash ∈ cs.map (·.row.entry.imageHash), HashText.wellFormed hash = true :=
    List.forall_mem_map.mpr hwell
  rw [Store.existing, Store.normalizeAll_eq_ok.mpr ⟨hall, rfl⟩, List.map_map]
  rfl

theorem perform_screening
    (hwell : ∀ c ∈ cs, HashText.wellFormed c.row.entry.imageHash = true) :
    (screening now cs).perform n = some (.ok (n.screen now cs).1,
      { n with store := n.store.rejectEach (n.screen now cs).2 }) := by
  have hlook : (Operation.look fun n : Node =>
      (n.store.existing (cs.map (·.row.entry.imageHash))).mapError Fault.store).perform n =
      some (.ok (n.store.existingOf (cs.map (·.row.hash))), n) := by
    rw [perform_look, existing_of_wellFormed hwell]
    rfl
  rw [screening, perform_bind hlook]
  dsimp only
  rw [perform_bind (perform_rejectAll _ n)]
  rfl

/-- A batch of what screening accepts is accepted by the validator, unless it is too small. -/
theorem violation_eq_none (hauthorized : ∀ allowed,
      n.settings.authorizedSubmitters = some allowed → n.settings.nodeId ∈ allowed)
    (hmost : Number.le (Number.ofNat cs.length) n.settings.batchSizeMax = true)
    (hmany : ¬ n.TooFew (n.screen now cs).1.length) :
    n.violation now (n.batchOf (n.screen now cs).1).transaction.received = none := by
  have hsublist := Batching.screen_sublist (n.store.existingOf (cs.map (·.row.hash))) now [] cs
  obtain ⟨hkept, hnodup⟩ :=
    Batching.screen_kept (n.store.existingOf (cs.map (·.row.hash))) now [] cs
  change (n.screen now cs).1.Sublist cs at hsublist
  change ∀ c ∈ (n.screen now cs).1, _ at hkept
  change ((n.screen now cs).1.map (·.row.hash)).Nodup at hnodup
  generalize (n.screen now cs).1 = kept at *
  have hentries : kept.map (·.row.entry) = (kept.map (·.row)).map (·.entry) := by
    rw [List.map_map]
    rfl
  rw [batchOf, hentries]
  refine Rules.validate_eq_none.mpr
    (Rules.accepts_transaction hauthorized (List.forall_mem_map.mpr ?_) ?_ ?_ ?_)
  · exact fun c hc => (hkept c hc).2.2
  · rw [List.map_map]
    exact hnodup
  · refine Store.existingOf_eq_nil.mpr fun r hr hmem => ?_
    obtain ⟨row, hrow, hhash⟩ := List.mem_map.mp hmem
    obtain ⟨c, hc, rfl⟩ := List.mem_map.mp hrow
    have hasked : c.row.hash ∈ cs.map (·.row.hash) := List.mem_map_of_mem (hsublist.subset hc)
    exact (hkept c hc).1 (Store.mem_existingOf.mpr ⟨hasked, r, hr, hhash.symm⟩)
  · have hsize : Number.le (Number.ofNat kept.length) n.settings.batchSizeMax = true :=
      Number.le_trans (Number.ofNat_mono hsublist.length_le) hmost
    have hsmall : ¬ Number.lt (Number.ofNat kept.length) n.ruleOptions.batchSizeMin = true := hmany
    have hlarge : ¬ Number.lt n.ruleOptions.batchSizeMax (Number.ofNat kept.length) = true :=
      Number.not_lt_of_le hsize
    rw [List.length_map, Rules.checkSize, if_neg hsmall, if_neg hlarge]

/-- A candidate for whose dropping there is a reason breaks the batch of those before it. -/
theorem exists_violation_of_dropped {before : List Submission} {c : Submission}
    {reason : Batching.DropReason}
    (h : Batching.dropReason (n.store.existingOf (cs.map (·.row.hash)))
      (before.map (·.row.hash)) now c.row.entry = some reason) :
    ∃ v, n.violation now (n.batchOf (before ++ [c])).transaction.received = some v ∧
      v.rule ≠ .batchSize := by
  rw [violation, Rules.validate_eq_or_checkSize]
  cases hother : Rules.validate n.ruleOptions.sizeless n.store.existingOf now
      (n.batchOf (before ++ [c])).transaction.received with
  | some v => exact ⟨v, rfl, Rules.sizeless_validate v hother⟩
  | none =>
    -- the batch breaks no rule but perhaps that on its size, so there is no reason to drop
    have haccepts := Rules.validate_eq_none.mp hother
    have hhashes : Store.lowerHashes (n.batchOf (before ++ [c])).transaction =
        before.map (·.row.hash) ++ [c.row.hash] := by
      have hrows := lowerHashes_transaction ((before ++ [c]).map (·.row)) n.settings.nodeId n.sign
      rw [List.map_map, List.map_map] at hrows
      exact hrows.trans List.map_append
    have hnodup := haccepts.nodup
    have hfresh := Store.existingOf_eq_nil.mp haccepts.fresh
    rw [hhashes] at hnodup hfresh
    have hnone : Batching.dropReason (n.store.existingOf (cs.map (·.row.hash)))
        (before.map (·.row.hash)) now c.row.entry = none := by
      refine Batching.dropReason_eq_none.mpr ⟨fun hmem => ?_, fun hmem => ?_, ?_⟩
      · obtain ⟨-, r, hr, he⟩ := Store.mem_existingOf.mp hmem
        exact hfresh r hr (he ▸ List.mem_append_right _ List.mem_cons_self)
      · exact (List.nodup_append.mp hnodup).2.2 _ hmem _ List.mem_cons_self rfl
      · refine haccepts.screenEntry_eq_none (List.mem_map.mpr ⟨c, ?_, rfl⟩)
        exact List.mem_append_right _ List.mem_cons_self
    cases hnone.symm.trans h

end Screen

end Node

namespace Operation

variable {I : Node → Prop} {R : Node → Node → Prop} {α β : Type} {P : α → Prop} {Q : β → Prop}

/-- From nodes with `I`, every step of the operation is one of `R`, and a result meets `P`. -/
def Gives (I : Node → Prop) (R : Node → Node → Prop) (op : Operation α) (P : α → Prop) : Prop :=
  op.run.Meets I R fun outcome => ∀ a, outcome = .ok a → P a

theorem Gives.pure {a : α} (h : P a) : Gives I R (pure a) P := by
  intro b hb
  obtain rfl := Except.ok.inj hb
  exact h

theorem Gives.atomic {act : Node → Except Fault α × Node}
    (h : ∀ n, I n → R n (act n).2 ∧ ∀ a, (act n).1 = .ok a → P a) :
    Gives I R (Activity.atomic act) P :=
  Activity.Meets.atomic h

theorem Gives.bind {op : Operation α} {f : α → Operation β} (hop : Gives I R op P)
    (hf : ∀ a, P a → Gives I R (f a) Q) : Gives I R (op >>= f) Q := by
  apply Activity.Meets.andThen hop
  intro outcome hP
  cases outcome with
  | error e => exact fun b hb => nomatch hb
  | ok a => exact hf a (hP a rfl)

end Operation

namespace Node

open Operation

section Cycle

variable {n : Node} {now : Number}

/-- A batch that the validator accepts, or a result without a rejected batch. -/
def Acceptable (n : Node) (now : Number) : CycleResult ⊕ Batching.Batch → Prop
  | .inl result => result.status ≠ .rejected
  | .inr batch => n.violation now batch.transaction.received = none

theorem rejectAll_gives (I : Node → Prop) (dropped : List (Submission × Batching.DropReason)) :
    (rejectAll dropped).Gives I SameRules fun _ => True := by
  induction dropped with
  | nil => exact Gives.pure trivial
  | cons d rest ih =>
    have hreject : Gives I SameRules (Operation.act fun n : Node => ((),
        { n with store := n.store.markRejected d.1.row.id d.2.message })) fun _ => True :=
      Gives.atomic fun m _ => ⟨⟨rfl, rfl⟩, fun _ _ => trivial⟩
    exact Gives.bind hreject fun _ _ => ih

theorem screening_gives (n : Node) (now : Number) (cs : List Submission) :
    (screening now cs).Gives n.SameRules SameRules (· = (n.screen now cs).1) := by
  have hlook : (Operation.look fun n : Node =>
      (n.store.existing (cs.map (·.row.entry.imageHash))).mapError Fault.store).Gives n.SameRules
      SameRules (· = n.store.existingOf (cs.map (·.row.hash))) := by
    refine Gives.atomic fun m hm => ⟨.refl m, fun onChain hlook => ?_⟩
    rw [(Store.existing_eq_ok.mp (mapError_eq_ok.mp hlook)).2, hm.existingOf, List.map_map]
    rfl
  refine Gives.bind hlook fun onChain hchain => ?_
  subst hchain
  exact Gives.bind (rejectAll_gives n.SameRules _) fun _ _ => Gives.pure rfl

theorem status_waiting_ne_rejected (kept : List Submission) :
    (waiting kept).status ≠ .rejected := by
  intro h
  by_cases hempty : kept.isEmpty = true
  · rw [waiting, if_pos hempty] at h
    cases h
  · rw [waiting, if_neg hempty] at h
    cases h

/-- The first half of a cycle ends with a batch that the validator accepts, or without one. -/
theorem assemble_gives (hauthorized : ∀ allowed,
      n.settings.authorizedSubmitters = some allowed → n.settings.nodeId ∈ allowed)
    (hlimited : ∀ rows : List SubmissionRow, Number.le (Number.ofNat
      (Store.limited n.settings.batchSizeMax rows).length) n.settings.batchSizeMax = true)
    (now : Number) : (assemble now).Gives n.SameRules SameRules (n.Acceptable now) := by
  have hread : (Operation.look fun n : Node =>
      (n.store.findReady n.settings.batchSizeMax).mapError Fault.submission).Gives n.SameRules
      SameRules fun cs =>
        Number.le (Number.ofNat cs.length) n.settings.batchSizeMax = true := by
    refine Gives.atomic fun m hm => ⟨.refl m, fun cs hlook => ?_⟩
    have hrows := Store.map_row_of_mapM_read (mapError_eq_ok.mp hlook)
    have hlength := hlimited (m.store.submissions.filter Store.isReady)
    rw [← hm.settings] at hlength ⊢
    rw [← List.length_map (f := fun c : Submission => c.row), hrows]
    exact hlength
  rw [assemble_eq]
  refine Gives.bind hread fun cs hmost => ?_
  split
  · exact Gives.pure nofun
  · refine Gives.bind (screening_gives n now cs) fun kept hkept => ?_
    subst hkept
    refine Gives.atomic fun m hm => ⟨.refl m, fun first hfirst => ?_⟩
    obtain rfl : m.assembled (n.screen now cs).1 = first := Except.ok.inj hfirst
    rw [assembled]
    split
    next => exact status_waiting_ne_rejected _
    next hmany =>
      rw [hm.settings] at hmany
      have hvalid := violation_eq_none hauthorized hmost hmany
      rw [← hm.received] at hvalid
      exact hvalid

/-- The outcome of a cycle is not that its batch was rejected. -/
def Unrejected (outcome : Except Fault CycleResult) : Prop :=
  ∀ result, outcome = .ok result → result.status ≠ .rejected

/-- After the check of a batch its cycle does not end with a rejection. -/
theorem commitValid_gives (network : Consensus.Network) (now : Number) (batch : Batching.Batch) :
    (do
      let some p ← propose network [batch.transaction] (some now)
        | return ⟨.idle, 0, none, none, none⟩
      let stored ← storeBlock p fun s block => .ok (s.markBatched batch.ids block.txIds.head?)
      broadcast network (some p.height)
      return ⟨.committed, batch.ids.length, some stored.block.height, stored.txIds.head?, none⟩ :
      Operation CycleResult).Gives (fun _ => True) (fun _ _ => True) (·.status ≠ .rejected) := by
  have hany : ∀ {α : Type} (act : Node → Except Fault α × Node),
      Gives (fun _ => True) (fun _ _ => True) (Activity.atomic act) fun _ => True :=
    fun act => Gives.atomic fun _ _ => ⟨trivial, fun _ _ => trivial⟩
  refine Gives.bind (Gives.bind (hany _) fun _ _ => hany _) fun p _ => ?_
  cases p with
  | none => exact Gives.pure nofun
  | some p => exact Gives.bind (hany _) fun _ _ => Gives.bind (hany _) fun _ _ => Gives.pure nofun

section Among

variable {α : Type} {P : α → Prop} {seen : List Node} {m : Node}

/-- As long as the others keep the rules the same, so does an operation that does on its own. -/
theorem Gives.guarded {op : Operation α} (h : op.Gives n.SameRules SameRules P)
    (hm : n.SameRules m) :
    op.run.Guarded SameRules (fun _ _ => True)
      (fun _ outcome m => n.SameRules m ∧ ∀ a, outcome = .ok a → P a) seen m :=
  Activity.Meets.guarded h (fun _ _ => SameRules.trans) (fun _ _ => SameRules.trans) hm

theorem guarded_bind {β : Type} {Q : β → Prop} {op : Operation α} {f : α → Operation β}
    (hop : op.Gives n.SameRules SameRules P) (hm : n.SameRules m)
    (hf : ∀ a seen m, P a → n.SameRules m → (f a).run.Guarded SameRules (fun _ _ => True)
      (fun _ outcome _ => ∀ b, outcome = .ok b → Q b) seen m) :
    (op >>= f).run.Guarded SameRules (fun _ _ => True)
      (fun _ outcome _ => ∀ b, outcome = .ok b → Q b) seen m := by
  refine Activity.Guarded.andThen SameRules.refl (Gives.guarded hop hm) ?_
  intro seen outcome k hparts
  obtain ⟨hk, hP⟩ := hparts
  cases outcome with
  | error e => exact fun _ _ b hb => nomatch hb
  | ok a => exact hf a seen k (hP a rfl) hk

end Among

/-- Among others that commit nothing, a batch that is accepted is still accepted when it comes to be
stored. -/
theorem commit_guarded_valid (network : Consensus.Network) {batch : Batching.Batch}
    (hvalid : n.violation now batch.transaction.received = none) {seen : List Node} {m : Node}
    (hm : n.SameRules m) :
    (commit network now batch).run.Guarded SameRules (fun _ _ => True)
      (fun _ outcome _ => Unrejected outcome) seen m := by
  have hlocked : ∀ seen k, n.SameRules k → (commitLocked network now batch).run.Guarded SameRules
      (fun _ _ => True) (fun _ outcome _ => Unrejected outcome) seen k := by
    intro seen k hk
    have hvalidate : (validate batch.transaction.received (some now)).Gives n.SameRules SameRules
        (· = none) := by
      refine Gives.atomic fun k hk => ⟨.refl k, fun v hv => ?_⟩
      rw [← Except.ok.inj hv, Option.getD_some, hk.violation, hvalid]
    refine guarded_bind hvalidate hk fun v seen k hv _ => ?_
    subst hv
    exact Activity.Meets.guarded_anywhere (commitValid_gives network now batch) seen k
  -- taking the lock and giving it back change nothing that the rules look at
  have hlock : ∀ {β : Type} (ready : Node → Bool) (act : Node → β × Node),
      (∀ k : Node, k.SameRules (act k).2) → ∀ seen k, n.SameRules k →
        (Activity.step ready act .done).Guarded SameRules (fun _ _ => True)
          (fun _ _ t => n.SameRules t) seen k := by
    intro β ready act hact seen k hk t ht _
    exact ⟨trivial, fun u hu => ((hk.trans ht).trans (hact t)).trans hu⟩
  refine Activity.Guarded.andThen SameRules.refl
    (hlock _ _ (fun _ => ⟨rfl, rfl⟩) seen m hm) fun seen ticket k hk => ?_
  refine Activity.Guarded.andThen SameRules.refl
    (hlock _ _ (fun _ => ⟨rfl, rfl⟩) seen k hk) fun seen _ k hk => ?_
  refine Activity.Guarded.andThen SameRules.refl (hlocked seen k hk) fun seen outcome k h => ?_
  exact fun _ _ _ => ⟨trivial, fun _ _ => h⟩

/-- Among others that commit nothing, a cycle does not come to have its batch rejected. -/
theorem batchingCycle_guarded_valid (network : Consensus.Network) (time : Option Number)
    (hauthorized : ∀ allowed,
      n.settings.authorizedSubmitters = some allowed → n.settings.nodeId ∈ allowed)
    (hlimited : ∀ rows : List SubmissionRow, Number.le (Number.ofNat
      (Store.limited n.settings.batchSizeMax rows).length) n.settings.batchSizeMax = true) :
    (batchingCycle network time).run.Guarded SameRules (fun _ _ => True)
      (fun _ outcome _ => Unrejected outcome) [] n := by
  have hclock : (Operation.look fun n => .ok n.seconds : Operation Number).Gives n.SameRules
      SameRules fun _ => True :=
    Gives.atomic fun m _ => ⟨.refl m, fun _ _ => trivial⟩
  refine guarded_bind hclock (.refl n) fun current seen m _ hm => ?_
  refine guarded_bind (assemble_gives hauthorized hlimited (time.getD current)) hm
    fun first seen m hfirst hm => ?_
  cases first with
  | inl result => exact fun _ _ r hr => Except.ok.inj hr ▸ hfirst
  | inr batch => exact commit_guarded_valid network hfirst hm

/-- Screening and the validator agree on some candidates, on every node with the same rules. What is
accepted makes a batch that breaks no rule, unless it is too small. Each candidate that is dropped
makes the batch of those accepted before it break a rule, and not the one on its size. -/
structure Agrees (n : Node) (now : Number) (cs : List Submission) : Prop where
  screens : (screening now cs).perform n = some (.ok (n.screen now cs).1,
    { n with store := n.store.rejectEach (n.screen now cs).2 })
  calm : n.SameRules { n with store := n.store.rejectEach (n.screen now cs).2 }
  accepts : ∀ m, n.SameRules m → ¬ m.TooFew (n.screen now cs).1.length →
    m.violation now (m.batchOf (n.screen now cs).1).transaction.received = none
  drops : (n.droppedAfter now cs).map (·.2) = (n.screen now cs).2.map (·.1)
  needs : ∀ m, n.SameRules m → ∀ d ∈ n.droppedAfter now cs, d.1 <+: (n.screen now cs).1 ∧
    ∃ v, m.violation now (m.batchOf (d.1 ++ [d.2])).transaction.received = some v ∧
      v.rule ≠ .batchSize

/-- A node that may submit its own batches screens as it validates: on candidates with well-formed
hashes, no more than a batch may hold, screening and the validator agree. So among others that
commit nothing no cycle ends with a rejected batch. -/
theorem screening_agrees (n : Node) (hauthorized : ∀ allowed,
      n.settings.authorizedSubmitters = some allowed → n.settings.nodeId ∈ allowed) :
    (∀ (now : Number) (cs : List Submission),
      (∀ c ∈ cs, HashText.wellFormed c.row.entry.imageHash = true) →
      Number.le (Number.ofNat cs.length) n.settings.batchSizeMax = true → n.Agrees now cs) ∧
    ((∀ rows : List SubmissionRow, Number.le (Number.ofNat
        (Store.limited n.settings.batchSizeMax rows).length) n.settings.batchSizeMax = true) →
      ∀ (network : Consensus.Network) (time : Option Number),
        (batchingCycle network time).run.Guarded SameRules (fun _ _ => True)
          (fun _ outcome _ => Unrejected outcome) [] n) := by
  refine ⟨fun now cs hwell hmost => ?_, fun hlimited network time =>
    batchingCycle_guarded_valid network time hauthorized hlimited⟩
  obtain ⟨hdrops, hneeds⟩ := Batching.droppedAfter_spec
    (n.store.existingOf (cs.map (·.row.hash))) now [] [] (fun _ => Iff.rfl) cs
  refine ⟨perform_screening hwell, sameRules_rejectEach n _, fun m hm hmany => ?_, hdrops,
    fun m hm d hd => ?_⟩
  · rw [TooFew, hm.settings] at hmany
    rw [hm.violation, hm.received]
    exact violation_eq_none hauthorized hmost hmany
  · obtain ⟨hpart, reason, hreason⟩ := hneeds d hd
    rw [hm.violation, hm.received]
    exact ⟨hpart, exists_violation_of_dropped hreason⟩

/-- Two submissions of one image: the second one is dropped, and would have broken the batch. -/
theorem screening_agrees_on_repeat :
    let first : Submission := ⟨waitingRow 1 'a', .certificate ⟨"certificate", "signature"⟩⟩
    let again : Submission := ⟨waitingRow 2 'a', .certificate ⟨"certificate", "signature"⟩⟩
    let n := queueing [first.row, again.row] 1 2
    (∃ m, (screening 120 [first, again]).perform n = some (.ok [first], m)) ∧
      n.violation 120 (n.batchOf [first]).transaction.received = none ∧
      (∃ v, n.violation 120 (n.batchOf [first, again]).transaction.received = some v ∧
        v.rule ≠ .batchSize) ∧
      (batchingCycle .silent (some 120)).run.Guarded SameRules (fun _ _ => True)
        (fun _ outcome _ => Unrejected outcome) [] n := by
  intro first again n
  have hbatches : n.Batches 2 :=
    batches_queueing (by decide) (by decide) (by decide) (Store.rowLimit_ofNat (by decide))
      (by decide)
  have hwell : ∀ c ∈ [first, again], HashText.wellFormed c.row.entry.imageHash = true := by decide
  have hscreen : n.screen 120 [first, again] = ([first], [(again, .repeated)]) := by decide +kernel
  have hdrops : n.droppedAfter 120 [first, again] = [([first], again)] := by decide +kernel
  have hmany : ¬ n.TooFew 1 := by
    unfold TooFew
    decide
  obtain ⟨hcandidates, hcycle⟩ := screening_agrees n hbatches.authorized
  have hagrees := hcandidates 120 [first, again] hwell (by decide)
  have hscreens := hagrees.screens
  have haccepts := hagrees.accepts n (.refl n)
  rw [hscreen] at hscreens haccepts
  have hneeds := hagrees.needs n (.refl n)
  rw [hdrops, List.forall_mem_singleton, List.singleton_append] at hneeds
  have hlimited := Store.length_limited_le (Store.rowLimit_ofNat (by decide : 2 ≤ _)) (by decide)
    (by decide) (by decide)
  exact ⟨⟨_, hscreens⟩, haccepts hmany, hneeds.2, hcycle hlimited .silent (some 120)⟩

end Cycle

end Node

end ImageLedger
