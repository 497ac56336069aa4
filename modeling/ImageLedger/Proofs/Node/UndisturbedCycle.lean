import ImageLedger.Proofs.Node.AcceptedBatch
import ImageLedger.Proofs.Node.Screening

namespace ImageLedger.Node

open Operation

/-- The batch of some submissions. -/
def batchOf (n : Node) (kept : List Submission) : Batching.Batch :=
  ⟨Batching.transaction (kept.map (·.row.entry)) n.settings.nodeId n.sign, kept.map (·.row.id)⟩

/-- The block that a node alone proposes for a transaction. -/
def proposalOf (n : Node) (now : Number) (tx : BatchTransaction) : Proposal :=
  Consensus.buildProposal n.sign n.engine.validatorId n.tip [tx] now

/-- So many submissions are fewer than a batch needs. -/
def TooFew (n : Node) (count : Nat) : Prop :=
  Number.lt (Number.ofNat count) n.settings.batchSizeMin = true

/-- A node alone that may submit its own batches and is not making a block, with sizes of batches
that start at one or more. It reads `most` rows for a batch, a limit that the database takes. -/
structure Batches (n : Node) (most : Nat) : Prop where
  mode : n.engine.mode = .single
  authorized : ∀ allowed, n.settings.authorizedSubmitters = some allowed →
    n.settings.nodeId ∈ allowed
  free : n.lock.queue = []
  least : Number.le 1 n.settings.batchSizeMin = true
  ordered : Number.le n.settings.batchSizeMin n.settings.batchSizeMax = true
  whole : n.settings.batchSizeMax.isInteger = true
  limit : Store.rowLimit n.settings.batchSizeMax = some most
  taken : most < 2 ^ 63

variable {n : Node} {most : Nat} {now : Number}

theorem Batches.tooFew_zero (h : n.Batches most) : n.TooFew 0 :=
  Number.lt_of_lt_of_le (by decide) h.least

section Assemble

theorem perform_rejectAll (dropped : List (Submission × Batching.DropReason)) (n : Node) :
    (rejectAll dropped).perform n =
      some (.ok (), { n with store := n.store.rejectEach dropped }) := by
  induction dropped generalizing n with
  | nil => rfl
  | cons d rest ih => exact ih { n with store := n.store.markRejected d.1.row.id d.2.message }

/-- The result of a cycle that keeps too few submissions for a batch. -/
def waiting (kept : List Submission) : CycleResult :=
  ⟨if kept.isEmpty then .idle else .waiting, kept.length, none, none, none⟩

/-- What the first half of a cycle ends with. -/
def assembled (n : Node) (kept : List Submission) : CycleResult ⊕ Batching.Batch :=
  if Number.lt (Number.ofNat kept.length) n.settings.batchSizeMin then .inl (waiting kept)
  else .inr (n.batchOf kept)

theorem perform_assemble (hqueued : n.store.Queued)
    (hlimit : Store.rowLimit n.settings.batchSizeMax = some most) (hleast : n.TooFew 0)
    (now : Number) : (assemble now).perform n = some (.ok (n.assembled (n.screened now).1),
      { n with store := n.store.rejectEach (n.screened now).2 }) := by
  obtain ⟨cs, hcs, hrows, hscreened⟩ := exists_screened hqueued hlimit now
  have hlook : (Operation.look fun m : Node =>
      (m.store.findReady m.settings.batchSizeMax).mapError Fault.submission).perform n =
      some (.ok cs, n) := by
    rw [perform_look, hcs]
    rfl
  rw [assemble, perform_bind hlook, hscreened]
  by_cases hempty : cs = []
  · have hnone : n.assembled [] = .inl ⟨.idle, 0, none, none, none⟩ := if_pos hleast
    subst hempty
    rw [Batching.screen, hnone]
    rfl
  · have hwell : ∀ h ∈ cs.map (·.row.entry.imageHash), HashText.wellFormed h = true := by
      intro h hh
      obtain ⟨d, hd, rfl⟩ := List.mem_map.mp hh
      have hmem : d.row ∈ (n.store.submissions.filter Store.isReady).take most := by
        rw [← hrows]
        exact List.mem_map_of_mem hd
      exact hqueued.hashes d.row (Store.mem_filter_isReady.mp (List.mem_of_mem_take hmem))
    have hexisting : (Operation.look fun m : Node =>
        (m.store.existing (cs.map (·.row.entry.imageHash))).mapError Fault.store).perform n =
        some (.ok (n.store.existingOf (cs.map (·.row.hash))), n) := by
      rw [perform_look, Store.existing, Store.normalizeAll_eq_ok.mpr ⟨hwell, rfl⟩, List.map_map]
      rfl
    rw [if_neg (by simpa using hempty), perform_bind hexisting]
    dsimp only
    rw [perform_bind (perform_rejectAll _ n)]
    rfl

end Assemble

section Commit

variable {batch : Batching.Batch} {stored : StoredBlock} {t : Store} {e : StoreError}

/-- What marks the submissions of a batch together with its block. -/
def marking (batch : Batching.Batch) : Store.AfterBlock :=
  fun s block => .ok (s.markBatched batch.ids block.txIds.head?)

/-- What the tables make of the block of a batch. -/
def storeBatch (n : Node) (now : Number) (batch : Batching.Batch) :
    Except StoreError (StoredBlock × Store) :=
  n.store.storeBlock n.settings.nodeId (n.proposalOf now batch.transaction) (marking batch)

/-- The result of a cycle whose batch is stored. -/
def committed (batch : Batching.Batch) (stored : StoredBlock) : CycleResult :=
  ⟨.committed, batch.ids.length, some stored.block.height, stored.txIds.head?, none⟩

/-- A batch that is accepted goes straight to the tables. -/
theorem perform_commitLocked (network : Consensus.Network) (hmode : n.engine.mode = .single)
    (hvalid : n.violation now batch.transaction.received = none) :
    (commitLocked network now batch).perform n = (do
      let stored ← storeBlock (n.proposalOf now batch.transaction) (marking batch)
      broadcast network (some (n.proposalOf now batch.transaction).height)
      return committed batch stored : Operation CycleResult).perform n := by
  have hvalidate : (validate batch.transaction.received (some now)).perform n =
      some (.ok none, n) := by
    rw [validate, perform_look, Option.getD_some, hvalid]
  have hpropose := perform_propose_single hmode network
    (List.cons_ne_nil batch.transaction []) (some now)
  rw [commitLocked, perform_bind hvalidate]
  dsimp only
  rw [perform_bind hpropose]
  rfl

theorem perform_storeBlock_error {p : Proposal} {after : Store.AfterBlock}
    (h : n.store.storeBlock n.settings.nodeId p after = .error e) :
    (storeBlock p after).perform n = some (.error (.store e), n) := by
  change some _ = _
  simp only [h]

theorem perform_commitLocked_ok (network : Consensus.Network) (hmode : n.engine.mode = .single)
    (hvalid : n.violation now batch.transaction.received = none)
    (hstore : n.storeBatch now batch = .ok (stored, t)) :
    (commitLocked network now batch).perform n =
      some (.ok (committed batch stored), { n with store := t }) := by
  have hbroadcast : (broadcast network
      (some (n.proposalOf now batch.transaction).height)).perform { n with store := t } =
      some (.ok (), { n with store := t }) := by
    rw [broadcast, perform_attempt, Consensus.Engine.broadcast, hmode]
    rfl
  rw [perform_commitLocked network hmode hvalid]
  exact (perform_bind (storeBlock_run hstore)).trans (perform_bind hbroadcast)

theorem perform_commitLocked_error (network : Consensus.Network) (hmode : n.engine.mode = .single)
    (hvalid : n.violation now batch.transaction.received = none)
    (hstore : n.storeBatch now batch = .error e) :
    (commitLocked network now batch).perform n = some (.error (.store e), n) := by
  rw [perform_commitLocked network hmode hvalid]
  exact perform_bind_error (perform_storeBlock_error hstore)

/-- The second half of a cycle, for a batch that is accepted: it is stored and committed, or the
tables refuse it. -/
theorem perform_commit (network : Consensus.Network) (hmode : n.engine.mode = .single)
    (hfree : n.lock.queue = []) (hvalid : n.violation now batch.transaction.received = none) :
    (∃ e, n.storeBatch now batch = .error e ∧ (commit network now batch).perform n =
      some (.error (.store e), { n with lock := ⟨[], n.lock.tickets + 1⟩ })) ∨
    ∃ stored t, n.storeBatch now batch = .ok (stored, t) ∧ (commit network now batch).perform n =
      some (.ok (committed batch stored),
        { n with store := t, lock := ⟨[], n.lock.tickets + 1⟩ }) := by
  -- the lock has no part in what the tables make of the batch
  cases hstore : n.storeBatch now batch with
  | error e =>
    have hlocked := perform_commitLocked_error (n := { n with lock := n.lock.enter.2 }) network
      hmode hvalid hstore
    exact Or.inl ⟨e, rfl, perform_exclusively (m := { n with lock := n.lock.enter.2 }) hfree hlocked
      rfl⟩
  | ok r =>
    have hlocked := perform_commitLocked_ok (n := { n with lock := n.lock.enter.2 }) network
      hmode hvalid hstore
    exact Or.inr ⟨r.1, r.2, rfl, perform_exclusively
      (m := { n with store := r.2, lock := n.lock.enter.2 }) hfree hlocked rfl⟩

end Commit

/-- A cycle is its first half and, with a batch, its second. -/
theorem perform_batchingCycle (h : n.Batches most) (hqueued : n.store.Queued)
    (network : Consensus.Network) (now : Number) :
    (batchingCycle network (some now)).perform n =
      (match n.assembled (n.screened now).1 with
        | .inl result => pure result
        | .inr batch => commit network now batch : Operation CycleResult).perform
        { n with store := n.store.rejectEach (n.screened now).2 } := by
  have hclock : (Operation.look fun m => .ok m.seconds).perform n = some (.ok n.seconds, n) := rfl
  rw [batchingCycle, perform_bind hclock]
  exact perform_bind (perform_assemble hqueued h.limit h.tooFew_zero now)

/-- A cycle that keeps too few submissions commits none. -/
theorem perform_waiting (h : n.Batches most) (hqueued : n.store.Queued)
    (network : Consensus.Network) (hfew : n.TooFew (n.screened now).1.length) :
    (batchingCycle network (some now)).perform n = some (.ok (waiting (n.screened now).1),
      { n with store := n.store.rejectEach (n.screened now).2 }) := by
  have hassembled : n.assembled (n.screened now).1 = .inl (waiting (n.screened now).1) :=
    if_pos hfew
  rw [perform_batchingCycle h hqueued network now, hassembled]
  rfl

end ImageLedger.Node
