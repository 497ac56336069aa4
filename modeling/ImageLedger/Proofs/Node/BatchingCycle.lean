import ImageLedger.Proofs.Consensus.Engine
import ImageLedger.Proofs.Node.Guarded
import ImageLedger.Proofs.Store.Moves

namespace ImageLedger.Node

open Operation

/-- What the batcher relies on. -/
def BatcherRely (s t : Store) : Prop := (s.Healthy → t.Healthy) ∧ s.SettledKept t

theorem BatcherRely.refl (s : Store) : BatcherRely s s := ⟨id, .refl s⟩

theorem BatcherRely.trans {s t u : Store} (h : BatcherRely s t) (h' : BatcherRely t u) :
    BatcherRely s u :=
  ⟨fun hs => h'.1 (h.1 hs), h.2.trans h'.2⟩

/-- A submission was rejected with a reason. -/
def Rejected (s : Store) (c : Submission) : Prop :=
  ∃ row ∈ s.submissions, row.id = c.row.id ∧ row.status = .rejected ∧
    ∃ reason : Batching.DropReason, row.message = some reason.message

/-- A submission is in a block that was not there at first, the one that the result names. -/
def Committed (first s : Store) (result : Except Fault CycleResult) (c : Submission) : Prop :=
  ∃ row ∈ s.submissions, row.id = c.row.id ∧ row.status = .validated ∧ row.batched = true ∧
    ∃ tx ∈ s.transactions, row.txId = some tx.txId ∧ first.blocks.length ≤ tx.blockHeight ∧
      ∀ r, result = .ok r → r.txId = some tx.txId ∧ r.blockHeight = some tx.blockHeight

/-- Where a candidate stands once a cycle is over: in the new block, rejected, or still ready. -/
def CandidateSettled (first s : Store) (result : Except Fault CycleResult) (c : Submission) :
    Prop :=
  Committed first s result c ∨ Rejected s c ∨ s.Ready c.row

/-- The end of a cycle. Its second step is the one that reads the candidates. -/
def CycleEnd (result : Except Fault CycleResult) (seen : List Node) (s : Store) : Prop :=
  2 ≤ seen.length ∧ ∀ n cs, seen[1]? = some n →
    n.store.findReady n.settings.batchSizeMax = .ok cs →
    ∀ c ∈ cs, CandidateSettled n.store s result c

theorem Rejected.rely {s t : Store} {c : Submission} (h : Rejected s c) (hst : BatcherRely s t) :
    Rejected t c := by
  obtain ⟨row, hrow, hid, hstatus, hreason⟩ := h
  exact ⟨row, hst.2.rows row hrow (by simp [hstatus]), hid, hstatus, hreason⟩

theorem ready_rely {s t : Store} {row : SubmissionRow} (h : s.Ready row) (hst : BatcherRely s t) :
    t.Ready row := by
  obtain ⟨hrow, hstatus, hbatched⟩ := h
  exact ⟨hst.2.rows row hrow (by simp [hstatus]), hstatus, hbatched⟩

theorem Committed.rely {first s t : Store} {result : Except Fault CycleResult} {c : Submission}
    (h : Committed first s result c) (hst : BatcherRely s t) : Committed first t result c := by
  obtain ⟨row, hrow, hid, hstatus, hbatched, tx, htx, hrest⟩ := h
  exact ⟨row, hst.2.rows row hrow (by simp [hstatus]), hid, hstatus, hbatched, tx,
    hst.2.transactions tx htx, hrest⟩

theorem CandidateSettled.rely {first s t : Store} {result : Except Fault CycleResult}
    {c : Submission} (h : CandidateSettled first s result c) (hst : BatcherRely s t) :
    CandidateSettled first t result c := by
  rcases h with hc | hr | hw
  · exact Or.inl (hc.rely hst)
  · exact Or.inr (Or.inl (hr.rely hst))
  · exact Or.inr (Or.inr (ready_rely hw hst))

theorem getElem?_append_seen {seen : List Node} (h : 2 ≤ seen.length) (n : Node) :
    (seen ++ [n])[1]? = seen[1]? :=
  List.getElem?_append_left (by omega)

theorem steady_cycleEnd (result : Except Fault CycleResult) :
    Steady BatcherRely (CycleEnd result) where
  rely := fun seen s t h hst =>
    ⟨h.1, fun n cs hn hcs c hc => (h.2 n cs hn hcs c hc).rely hst⟩
  seen := by
    intro seen s m h
    have hlen := h.1
    constructor
    · simp only [List.length_append]
      omega
    · intro n cs hn
      rw [getElem?_append_seen h.1] at hn
      exact h.2 n cs hn

/-- A cycle under way: the submissions that are still to be dealt with are ready, and the other
candidates are rejected. -/
structure Underway (first : Node) (cs : List Submission) (waiting : List SubmissionRow)
    (seen : List Node) (s : Store) : Prop where
  healthy : s.Healthy
  length : 2 ≤ seen.length
  read : seen[1]? = some first
  found : first.store.findReady first.settings.batchSizeMax = .ok cs
  grown : first.store.blocks.length ≤ s.blocks.length
  nodup : (waiting.map (·.id)).Nodup
  ready : ∀ row ∈ waiting, s.Ready row
  fates : ∀ c ∈ cs, c.row ∈ waiting ∨ Rejected s c

section Underway

variable {first : Node} {cs : List Submission} {waiting : List SubmissionRow} {seen : List Node}
  {s t : Store}

theorem steady_underway (first : Node) (cs : List Submission) (waiting : List SubmissionRow) :
    Steady BatcherRely (Underway first cs waiting) where
  rely := fun seen s t h hst =>
    { h with
      healthy := hst.1 h.healthy
      grown := Nat.le_trans h.grown hst.2.blocks
      ready := fun row hrow => ready_rely (h.ready row hrow) hst
      fates := fun c hc => (h.fates c hc).imp id fun hr => hr.rely hst }
  seen := fun seen s n h =>
    { h with
      length := by
        have hlen := h.length
        simp only [List.length_append]
        omega
      read := by rw [getElem?_append_seen h.length, h.read] }

/-- Whatever a cycle under way results in, its candidates are settled. -/
theorem Underway.cycleEnd (h : Underway first cs waiting seen s)
    (result : Except Fault CycleResult) : CycleEnd result seen s := by
  refine ⟨h.length, fun n cs' hn hcs c hc => ?_⟩
  obtain rfl : first = n := Option.some.inj (h.read.symm.trans hn)
  obtain rfl : cs = cs' := Except.ok.inj (h.found.symm.trans hcs)
  rcases h.fates c hc with hw | hr
  · exact Or.inr (Or.inr (h.ready c.row hw))
  · exact Or.inr (Or.inl hr)

theorem Rejected.markRejected {row : SubmissionRow} {c : Submission} (hs : s.Healthy)
    (hrow : s.Ready row) (h : Rejected s c) (message : String) :
    Rejected (s.markRejected row.id message) c := by
  obtain ⟨other, hother, hid, hstatus, hreason⟩ := h
  refine ⟨other, Store.mem_updateRow hother fun he => ?_, hid, hstatus, hreason⟩
  rw [hs.tidy.eq_of_id hother hrow.1 he, hrow.2.1] at hstatus
  cases hstatus

/-- Rejecting one submission leaves the others waiting. -/
theorem Underway.reject {row : SubmissionRow} (h : Underway first cs (row :: waiting) seen s)
    (reason : Batching.DropReason) :
    Underway first cs waiting seen (s.markRejected row.id reason.message) := by
  have hrow := h.ready row List.mem_cons_self
  have hmove : s.BatchMove (s.markRejected row.id reason.message) := .reject _ hrow
  obtain ⟨hfresh, hnodup⟩ := List.nodup_cons.mp h.nodup
  refine { h with healthy := (hmove.keeps h.healthy).1, nodup := hnodup, ready := ?_, fates := ?_ }
  · intro other hother
    obtain ⟨hmem, hrest⟩ := h.ready other (List.mem_cons_of_mem row hother)
    have hne : other.id ≠ row.id := fun he => hfresh (List.mem_map.mpr ⟨other, hother, he⟩)
    exact ⟨Store.mem_updateRow hmem hne, hrest⟩
  · intro c hc
    rcases h.fates c hc with hw | hr
    · rcases List.mem_cons.mp hw with he | hw
      · refine Or.inr ⟨_, List.mem_map.mpr ⟨row, hrow.1, if_pos rfl⟩, ?_, rfl, reason, rfl⟩
        exact congrArg (·.id) he.symm
      · exact Or.inl hw
    · exact Or.inr (hr.markRejected h.healthy hrow reason.message)

theorem rejectAll_guarded {dropped : List (Submission × Batching.DropReason)} {n : Node}
    (h : Underway first cs (dropped.map (·.1.row) ++ waiting) seen n.store) :
    (rejectAll dropped).Guarded BatcherRely Store.BatchMove
      (fun seen x s => x = .ok () ∧ Underway first cs waiting seen s) seen n := by
  induction dropped generalizing seen n with
  | nil =>
    apply Guarded.pure
    exact fun t ht => ⟨rfl, (steady_underway first cs waiting).rely _ _ _ h ht⟩
  | cons d rest ih =>
    have hstep : (Operation.act fun n : Node => ((),
        { n with store := n.store.markRejected d.1.row.id d.2.message })).Guarded BatcherRely
        Store.BatchMove
        (fun seen x s => x = .ok () ∧ Underway first cs (rest.map (·.1.row) ++ waiting) seen s)
        seen n := by
      apply Guarded.atomic
      intro t ht
      have hsteady := steady_underway first cs (rest.map (·.1.row) ++ waiting)
      have ht' := (steady_underway first cs _).rely _ _ _ h ht
      have hready := ht'.ready d.1.row List.mem_cons_self
      refine ⟨.reject _ hready, fun u hu => ⟨rfl, hsteady.rely _ _ _ ?_ hu⟩⟩
      exact hsteady.seen _ _ t (ht'.reject d.2)
    apply Guarded.bind BatcherRely.refl hstep
    · exact fun seen _ m hm => ih hm.2
    · intro seen e s t hparts
      obtain ⟨he, -⟩ := hparts
      cases he

/-- Screening loses no candidate. -/
theorem perm_screen (onChain : List String) (now : Number) (accepted : List String)
    (cs : List Submission) :
    (((Batching.screen onChain now accepted cs).2.map (·.1)) ++
      (Batching.screen onChain now accepted cs).1).Perm cs := by
  induction cs generalizing accepted with
  | nil => exact List.Perm.nil
  | cons c rest ih =>
    simp only [Batching.screen]
    cases Batching.dropReason onChain accepted now c.row.entry with
    | some reason => exact (ih accepted).cons c
    | none => exact List.perm_middle.trans ((ih _).cons c)

theorem Underway.perm {waiting' : List SubmissionRow} (h : Underway first cs waiting seen s)
    (hperm : waiting'.Perm waiting) : Underway first cs waiting' seen s :=
  { h with
    nodup := (hperm.map (·.id)).nodup_iff.mpr h.nodup
    ready := fun row hrow => h.ready row (hperm.mem_iff.mp hrow)
    fates := fun c hc => (h.fates c hc).imp hperm.mem_iff.mpr id }

/-- A batch for submissions that wait. -/
structure Chosen (first : Node) (cs : List Submission) (batch : Batching.Batch)
    (rows : List SubmissionRow) (seen : List Node) (s : Store) : Prop
    extends Underway first cs rows seen s where
  ids : batch.ids = rows.map (·.id)
  hashes : Store.lowerHashes batch.transaction = rows.map (·.hash)

/-- What the first half of a cycle leaves: a batch for submissions that wait, or the end. -/
def Assembled (result : Except Fault (CycleResult ⊕ Batching.Batch)) (seen : List Node)
    (s : Store) : Prop :=
  match result with
  | .ok (.inr batch) => ∃ first cs rows, Chosen first cs batch rows seen s
  | .ok (.inl r) => CycleEnd (.ok r) seen s
  | .error e => CycleEnd (.error e) seen s

theorem Chosen.rely {batch : Batching.Batch} {rows : List SubmissionRow}
    (h : Chosen first cs batch rows seen s) (hst : BatcherRely s t) :
    Chosen first cs batch rows seen t :=
  ⟨(steady_underway first cs rows).rely _ _ _ h.toUnderway hst, h.ids, h.hashes⟩

theorem lowerHashes_transaction (rows : List SubmissionRow) (submitterId : String)
    (sign : String → String) :
    Store.lowerHashes (Batching.transaction (rows.map (·.entry)) submitterId sign) =
      rows.map (·.hash) := by
  simp only [Store.lowerHashes, Batching.transaction, List.map_map]
  apply List.map_congr_left
  intro row _
  exact HashText.lower_lower _

/-- What reading the candidates leaves: submissions that wait, all of them, or the end. -/
def Candidates (result : Except Fault (List Submission)) (seen : List Node) (s : Store) : Prop :=
  match result with
  | .ok cs => ∃ first, Underway first cs (cs.map (·.row)) seen s
  | .error e => CycleEnd (.error e) seen s

theorem candidates_guarded {n : Node} (h : n.store.Healthy) (hseen : seen.length = 1) :
    (Operation.look fun n : Node =>
      (n.store.findReady n.settings.batchSizeMax).mapError Fault.submission).Guarded BatcherRely
      Store.BatchMove (fun seen x s => Candidates x seen s) seen n := by
  apply Guarded.atomic
  intro t ht
  refine ⟨.idle t.store, fun u hu => ?_⟩
  have hat : (seen ++ [t])[1]? = some t := by
    rw [← hseen]
    exact List.getElem?_concat_length
  have hlen : 2 ≤ (seen ++ [t]).length := by
    simp only [List.length_append, List.length_singleton]
    omega
  have hhealthy := ht.1 h
  cases hfind : t.store.findReady t.settings.batchSizeMax with
  | error e =>
    simp only [hfind, Except.mapError]
    refine ⟨hlen, fun m cs hm hcs => ?_⟩
    obtain rfl : t = m := Option.some.inj (hat.symm.trans hm)
    rw [hfind] at hcs
    cases hcs
  | ok cs =>
    simp only [hfind, Except.mapError]
    obtain ⟨hmem, hnodup⟩ := hhealthy.tidy.of_read hfind
    have hstart : Underway t cs (cs.map (·.row)) (seen ++ [t]) t.store := by
      refine ⟨hhealthy, hlen, hat, hfind, Nat.le_refl _, ?_, ?_, ?_⟩
      · rw [List.map_map]
        exact hnodup
      · intro row hrow
        obtain ⟨c, hc, rfl⟩ := List.mem_map.mp hrow
        obtain ⟨hin, hwanted⟩ := hmem c hc
        simp only [Store.isReady, Bool.and_eq_true, decide_eq_true_eq,
          Bool.not_eq_true'] at hwanted
        exact ⟨hin, hwanted⟩
      · exact fun c hc => Or.inl (List.mem_map_of_mem hc)
    exact ⟨t, (steady_underway t cs _).rely _ _ _ hstart hu⟩

/-- The first half of a cycle, from the step that reads the candidates. -/
theorem assemble_guarded (now : Number) {n : Node} (h : n.store.Healthy) (hseen : seen.length = 1) :
    (assemble now).Guarded BatcherRely Store.BatchMove
      (fun seen x s => Assembled x seen s) seen n := by
  apply Guarded.bind BatcherRely.refl (candidates_guarded h hseen)
  · intro seen cs m hparts
    obtain ⟨first, hm⟩ := hparts
    cases cs.isEmpty with
    | true =>
      apply Guarded.pure
      intro t ht
      exact ((steady_underway first cs _).rely _ _ _ hm ht).cycleEnd _
    | false =>
      have hlook : Quiet (fun _ => True) (Operation.look fun n : Node =>
          (n.store.existing (cs.map (·.row.entry.imageHash))).mapError Fault.store).run :=
        Quiet.atomic fun _ => ⟨rfl, trivial⟩
      apply Guarded.bind BatcherRely.refl
        (Guarded.quiet (steady_underway first cs _) Store.BatchMove.idle hlook hm)
      · intro seen onChain m hparts
        obtain ⟨hm, -⟩ := hparts
        have hperm := perm_screen onChain now [] cs
        generalize Batching.screen onChain now [] cs = screened at hperm ⊢
        obtain ⟨kept, dropped⟩ := screened
        have hsplit : Underway first cs (dropped.map (·.1.row) ++ kept.map (·.row)) seen
            m.store := by
          apply hm.perm
          have hrows := hperm.map (·.row)
          rw [List.map_append, List.map_map] at hrows
          exact hrows
        apply Guarded.bind BatcherRely.refl (rejectAll_guarded hsplit)
        · intro seen _ m hparts
          obtain ⟨-, hm⟩ := hparts
          apply Guarded.atomic
          intro t ht
          have ht' := (steady_underway first cs _).rely _ _ _ hm ht
          have hnext := (steady_underway first cs _).seen _ _ t ht'
          refine ⟨.idle t.store, fun u hu => ?_⟩
          have hu' := (steady_underway first cs _).rely _ _ _ hnext hu
          dsimp only
          split
          · exact hu'.cycleEnd _
          · refine ⟨first, cs, kept.map (·.row), hu', ?_, ?_⟩
            · simp only [List.map_map]
              rfl
            · rw [← lowerHashes_transaction, List.map_map]
              rfl
        · intro seen e s t hparts
          obtain ⟨he, -⟩ := hparts
          cases he
      · intro seen e s t hparts ht
        obtain ⟨hs, -⟩ := hparts
        exact ((steady_underway first cs _).rely _ _ _ hs ht).cycleEnd _
  · exact fun seen e s t hs ht => (steady_cycleEnd (.error e)).rely seen s t hs ht

theorem transactions_of_propose {e : Consensus.Engine} {sign : String → String}
    {network : Consensus.Network} {tip : Option Tip} {txs : List BatchTransaction}
    {time : Number} {p : Proposal} (h : (e.propose sign network tip txs time).1 = .ok (some p)) :
    p.transactions = txs := by
  rw [Consensus.Engine.eq_of_propose h]
  rfl

theorem propose_quiet (network : Consensus.Network) (txs : List BatchTransaction)
    (time : Option Number) :
    Quiet (fun x => ∀ p, x = .ok (some p) → p.transactions = txs)
      (propose network txs time).run := by
  have hlook : Quiet (fun _ => True) (Operation.look fun n => .ok n.tip).run :=
    Quiet.atomic fun _ => ⟨rfl, trivial⟩
  apply Quiet.bind hlook
  · intro tip _
    apply Quiet.atomic
    intro n
    refine ⟨rfl, fun p hp => ?_⟩
    dsimp only at hp
    generalize hresult :
      n.engine.propose n.sign network tip txs (time.getD n.seconds) = result at hp
    obtain ⟨answer, engine⟩ := result
    cases answer with
    | error e => simp [Except.mapError] at hp
    | ok answer =>
      simp only [Except.mapError, Except.ok.injEq] at hp
      subst hp
      exact transactions_of_propose (by rw [hresult])
  · intro e _ p hp
    cases hp

theorem broadcast_quiet (network : Consensus.Network) (height : Option Number) :
    Quiet (fun _ => True) (broadcast network height).run :=
  Quiet.atomic fun _ => ⟨rfl, trivial⟩

theorem validate_quiet (tx : ReceivedBatch) (now : Option Number) :
    Quiet (fun _ => True) (validate tx now).run :=
  Quiet.atomic fun _ => ⟨rfl, trivial⟩

/-- The end of a cycle that names a stored block, or fails after it. -/
def Stored (stored : StoredBlock) (seen : List Node) (s : Store) : Prop :=
  ∀ result : Except Fault CycleResult, (∀ r, result = .ok r →
    r.txId = stored.txIds.head? ∧ r.blockHeight = some stored.block.height) →
    CycleEnd result seen s

theorem steady_stored (stored : StoredBlock) : Steady BatcherRely (Stored stored) where
  rely := fun seen s t h hst result hr => (steady_cycleEnd result).rely seen s t (h result hr) hst
  seen := fun seen s n h result hr => (steady_cycleEnd result).seen seen s n (h result hr)

/-- What the tables become when the block of a batch is stored: the batch is its only entry. -/
theorem exists_entry_of_storeBlock {batch : Batching.Batch} {p : Proposal} {nodeId : String}
    {stored : StoredBlock} {u : Store} (hp : p.transactions = [batch.transaction])
    (hstore : s.storeBlock nodeId p
      (fun s block => .ok (s.markBatched batch.ids block.txIds.head?)) = .ok (stored, u)) :
    ∃ e : Entry, e.batch = batch.transaction ∧ s.Accepts p [e] ∧
      stored = ⟨s.nextBlock p, [e.txId]⟩ ∧
      (s.extend nodeId p [e]).markBatched batch.ids (some e.txId) = u := by
  obtain ⟨entries, ha, rfl, hafter⟩ := Store.storeBlock_eq_ok.mp hstore
  have hbatches := ha.batches
  rw [hp] at hbatches
  obtain ⟨e, rfl, hbatch⟩ := List.map_eq_singleton_iff.mp hbatches
  exact ⟨e, hbatch, ha, rfl, Except.ok.inj hafter⟩

/-- What storing the block of a batch does: it is the batcher's move, and settles the candidates. -/
theorem Chosen.storeBlock {batch : Batching.Batch} {rows : List SubmissionRow} {p : Proposal}
    {nodeId : String} {stored : StoredBlock} {u : Store}
    (h : Chosen first cs batch rows seen s) (hp : p.transactions = [batch.transaction])
    (hstore : s.storeBlock nodeId p
      (fun s block => .ok (s.markBatched batch.ids block.txIds.head?)) = .ok (stored, u)) :
    s.BatchMove u ∧ Stored stored seen u := by
  obtain ⟨e, hbatch, ha, rfl, rfl⟩ := exists_entry_of_storeBlock hp hstore
  have hhashes : e.hashes = rows.map (·.hash) := by
    rw [← h.hashes, ← hbatch]
    rfl
  rw [h.ids]
  have hmove : s.BatchMove
      ((s.extend nodeId p [e]).markBatched (rows.map (·.id)) (some e.txId)) :=
    .batch nodeId ha h.ready hhashes
  refine ⟨hmove, fun result hresult => ⟨h.length, fun n cs' hn hcs c hc => ?_⟩⟩
  obtain rfl : first = n := Option.some.inj (h.read.symm.trans hn)
  obtain rfl : cs = cs' := Except.ok.inj (h.found.symm.trans hcs)
  have hheight : s.expected.1 = s.blocks.length := h.healthy.sound.linked.expected_height
  rcases h.fates c hc with hw | ⟨row, hrow, hid, hstatus, hreason⟩
  · obtain ⟨hmem, hvalid, -⟩ := h.ready c.row hw
    refine Or.inl ⟨Store.mark (rows.map (·.id)) e.txId c.row, ?_, ?_⟩
    · rw [Store.submissions_batch]
      exact List.mem_map_of_mem hmem
    · have hown : e.blockHeight = s.expected.1 := ha.heights e List.mem_cons_self
      have hgrown := h.grown
      rw [Store.mark, if_pos (List.mem_map_of_mem hw)]
      refine ⟨rfl, hvalid, rfl, e.row, ?_, rfl, ?_, ?_⟩
      · exact List.mem_append_right _ List.mem_cons_self
      · change first.store.blocks.length ≤ e.blockHeight
        omega
      · intro r hr
        obtain ⟨htx, hblock⟩ := hresult r hr
        refine ⟨htx, ?_⟩
        rw [hblock]
        exact congrArg some hown.symm
  · refine Or.inr (Or.inl ⟨row, ?_, hid, hstatus, hreason⟩)
    rw [Store.submissions_batch]
    refine List.mem_map.mpr ⟨row, hrow, ?_⟩
    rw [Store.mark, if_neg]
    intro hin
    have hready := h.ready row ((h.healthy.tidy.mem_map_id_iff h.ready hrow).mp hin)
    rw [hready.2.1] at hstatus
    cases hstatus

theorem steady_chosen (batch : Batching.Batch) :
    Steady BatcherRely fun seen s => ∃ first cs rows, Chosen first cs batch rows seen s where
  rely := by
    intro seen s t hparts hst
    obtain ⟨first, cs, rows, h⟩ := hparts
    exact ⟨first, cs, rows, h.rely hst⟩
  seen := by
    intro seen s n hparts
    obtain ⟨first, cs, rows, h⟩ := hparts
    exact ⟨first, cs, rows, (steady_underway first cs rows).seen seen s n h.toUnderway, h.ids,
      h.hashes⟩

/-- The step that stores the block of a batch names the block, or leaves the cycle without one. -/
theorem storeBatch_guarded {batch : Batching.Batch} {p : Proposal} {n : Node}
    (hp : p.transactions = [batch.transaction])
    (h : ∃ first cs rows, Chosen first cs batch rows seen n.store) :
    (storeBlock p fun s block => .ok (s.markBatched batch.ids block.txIds.head?)).Guarded
      BatcherRely Store.BatchMove (fun seen x s => match x with
        | .ok stored => Stored stored seen s
        | .error e => CycleEnd (.error e) seen s) seen n := by
  apply Guarded.atomic
  intro t ht
  have hsteady := steady_chosen batch
  obtain ⟨first, cs, rows, hc⟩ := hsteady.seen _ _ t (hsteady.rely _ _ _ h ht)
  cases hresult : t.store.storeBlock t.settings.nodeId p
      (fun s block => .ok (s.markBatched batch.ids block.txIds.head?)) with
  | error e =>
    simp only [hresult]
    exact ⟨.idle t.store, fun u hu => (hc.rely hu).cycleEnd _⟩
  | ok r =>
    simp only [hresult]
    obtain ⟨hmove, hstored⟩ := hc.storeBlock hp hresult
    exact ⟨hmove, fun u hu => (steady_stored r.1).rely _ _ _ hstored hu⟩

/-- The second half of a cycle under the lock. -/
theorem commitLocked_guarded (network : Consensus.Network) (now : Number) {batch : Batching.Batch}
    {n : Node} (h : ∃ first cs rows, Chosen first cs batch rows seen n.store) :
    (commitLocked network now batch).Guarded BatcherRely Store.BatchMove
      (fun seen x s => CycleEnd x seen s) seen n := by
  have hsteady := steady_chosen batch
  have hend : ∀ seen s t (result : Except Fault CycleResult),
      (∃ first cs rows, Chosen first cs batch rows seen s) → BatcherRely s t →
        CycleEnd result seen t := by
    intro seen s t result hparts hst
    obtain ⟨first, cs, rows, hc⟩ := hparts
    exact (hc.rely hst).cycleEnd result
  apply Guarded.bind BatcherRely.refl
    (Guarded.quiet hsteady Store.BatchMove.idle (validate_quiet _ _) h)
  · intro seen violation m hparts
    obtain ⟨hm, -⟩ := hparts
    cases violation with
    | some v => exact Guarded.pure fun t ht => hend _ _ _ _ hm ht
    | none =>
      apply Guarded.bind BatcherRely.refl
        (Guarded.quiet hsteady Store.BatchMove.idle (propose_quiet _ _ _) hm)
      · intro seen proposal m hparts
        obtain ⟨hm, hproposal⟩ := hparts
        cases proposal with
        | none => exact Guarded.pure fun t ht => hend _ _ _ _ hm ht
        | some p =>
          have hstore := storeBatch_guarded (hproposal p rfl) hm
          apply Guarded.bind BatcherRely.refl hstore
          · intro seen stored m hstored
            apply Guarded.bind BatcherRely.refl (Guarded.quiet (steady_stored stored)
              Store.BatchMove.idle (broadcast_quiet _ _) hstored)
            · intro seen _ m hparts
              obtain ⟨hm, -⟩ := hparts
              apply Guarded.pure
              intro t ht
              refine (steady_stored stored).rely _ _ _ hm ht _ fun r hr => ?_
              obtain rfl := Except.ok.inj hr
              exact ⟨rfl, rfl⟩
            · intro seen e s t hparts ht
              obtain ⟨hs, -⟩ := hparts
              refine (steady_stored stored).rely _ _ _ hs ht _ fun r hr => ?_
              cases hr
          · exact fun seen e s t hs ht => (steady_cycleEnd (.error e)).rely seen s t hs ht
      · intro seen e s t hparts ht
        obtain ⟨hs, -⟩ := hparts
        exact hend _ _ _ _ hs ht
  · intro seen e s t hparts ht
    obtain ⟨hs, -⟩ := hparts
    exact hend _ _ _ _ hs ht

theorem commit_guarded (network : Consensus.Network) (now : Number) {batch : Batching.Batch}
    {n : Node} (h : ∃ first cs rows, Chosen first cs batch rows seen n.store) :
    (commit network now batch).Guarded BatcherRely Store.BatchMove
      (fun seen x s => CycleEnd x seen s) seen n :=
  Guarded.exclusively BatcherRely.refl Store.BatchMove.idle (steady_chosen batch) steady_cycleEnd
    (fun _ _ hm => commitLocked_guarded network now hm) h

end Underway

/-- All that a batching cycle does to the tables are moves of the batcher, and it settles every
candidate that it reads. -/
theorem batchingCycle_guarded (network : Consensus.Network) (now : Option Number) {n : Node}
    (h : n.store.Healthy) :
    (batchingCycle network now).Guarded BatcherRely Store.BatchMove
      (fun seen x s => CycleEnd x seen s) [] n := by
  have hclock : (Operation.look fun n => .ok n.seconds : Operation Number).Guarded BatcherRely
      Store.BatchMove (fun seen x s => (∃ a, x = .ok a) ∧ seen.length = 1 ∧ s.Healthy) [] n := by
    apply Guarded.atomic
    exact fun t ht => ⟨.idle t.store, fun u hu => ⟨⟨t.seconds, rfl⟩, rfl, hu.1 (ht.1 h)⟩⟩
  apply Guarded.bind BatcherRely.refl hclock
  · intro seen current m hparts
    obtain ⟨-, hlen, hm⟩ := hparts
    apply Guarded.bind BatcherRely.refl (assemble_guarded _ hm hlen)
    · intro seen first m hfirst
      cases first with
      | inl r => exact Guarded.pure fun t ht => (steady_cycleEnd (.ok r)).rely _ _ _ hfirst ht
      | inr batch => exact commit_guarded network _ hfirst
    · exact fun seen e s t hs ht => (steady_cycleEnd (.error e)).rely seen s t hs ht
  · intro seen e s t hparts
    obtain ⟨⟨a, ha⟩, -⟩ := hparts
    cases ha

end ImageLedger.Node
