import ImageLedger.Proofs.Node.Attempts
import ImageLedger.Proofs.Node.CommittedCycle
import ImageLedger.Proofs.Node.Pipeline
import ImageLedger.Proofs.Node.Sections

namespace ImageLedger

namespace Store

/-- No image record goes away. -/
def ImagesKept (s t : Store) : Prop := ∀ r ∈ s.images, r ∈ t.images

end Store

namespace Node

/-- A batch is refused as a whole, without a trace in the tables. -/
def Refuses (network : Consensus.Network) (now : Number) (batch : Batching.Batch) (n : Node) :
    Prop :=
  (commitLocked network now batch).Guarded Store.ImagesKept Eq
    (fun _ result _ => ∃ v : Violation,
      result = .ok ⟨.rejected, batch.ids.length, none, none, some v.message⟩) [] n

theorem refuses_of_onChain {n : Node} {batch : Batching.Batch} {text : String} {r : ImageRecord}
    (htext : text ∈ batch.transaction.imageHashes) (hr : r ∈ n.store.images)
    (hnorm : HashText.normalize? text = some r.imageHash) (network : Consensus.Network)
    (now : Number) : Refuses network now batch n := by
  intro t ht _
  obtain ⟨v, hv⟩ := exists_violation (n := t) htext (ht r hr) hnorm now
  refine ⟨rfl, ?_⟩
  dsimp only [Option.getD_some]
  rw [hv]
  exact fun u hu => ⟨v, rfl⟩

end Node

namespace Pipeline

/-- Submissions and ledger agree, the batcher's transactions are as large as they say, a cycle that
is over has settled its candidates, and a batch with a hash that is on the ledger by the time its
locked section starts is refused. -/
structure Safe (p : Pipeline) : Prop where
  batched : ∀ row ∈ p.node.store.submissions, row.batched = true → row.status = .validated ∧
    ∃ r, p.node.store.image? row.entry.imageHash = some r ∧ row.txId = some r.txId
  unbatched : ∀ row ∈ p.node.store.submissions, row.batched = false → row.txId = none
  distinct : p.node.store.submissions.Pairwise fun a b =>
    a.batched = true → b.batched = true → a.hash ≠ b.hash
  sizes : ∀ tx ∈ p.committed, tx ∈ p.node.store.transactions ∧
    tx.batchSize = p.node.store.carrying tx.txId
  settled : ∀ run result, p.batching = some run → run.rest = .done result →
    Node.CycleEnd result run.seen p.node.store
  refused : ∀ network now (batch : Batching.Batch),
    (∃ text ∈ batch.transaction.imageHashes, (p.node.store.image? text).isSome = true) →
    Node.Refuses network now batch p.node

theorem Consistent.settled {p : Pipeline} (h : p.Consistent) {run : CycleRun CycleResult}
    {result : Except Fault CycleResult} (hrun : p.batching = some run)
    (hdone : run.rest = .done result) : Node.CycleEnd result run.seen p.node.store := by
  have hkeeps := h.batching run hrun
  unfold BatcherKeeps at hkeeps
  rw [hdone] at hkeeps
  exact hkeeps p.node (Node.BatcherRely.refl _)

section Runs

variable {start n m : Node} {batching : Option (CycleRun CycleResult)}
  {validation : Option (CycleRun (ValidationCounts × List Authority.Call))}
  {others : List (Activity.Some Node)} {committed : List LedgerTransaction} {seen : List Node}

/-- A part of the batcher's cycle with nothing else in between: the transactions that it stores are
kept. -/
theorem Reach.run_batching {α : Type} {a : Activity Node α}
    {f : α → Activity Node (Except Fault CycleResult)} {x : α}
    (h : Reach start ⟨n, some ⟨seen, a.andThen f⟩, validation, others, committed⟩)
    (hrun : a.run n = some (x, m)) : ∃ seen' committed',
      Reach start ⟨m, some ⟨seen', f x⟩, validation, others, committed'⟩ ∧
      committed.length + m.store.transactions.length ≤
        committed'.length + n.store.transactions.length := by
  refine Activity.kept_of_run (P := fun b m => ∃ seen' committed',
    Reach start ⟨m, some ⟨seen', b⟩, validation, others, committed'⟩ ∧
    committed.length + m.store.transactions.length ≤
      committed'.length + n.store.transactions.length) ?_ hrun ⟨seen, committed, h, le_rfl⟩
  rintro b c s t ⟨seen', committed', hreach, hlength⟩ hadv
  refine ⟨_, _, hreach.step (.batch rfl hadv), ?_⟩
  rw [List.length_append, List.length_drop]
  dsimp only
  omega

/-- The validator's cycle with nothing else in between. -/
theorem Reach.run_validation
    {a : Activity Node (Except Fault (ValidationCounts × List Authority.Call))}
    {x : Except Fault (ValidationCounts × List Authority.Call)}
    (h : Reach start ⟨n, batching, some ⟨seen, a⟩, others, committed⟩)
    (hrun : a.run n = some (x, m)) :
    ∃ seen', Reach start ⟨m, batching, some ⟨seen', .done x⟩, others, committed⟩ := by
  refine Activity.kept_of_run (P := fun b m => ∃ seen',
    Reach start ⟨m, batching, some ⟨seen', b⟩, others, committed⟩) ?_ hrun ?_
  · rintro b c s t ⟨seen', hreach⟩ hadv
    exact ⟨_, hreach.step (.validate rfl hadv)⟩
  · rw [Activity.andThen_done]
    exact ⟨seen, h⟩

/-- What was begun last beside the workers takes a step. -/
theorem Reach.step_other {α : Type} {a b : Activity Node α}
    (h : Reach start ⟨n, batching, validation, ⟨α, a⟩ :: others, committed⟩)
    (hadv : a.advance n = some (b, m)) :
    Reach start ⟨m, batching, validation, ⟨α, b⟩ :: others, committed⟩ :=
  h.step (@Step.other _ [] _ _ _ _ _ rfl hadv)

/-- It may go on to its end with nothing else in between. -/
theorem Reach.run_other {α : Type} {a : Activity Node α} {x : α}
    (h : Reach start ⟨n, batching, validation, ⟨α, a⟩ :: others, committed⟩)
    (hrun : a.run n = some (x, m)) :
    Reach start ⟨m, batching, validation, ⟨α, .done x⟩ :: others, committed⟩ := by
  refine Activity.kept_of_run (P := fun b m =>
    Reach start ⟨m, batching, validation, ⟨α, b⟩ :: others, committed⟩) ?_ hrun ?_
  · exact fun {b c s t} hreach hadv => hreach.step_other hadv
  · rwa [Activity.andThen_done]

end Runs

section Beside

open Node

/-- A node alone that makes batches of one, at two minutes past. -/
def serving (rows : List SubmissionRow) (receipts : Nat) (cache : Authority.Cache) : Node :=
  { queueing rows 1 1 with clock := 120000, receipts, cache }

def certified : Draft :=
  Intake.draft (waitingRow 1 'a').entry "camera" "authority"
    (.certificate ⟨"certificate", "signature"⟩)

/-- The draft as it is staged. -/
def stagedRow : SubmissionRow :=
  { waitingRow 1 'a' with
    status := .pending
    nextRetryAt := some 120
    createdAt := 120 }

/-- The submission once the authority has confirmed it. -/
def confirmedRow : SubmissionRow :=
  { waitingRow 1 'a' with
    message := some "Certificate validated"
    retryCount := 1
    createdAt := 120 }

def confirmed : Submission := ⟨confirmedRow, .certificate ⟨"certificate", "signature"⟩⟩

/-- The batch of the submission. -/
def confirmedBatch : Batching.Batch := (queueing [confirmedRow] 1 1).batchOf [confirmed]

def confirms (_ : Nat) : Authority.Reply := .response 200 (some "\x7b\"valid\":true\x7d")

theorem exists_perform_stage : ∃ answer, (stage certified).perform (serving [] 0 lone.cache) =
    some (answer, serving [stagedRow] 1 lone.cache) :=
  ⟨_, rfl⟩

/-- A cycle of the validator finds the submission confirmed. -/
theorem exists_perform_confirming : ∃ answer cache,
    (validationCycle confirms none none).perform (serving [stagedRow] 1 lone.cache) =
      some (answer, serving [confirmedRow] 1 cache) := by
  let n := serving [stagedRow] 1 lone.cache
  let due : List Submission := [⟨stagedRow, .certificate ⟨"certificate", "signature"⟩⟩]
  have hdue : n.dueRows none none = [stagedRow] := by decide +kernel
  have hread : (n.dueRows none none).mapM SubmissionRow.read = .ok due := by
    rw [hdue]
    rfl
  obtain ⟨cache, hcycle⟩ := exists_perform_cycle (n := n) (by decide) hread confirms
  have hrows : n.store.submissions.map (Validation.settledBy n.settings.validationMaxAttempts
      (none.getD n.seconds) (Validation.attempts n.endpoints n.clock confirms n.cache 0 due)) =
      [confirmedRow] := by decide +kernel
  rw [settled] at hcycle
  dsimp only at hcycle
  rw [hrows] at hcycle
  exact ⟨_, cache, hcycle⟩

section Confirmed

variable (cache : Authority.Cache)

theorem screened_confirmed :
    (serving [confirmedRow] 1 cache).screened 120 = ([confirmed], []) := by
  have hscreened : (queueing [confirmedRow] 1 1).screened 120 = ([confirmed], []) := by
    decide +kernel
  have hstore : (serving [confirmedRow] 1 cache).store = (queueing [confirmedRow] 1 1).store :=
    rfl
  have hsettings : (serving [confirmedRow] 1 cache).settings =
      (queueing [confirmedRow] 1 1).settings := rfl
  rw [← hscreened, screened, screened, hstore, hsettings]

theorem not_tooFew_confirmed : ¬ (serving [confirmedRow] 1 cache).TooFew 1 := by
  change ¬ (queueing [confirmedRow] 1 1).TooFew 1
  unfold TooFew
  decide

theorem draining_confirmed : (serving [confirmedRow] 1 cache).Draining 1 := by
  have hbatches : (queueing [confirmedRow] 1 1).Batches 1 :=
    batches_queueing (by decide) (by decide) (by decide) (Store.rowLimit_ofNat (by decide))
      (by decide)
  have hqueued : (queueing [confirmedRow] 1 1).store.Queued :=
    queued_queueing 1 1 (by decide) (by decide +kernel)
  have hfits : Number.le (queueing [confirmedRow] 1 1).settings.batchSizeMin (Number.ofNat 1) =
      true := by decide
  have hroom : (queueing [confirmedRow] 1 1).store.blocks.length +
      (queueing [confirmedRow] 1 1).store.readyCount ≤ Number.wholeLimit := by decide
  -- the clock, the receipts and the cache have no part in it
  obtain ⟨hmode, hauthorized, hfree, hleast, hordered, hwhole, hlimit, htaken⟩ := hbatches
  exact ⟨⟨hmode, hauthorized, hfree, hleast, hordered, hwhole, hlimit, htaken⟩, hfits,
    Store.sound_empty.sameLedger rfl, hqueued, hroom⟩

/-- The first half of a cycle makes a batch of the submission. -/
theorem perform_assemble_confirmed : (assemble 120).perform (serving [confirmedRow] 1 cache) =
    some (.ok (.inr confirmedBatch), serving [confirmedRow] 1 cache) := by
  have hdraining := draining_confirmed cache
  have hassembled : (serving [confirmedRow] 1 cache).assembled [confirmed] =
      .inr confirmedBatch := if_neg (not_tooFew_confirmed cache)
  have hassemble := perform_assemble hdraining.queued hdraining.limit hdraining.tooFew_zero 120
  rwa [screened_confirmed, hassembled] at hassemble

/-- The second half commits it. -/
theorem exists_perform_commit_confirmed : ∃ result m txId,
    (commit .silent 120 confirmedBatch).perform (serving [confirmedRow] 1 cache) =
      some (.ok result, m) ∧ result.status = .committed ∧ m.lock.queue = [] ∧
    m.ruleOptions = (queueing [] 1 1).ruleOptions ∧ m.sign = id ∧
    m.store.submissions = [{ confirmedRow with batched := true, txId := some txId }] ∧
    m.store.blocks.length = 1 ∧ m.store.transactions.length = 1 := by
  have hmany : ¬ (serving [confirmedRow] 1 cache).TooFew
      ((serving [confirmedRow] 1 cache).screened 120).1.length := by
    rw [screened_confirmed]
    exact not_tooFew_confirmed cache
  have hcases := (draining_confirmed cache).perform_commit (by decide) .silent hmany
  rw [screened_confirmed] at hcases
  rcases hcases with ⟨e, m, -, hclash⟩ | ⟨stored, t, -, hcommit⟩
  · exact absurd hclash (not_clashes_empty (serving [confirmedRow] 1 cache) rfl 120)
  · obtain ⟨e, p, hwrote⟩ := wrote_of_perform_commit hcommit rfl
    obtain ⟨hblocks, htransactions, -, -, hrows⟩ := hwrote.tables (Store.sameLedger_refl _)
    refine ⟨_, _, e.txId, hcommit, rfl, rfl, rfl, rfl, ?_, ?_, ?_⟩
    · rw [hrows]
      rfl
    · rw [hblocks]
      rfl
    · rw [htransactions]
      rfl

end Confirmed

/-- The submission is staged and confirmed. -/
theorem exists_reach_confirmed : ∃ cache validation others, Reach (serving [] 0 lone.cache)
    ⟨serving [confirmedRow] 1 cache, none, validation, others, []⟩ := by
  obtain ⟨answer, hstage⟩ := exists_perform_stage
  obtain ⟨counts, cache, hvalidate⟩ := exists_perform_confirming
  have hstaged : Reach (serving [] 0 lone.cache)
      ⟨serving [stagedRow] 1 lone.cache, none, none, [⟨_, .done answer⟩], []⟩ :=
    (Reach.start.step (.beginOther _ (.stage certified))).run_other hstage
  obtain ⟨seen, hconfirmed⟩ := (hstaged.step
    (.beginValidation confirms none none fun run hrun => nomatch hrun)).run_validation hvalidate
  exact ⟨cache, _, _, hconfirmed⟩

/-- It is read for a batch, and then submitted directly as well. Both are about to take the lock. -/
theorem exists_reach_beside : ∃ cache seen validation others committed,
    Reach (serving [] 0 lone.cache) ⟨serving [confirmedRow] 1 cache,
      some ⟨seen, (commit .silent 120 confirmedBatch).run.andThen .done⟩, validation,
      ⟨_, (exclusively (submitLocked .silent (loneInput.transaction id))).run⟩ :: others,
      committed⟩ := by
  obtain ⟨cache, validation, others, hconfirmed⟩ := exists_reach_confirmed
  have hbegun : Reach (serving [] 0 lone.cache) ⟨serving [confirmedRow] 1 cache,
      some ⟨[], (batchingCycle .silent none).run⟩, validation, others, []⟩ :=
    hconfirmed.step (.beginBatching .silent none fun run hrun => nomatch hrun)
  obtain ⟨seen, committed, hread, -⟩ := (hbegun.step (.batch rfl rfl)).run_batching
    (a := (assemble 120).run) (perform_assemble_confirmed cache)
  refine ⟨cache, seen, validation, others, committed, ?_⟩
  rw [Activity.andThen_done]
  exact (hread.step (.beginOther _ (.submit .silent loneInput))).step_other rfl

/-- Once the submission is batched its hash cannot be submitted directly. -/
theorem exists_alreadyOnChain_confirmed {p : Pipeline} (h : p.Consistent) {txId : Nat}
    (hrow : { confirmedRow with batched := true, txId := some txId } ∈ p.node.store.submissions)
    (hoptions : p.node.ruleOptions = (queueing [] 1 1).ruleOptions) (hsign : p.node.sign = id) :
    ∃ hashes, p.node.violation p.node.seconds (loneInput.transaction p.node.sign).received =
      some (.alreadyOnChain hashes) := by
  obtain ⟨-, r, hr, hhash, -⟩ := h.healthy.tidy.batched _ hrow rfl
  have hnorm : HashText.normalize? loneInput.imageHash = some confirmedRow.hash := by decide
  refine exists_alreadyOnChain (List.mem_singleton_self loneInput.hash) hr ?_ ?_ _
  · rw [SubmitInput.normalize?_hash, hhash]
    exact hnorm
  · rw [hoptions, hsign]
    decide +kernel

/-- The batch is committed before the direct submission takes the lock. -/
theorem exists_reach_batched : ∃ p row hashes, Reach (serving [] 0 lone.cache) p ∧
    p.node.store.submissions = [row] ∧ row.batched = true ∧ p.node.store.blocks.length = 1 ∧
    1 ≤ p.committed.length ∧
    (∃ run result, p.batching = some run ∧ run.rest = .done (.ok result) ∧
      result.status = .committed) ∧
    (⟨Except Fault SubmitResult, .done (.error (.rejected (.alreadyOnChain hashes)))⟩ :
      Activity.Some Node) ∈ p.others := by
  obtain ⟨cache, seen, validation, others, committed, hbeside⟩ := exists_reach_beside
  obtain ⟨result, m, txId, hcommit, hstatus, hfree, hoptions, hsign, hrows, hblocks, htxs⟩ :=
    exists_perform_commit_confirmed cache
  obtain ⟨seen', committed', hcommitted, hmore⟩ := hbeside.run_batching hcommit
  obtain ⟨hashes, hviolation⟩ := exists_alreadyOnChain_confirmed (hcommitted.consistent rfl)
    (hrows ▸ List.mem_singleton_self _) hoptions hsign
  have hrejected : (submit .silent loneInput).perform m = _ :=
    perform_submit_rejected hfree hviolation
  rw [perform_submit_eq, hsign] at hrejected
  have hcount : 1 ≤ committed'.length := by
    rw [htxs] at hmore
    exact (Nat.le_add_left _ _).trans hmore
  exact ⟨_, _, hashes, hcommitted.run_other hrejected, hrows, rfl, hblocks, hcount,
    ⟨_, _, rfl, rfl, hstatus⟩, List.mem_cons_self⟩

end Beside

/-- In every state that workers and senders reach together from empty tables, the pipeline is
safe. -/
theorem safe_of_reach (start : Node) (hempty : start.store = Store.empty) (p : Pipeline)
    (h : Reach start p) : p.Safe := by
  have hp := h.consistent hempty
  obtain ⟨entries, hrec⟩ := hp.healthy.sound.recorded
  refine ⟨?_, hp.healthy.tidy.unbatched, hp.healthy.tidy.distinct, hp.sizes, ?_, ?_⟩
  · intro row hrow hbatched
    obtain ⟨hstatus, r, hr, hhash, hid⟩ := hp.healthy.tidy.batched row hrow hbatched
    exact ⟨hstatus, r, hrec.image?_eq_some hr hhash, hid⟩
  · exact fun run result hrun hdone => hp.settled hrun hdone
  · intro network now batch honChain
    obtain ⟨text, htext, hsome⟩ := honChain
    obtain ⟨r, hr, hnorm⟩ := Store.isSome_image?.mp hsome
    exact Node.refuses_of_onChain htext hr hnorm network now

/-- A submission is confirmed and batched. A direct submission of its hash, which had begun when
the batch was committed, is rejected, and so is every later batch with the hash. -/
theorem safe_beside_submit : ∃ (p : Pipeline) (row : SubmissionRow) (hashes : List String),
    p.Safe ∧ p.node.store.submissions = [row] ∧ row.status = .validated ∧ row.batched = true ∧
    p.node.store.blocks.length = 1 ∧ 1 ≤ p.committed.length ∧
    (∃ run result, p.batching = some run ∧ run.rest = .done (.ok result) ∧
      result.status = .committed) ∧
    (⟨Except Fault SubmitResult, .done (.error (.rejected (.alreadyOnChain hashes)))⟩ :
      Activity.Some Node) ∈ p.others ∧
    ∀ network now (batch : Batching.Batch),
      row.entry.imageHash ∈ batch.transaction.imageHashes →
      Node.Refuses network now batch p.node := by
  obtain ⟨p, row, hashes, hreach, hrows, hbatched, hblocks, hcommitted, hcycle, hsubmit⟩ :=
    exists_reach_batched
  have hsafe := safe_of_reach (serving [] 0 Node.lone.cache) rfl p hreach
  obtain ⟨hstatus, r, himage, -⟩ := hsafe.batched row (hrows ▸ List.mem_singleton_self row) hbatched
  refine ⟨p, row, hashes, hsafe, hrows, hstatus, hbatched, hblocks, hcommitted, hcycle, hsubmit,
    fun network now batch hmem => hsafe.refused network now batch ⟨_, hmem, ?_⟩⟩
  rw [himage]
  rfl

end Pipeline

end ImageLedger
