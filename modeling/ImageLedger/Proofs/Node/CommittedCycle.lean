import ImageLedger.Proofs.Node.BatchingProgress
import ImageLedger.Proofs.Node.DirectSubmission

namespace ImageLedger

/-- The record and the proof of an entry at a place of a transaction: they carry the entry's own
fields, its time rounded down to the minute and its links in small letters. The proof leads to the
root of the transaction as long as places are counted exactly. -/
structure BatchEntry.RecordedAs (entry : BatchEntry) (tx : LedgerTransaction) (i : Nat)
    (r : ImageRecord) (proof : StoredProof) : Prop where
  imageHash : r.imageHash = HashText.lower entry.imageHash
  txId : r.txId = tx.txId
  blockHeight : r.blockHeight = tx.blockHeight
  submitter : r.submitterId = tx.submitterId
  timestamp : ∀ seconds : Nat, entry.timestamp = .finite seconds →
    r.timestamp = Number.ofNat (60 * (seconds / 60))
  level : r.modificationLevel = entry.modificationLevel
  parent : r.parentImageHash = entry.parentImageHash.map HashText.lower
  gps : r.gpsHash = entry.gpsHash.map HashText.lower
  owner : r.ownerHash = entry.ownerHash.map HashText.lower
  proven : proof.txId = tx.txId ∧ proof.imageHash = r.imageHash
  leafIndex : proof.leafIndex = i
  leads : tx.batchSize ≤ Merkle.leafLimit → ∃ path root, proof.pathText = Store.pathText path ∧
    tx.merkleRoot = some root ∧ Merkle.verify r.imageHash path root = true

section Entries

variable {rows : List SubmissionRow} {submitterId : String} {sign : String → String} {e : Entry}
  {now : Number} {i : Nat} {row : SubmissionRow}

theorem Entry.hashes_of_transaction
    (he : e.batch = Batching.transaction (rows.map (·.entry)) submitterId sign) :
    e.hashes = rows.map (·.hash) := by
  rw [Entry.hashes, he, Node.lowerHashes_transaction]

/-- What is at one place of the columns of a batch belongs to one submission. -/
theorem imageRow_transaction (hrow : rows[i]? = some row) (height txId : Nat) :
    Store.imageRow height txId (Batching.transaction (rows.map (·.entry)) submitterId sign) i
      row.hash =
    { imageHash := row.hash
      txId := txId
      blockHeight := height
      timestamp := roundToMinute row.entry.timestamp
      modificationLevel := row.entry.modificationLevel
      parentImageHash := row.entry.parentImageHash.bind HashText.normalize?
      submitterId := submitterId
      gpsHash := row.entry.gpsHash.bind HashText.normalize?
      ownerHash := row.entry.ownerHash.bind HashText.normalize? } := by
  simp [Store.imageRow, Batching.transaction, hrow]

/-- Each entry of a batch has its own record and proof, at its own place. -/
theorem Entry.exists_recordedAs
    (he : e.batch = Batching.transaction (rows.map (·.entry)) submitterId sign)
    (hscreen : ∀ row ∈ rows, Rules.screenEntry now row.entry.received = none)
    (hrow : rows[i]? = some row) : ∃ r proof, e.images[i]? = some r ∧
      e.proofs[i]? = some proof ∧ row.entry.RecordedAs e.row i r proof := by
  have hhash : e.hashes[i]? = some row.hash := by
    rw [Entry.hashes_of_transaction he, List.getElem?_map, hrow, Option.map_some]
  have himage : e.images[i]? =
      some (Store.imageRow e.blockHeight e.txId e.batch i row.hash) := by
    rw [Entry.images, List.getElem?_mapIdx, hhash, Option.map_some]
  obtain ⟨path, hproof⟩ := Entry.exists_proof_at hhash
  obtain ⟨-, hfields, -⟩ := Rules.screenEntry_eq_none.mp (hscreen row (List.mem_of_getElem? hrow))
  simp only [Rules.checkFields, Option.or_eq_none_iff] at hfields
  obtain ⟨-, hparent, hgps, howner⟩ := hfields
  rw [he, imageRow_transaction hrow] at himage
  refine ⟨_, _, himage, hproof, ?_⟩
  refine
    { imageHash := rfl
      txId := rfl
      blockHeight := rfl
      submitter := ?_
      timestamp := ?_
      level := rfl
      parent := SubmitInput.normalize?_of_checkLink hparent
      gps := SubmitInput.normalize?_of_checkLink hgps
      owner := SubmitInput.normalize?_of_checkLink howner
      proven := ⟨rfl, rfl⟩
      leafIndex := rfl
      leads := ?_ }
  · rw [Entry.row, he]
    rfl
  · intro seconds hseconds
    rw [hseconds, roundToMinute_natCast]
  · intro hcount
    obtain ⟨tree, way, htree, -, hat, -, hverify⟩ := Entry.getElem?_proofs hcount hhash
    rw [hproof, Option.some.injEq] at hat
    refine ⟨way, tree.root, ?_, ?_, hverify⟩
    · rw [hat]
    · rw [Entry.row, htree, Option.map_some]

end Entries

namespace Store

variable {s : Store} {dropped : List (Submission × Batching.DropReason)} {row : SubmissionRow}

/-- What becomes of a row when some submissions are rejected. -/
def settle : List (Submission × Batching.DropReason) → SubmissionRow → SubmissionRow
  | [], row => row
  | (c, reason) :: rest, row =>
    if row.id = c.row.id then { row with status := .rejected, message := some reason.message }
    else settle rest row

theorem settle_of_not_mem (h : row.id ∉ dropped.map (·.1.row.id)) : settle dropped row = row := by
  induction dropped with
  | nil => rfl
  | cons d rest ih =>
    rw [List.map_cons, List.mem_cons, not_or] at h
    rw [settle, if_neg h.1, ih h.2]

theorem settle_of_mem (hnodup : (dropped.map (·.1.row.id)).Nodup)
    {d : Submission × Batching.DropReason} (hd : d ∈ dropped) (h : row.id = d.1.row.id) :
    settle dropped row = { row with status := .rejected, message := some d.2.message } := by
  induction dropped with
  | nil => cases hd
  | cons e rest ih =>
    obtain ⟨hfresh, hnodup⟩ := List.nodup_cons.mp hnodup
    rcases List.mem_cons.mp hd with rfl | hd
    · rw [settle, if_pos h]
    · have hne : row.id ≠ e.1.row.id := fun he =>
        hfresh (List.mem_map.mpr ⟨d, hd, h.symm.trans he⟩)
      rw [settle, if_neg hne, ih hnodup hd]

/-- Rejecting submissions one after another settles each row by itself. -/
theorem submissions_rejectEach (hnodup : (dropped.map (·.1.row.id)).Nodup) :
    (s.rejectEach dropped).submissions = s.submissions.map (settle dropped) := by
  induction dropped generalizing s with
  | nil => exact (List.map_id' s.submissions).symm
  | cons d rest ih =>
    obtain ⟨hfresh, hnodup⟩ := List.nodup_cons.mp hnodup
    rw [Store.rejectEach, ih hnodup, markRejected, updateRow, List.map_map]
    refine List.map_congr_left fun row _ => ?_
    rw [Function.comp_apply, settle]
    by_cases hid : row.id = d.1.row.id
    · rw [if_pos hid, if_pos hid]
      refine settle_of_not_mem fun hmem => hfresh ?_
      change row.id ∈ _ at hmem
      rwa [hid] at hmem
    · rw [if_neg hid, if_neg hid]

end Store

namespace Node

open Operation

section Inversion

variable {n m : Node} {network : Consensus.Network} {now : Number} {result : CycleResult}
  {batch : Batching.Batch}

theorem status_waiting_ne {kept : List Submission} : (waiting kept).status ≠ .committed := by
  intro h
  by_cases hempty : kept.isEmpty = true
  · rw [waiting, if_pos hempty] at h
    cases h
  · rw [waiting, if_neg hempty] at h
    cases h

/-- The first half of a cycle ends without a commit, or with the batch of what screening keeps of
the submissions that were read, once the others are rejected. -/
theorem perform_assemble_cases {first : CycleResult ⊕ Batching.Batch}
    (h : (assemble now).perform n = some (.ok first, m)) :
    (∃ r, first = .inl r ∧ r.status ≠ .committed) ∨
      ∃ cs, n.store.findReady n.settings.batchSizeMax = .ok cs ∧
        m = { n with store := n.store.rejectEach (n.screened now).2 } ∧
        first = .inr (n.batchOf (n.screened now).1) := by
  rw [assemble, perform_bind_eq_ok] at h
  obtain ⟨cs, k, hread, h⟩ := h
  rw [perform_look_eq_ok, mapError_eq_ok] at hread
  obtain ⟨hread, rfl⟩ := hread
  by_cases hempty : cs.isEmpty = true
  · rw [if_pos hempty] at h
    obtain ⟨rfl, -⟩ := perform_pure_eq_ok.mp h
    exact Or.inl ⟨_, rfl, fun hr => by cases hr⟩
  · rw [if_neg hempty] at h
    obtain ⟨onChain, k, hlook, h⟩ := perform_bind_eq_ok.mp h
    rw [perform_look_eq_ok, mapError_eq_ok] at hlook
    obtain ⟨hlook, rfl⟩ := hlook
    have hscreened : n.screened now = Batching.screen onChain now [] cs := by
      rw [screened, hread, (Store.existing_eq_ok.mp hlook).2, List.map_map]
      rfl
    rw [← hscreened] at h
    obtain ⟨_, k, hreject, h⟩ := perform_bind_eq_ok.mp h
    rw [perform_rejectAll, Option.some.injEq, Prod.mk.injEq] at hreject
    obtain ⟨-, rfl⟩ := hreject
    obtain ⟨hfirst, rfl⟩ := perform_look_eq_ok.mp h
    have hassembled : n.assembled (n.screened now).1 = first := Except.ok.inj hfirst
    rw [assembled] at hassembled
    split_ifs at hassembled
    · exact Or.inl ⟨_, hassembled.symm, status_waiting_ne⟩
    · exact Or.inr ⟨cs, hread, rfl, hassembled.symm⟩

/-- What storing a block leaves. -/
theorem perform_storeBlock_eq_ok {p : Proposal} {after : Store.AfterBlock} {stored : StoredBlock} :
    (storeBlock p after).perform n = some (.ok stored, m) ↔
      n.store.storeBlock n.settings.nodeId p after = .ok (stored, m.store) ∧
        m = { n with store := m.store } := by
  constructor
  · intro h
    replace h := Option.some.inj h
    cases hstore : n.store.storeBlock n.settings.nodeId p after with
    | error e =>
      simp only [hstore] at h
      cases h
    | ok r =>
      simp only [hstore, Prod.mk.injEq, Except.ok.injEq] at h
      obtain ⟨rfl, rfl⟩ := h
      exact ⟨rfl, rfl⟩
  · intro hparts
    obtain ⟨hstore, hm⟩ := hparts
    rw [hm]
    exact storeBlock_run hstore

theorem eq_of_perform_propose {txs : List BatchTransaction} {time : Option Number} {p : Proposal}
    (h : (propose network txs time).perform n = some (.ok (some p), m)) :
    p.transactions = txs ∧ m = { n with engine := m.engine } := by
  rw [propose, perform_bind_eq_ok] at h
  obtain ⟨tip, k, hlook, h⟩ := h
  obtain ⟨-, rfl⟩ := perform_look_eq_ok.mp hlook
  rw [perform_attempt, Option.some.injEq, Prod.mk.injEq, mapError_eq_ok] at h
  obtain ⟨hanswer, rfl⟩ := h
  exact ⟨transactions_of_propose hanswer, rfl⟩

/-- What a committed batch leaves: one block, with one entry that is the batch, and the submissions
of the batch marked with the entry's number. -/
structure Wrote (s : Store) (nodeId : String) (batch : Batching.Batch) (e : Entry) (p : Proposal)
    (result : CycleResult) (t : Store) : Prop where
  entry : e.batch = batch.transaction
  proposed : p.transactions = [batch.transaction]
  accepts : s.Accepts p [e]
  store : (s.extend nodeId p [e]).markBatched batch.ids (some e.txId) = t
  result : result = ⟨.committed, batch.ids.length, some s.expected.1, some e.txId, none⟩

/-- The second half of a cycle that commits has written its batch. -/
theorem wrote_of_perform_commit (h : (commit network now batch).perform n = some (.ok result, m))
    (hstatus : result.status = .committed) :
    ∃ e p, Wrote n.store n.settings.nodeId batch e p result m.store := by
  obtain ⟨k, hlocked, rfl⟩ := exists_perform_of_exclusively h
  rw [commitLocked, perform_bind_eq_ok] at hlocked
  obtain ⟨violation, t, hvalidate, hlocked⟩ := hlocked
  obtain ⟨-, rfl⟩ := perform_look_eq_ok.mp hvalidate
  cases violation with
  | some v =>
    obtain ⟨rfl, -⟩ := perform_pure_eq_ok.mp hlocked
    cases hstatus
  | none =>
    dsimp only at hlocked
    obtain ⟨proposal, t, hpropose, hlocked⟩ := perform_bind_eq_ok.mp hlocked
    cases proposal with
    | none =>
      obtain ⟨rfl, -⟩ := perform_pure_eq_ok.mp hlocked
      cases hstatus
    | some p =>
      dsimp only at hlocked
      obtain ⟨hp, ht⟩ := eq_of_perform_propose hpropose
      obtain ⟨stored, u, hstore, hlocked⟩ := perform_bind_eq_ok.mp hlocked
      obtain ⟨hstored, hu⟩ := perform_storeBlock_eq_ok.mp hstore
      obtain ⟨_, v, hannounce, hlocked⟩ := perform_bind_eq_ok.mp hlocked
      rw [broadcast, perform_attempt, Option.some.injEq, Prod.mk.injEq] at hannounce
      obtain ⟨-, rfl⟩ := hannounce
      obtain ⟨rfl, rfl⟩ := perform_pure_eq_ok.mp hlocked
      rw [ht] at hstored
      obtain ⟨e, hbatch, ha, rfl, hm⟩ := exists_entry_of_storeBlock hp hstored
      exact ⟨e, p, hbatch, hp, ha, hm, rfl⟩

/-- A cycle that commits has written the batch of what screening keeps. -/
theorem wrote_of_perform_cycle {time : Option Number}
    (h : (batchingCycle network time).perform n = some (.ok result, m))
    (hstatus : result.status = .committed) : ∃ cs e p,
      n.store.findReady n.settings.batchSizeMax = .ok cs ∧
      Wrote (n.store.rejectEach (n.screened (time.getD n.seconds)).2) n.settings.nodeId
        (n.batchOf (n.screened (time.getD n.seconds)).1) e p result m.store := by
  rw [batchingCycle, perform_bind_eq_ok] at h
  obtain ⟨current, k, hclock, h⟩ := h
  rw [perform_look_eq_ok, Except.ok.injEq] at hclock
  obtain ⟨rfl, rfl⟩ := hclock
  obtain ⟨first, k, hfirst, h⟩ := perform_bind_eq_ok.mp h
  rcases perform_assemble_cases hfirst with ⟨r, rfl, hr⟩ | ⟨cs, hread, rfl, rfl⟩
  · obtain ⟨rfl, -⟩ := perform_pure_eq_ok.mp h
    exact absurd hstatus hr
  · obtain ⟨e, p, hwrote⟩ := wrote_of_perform_commit h hstatus
    exact ⟨cs, e, p, hread, hwrote⟩

end Inversion

/-- What becomes of a row of the table: what is accepted is marked with the transaction, what else
was read is rejected for the reason that screening gives, and nothing else changes. -/
inductive Moved (n : Node) (now : Number) (txId : Nat) : SubmissionRow → SubmissionRow → Prop
  | batched {row : SubmissionRow} : row ∈ n.accepted now →
      Moved n now txId row { row with batched := true, txId := some txId }
  | rejected {c : Submission} {reason : Batching.DropReason} : c.row ∈ n.candidates →
      c.row ∉ n.accepted now → (c, reason) ∈ (n.screened now).2 →
      Moved n now txId c.row { c.row with
        status := .rejected
        message := some reason.message }
  | unread {row : SubmissionRow} : row ∉ n.candidates → Moved n now txId row row

/-- The cycle moves exactly the accepted submissions onto the ledger, in the order of their numbers
and each with its own fields. -/
structure CommitsAccepted (n : Node) (now : Number) (result : CycleResult) (m : Node)
    (tx : LedgerTransaction) : Prop where
  named : result.blockHeight = some tx.blockHeight ∧ result.txId = some tx.txId
  count : result.count = (n.accepted now).length
  read : (n.accepted now).Sublist n.candidates
  inOrder : ((n.accepted now).map (·.id)).Pairwise (· < ·)
  block : ∃ b, m.store.blocks = n.store.blocks ++ [b] ∧ b.height = tx.blockHeight ∧
    b.transactionCount = 1
  transaction : m.store.transactions = n.store.transactions ++ [tx] ∧
    tx.submitterId = n.settings.nodeId ∧ tx.batchSize = result.count
  records : ∃ images proofs, m.store.images = n.store.images ++ images ∧
    m.store.proofs = n.store.proofs ++ proofs ∧ images.length = result.count ∧
    proofs.length = result.count ∧ ∀ (i : Nat) (row : SubmissionRow),
      (n.accepted now)[i]? = some row → ∃ r proof, images[i]? = some r ∧
        proofs[i]? = some proof ∧ row.entry.RecordedAs tx i r proof
  submissions : List.Forall₂ (Moved n now tx.txId) n.store.submissions m.store.submissions

section Commit

variable {n m : Node} {now : Number} {txId : Nat}

/-- No number is both dropped and accepted, and none twice. -/
theorem Splits.nodup_ids (h : n.Splits now) (hids : (n.store.submissions.map (·.id)).Nodup) :
    ((n.screened now).2.map (·.1.row.id) ++ (n.accepted now).map (·.id)).Nodup := by
  have hperm := h.perm.map (·.id)
  rw [List.map_append, List.map_map] at hperm
  exact hperm.nodup_iff.mpr ((n.candidates_sublist.map _).nodup hids)

/-- Rejecting what is dropped and marking what is accepted moves every row as it should be. -/
theorem Splits.moved (h : n.Splits now) (hids : (n.store.submissions.map (·.id)).Nodup)
    {row : SubmissionRow} (hrow : row ∈ n.store.submissions) :
    Moved n now txId row (Store.mark ((n.accepted now).map (·.id)) txId
      (Store.settle (n.screened now).2 row)) := by
  have hsub := n.candidates_sublist
  -- a number that is dropped or accepted is the number of a row that was read
  have hread : ∀ other ∈ n.candidates, row.id = other.id → row = other := fun other hother hid =>
    List.inj_on_of_nodup_map hids hrow (hsub.subset hother) hid
  obtain ⟨hdropped, -, hapart⟩ := List.nodup_append.mp (h.nodup_ids hids)
  by_cases hcandidate : row ∈ n.candidates
  · rcases List.mem_append.mp (h.perm.mem_iff.mpr hcandidate) with hdrop | hkept
    · obtain ⟨d, hd, rfl⟩ := List.mem_map.mp hdrop
      have hnot : d.1.row.id ∉ (n.accepted now).map (·.id) := fun hmem =>
        hapart _ (List.mem_map_of_mem hd) _ hmem rfl
      rw [Store.settle_of_mem hdropped hd rfl, Store.mark, if_neg hnot]
      exact .rejected hcandidate (fun hmem => hnot (List.mem_map_of_mem hmem)) hd
    · have hmem : row.id ∈ (n.accepted now).map (·.id) := List.mem_map_of_mem hkept
      have hnot : row.id ∉ (n.screened now).2.map (·.1.row.id) := fun hdrop =>
        hapart _ hdrop _ hmem rfl
      rw [Store.settle_of_not_mem hnot, Store.mark, if_pos hmem]
      exact .batched hkept
  · have hfresh : ∀ other ∈ n.candidates, row.id ≠ other.id := fun other hother hid =>
      hcandidate (hread other hother hid ▸ hother)
    have hnotDropped : row.id ∉ (n.screened now).2.map (·.1.row.id) := by
      intro hmem
      obtain ⟨d, hd, hid⟩ := List.mem_map.mp hmem
      refine hfresh d.1.row (h.perm.mem_iff.mp (List.mem_append_left _ ?_)) hid.symm
      exact List.mem_map.mpr ⟨d, hd, rfl⟩
    have hnotAccepted : row.id ∉ (n.accepted now).map (·.id) := by
      intro hmem
      obtain ⟨other, hother, hid⟩ := List.mem_map.mp hmem
      exact hfresh other (h.sublist.subset hother) hid.symm
    rw [Store.settle_of_not_mem hnotDropped, Store.mark, if_neg hnotAccepted]
    exact .unread hcandidate

/-- The tables that a committed batch leaves, row by row. -/
theorem Wrote.tables {s t u : Store} (hledger : s.SameLedger t) {nodeId : String} {p : Proposal}
    {e : Entry} {batch : Batching.Batch} {result : CycleResult}
    (h : Wrote t nodeId batch e p result u) :
    u.blocks = s.blocks ++ [t.nextBlock p] ∧ u.transactions = s.transactions ++ [e.row] ∧
      u.images = s.images ++ e.images ∧ u.proofs = s.proofs ++ e.proofs ∧
      u.submissions = t.submissions.map (Store.mark batch.ids e.txId) := by
  have hblocks : t.blocks = s.blocks := by rw [hledger]
  have htransactions : t.transactions = s.transactions := by rw [hledger]
  have himages : t.images = s.images := by rw [hledger]
  have hproofs : t.proofs = s.proofs := by rw [hledger]
  rw [← h.store]
  refine ⟨?_, ?_, ?_, ?_, rfl⟩
  · rw [← hblocks]
    rfl
  · rw [← htransactions]
    rfl
  · rw [← himages, ← List.append_nil e.images]
    rfl
  · rw [← hproofs, ← List.append_nil e.proofs]
    rfl

/-- A cycle that commits, with nothing else running, has moved exactly the submissions that
screening accepted. -/
theorem commits_accepted (n m : Node)
    (hids : (n.store.submissions.map (·.id)).Pairwise (· < ·)) (network : Consensus.Network)
    (time : Option Number) (result : CycleResult)
    (hrun : (batchingCycle network time).perform n = some (.ok result, m))
    (hstatus : result.status = .committed) :
    ∃ tx, n.CommitsAccepted (time.getD n.seconds) result m tx := by
  obtain ⟨cs, e, p, hread, hwrote⟩ := wrote_of_perform_cycle hrun hstatus
  generalize time.getD n.seconds = now at hwrote ⊢
  have hsplits := splits_of_read hread now
  have hledger := Store.sameLedger_rejectEach (s := n.store) (n.screened now).2
  obtain ⟨hblocks, htransactions, himages, hproofs, hrows⟩ := hwrote.tables hledger
  have hnodup : (n.store.submissions.map (·.id)).Nodup := hids.imp fun h => Nat.ne_of_lt h
  have hentries : e.batch =
      Batching.transaction ((n.accepted now).map (·.entry)) n.settings.nodeId n.sign := by
    rw [hwrote.entry, accepted, List.map_map]
    rfl
  have hids' : (n.batchOf (n.screened now).1).ids = (n.accepted now).map (·.id) := by
    rw [accepted, List.map_map]
    rfl
  have hhashes : e.hashes.length = (n.accepted now).length := by
    rw [Entry.hashes_of_transaction hentries, List.length_map]
  have hcount : result.count = (n.accepted now).length := by
    rw [hwrote.result, hids', List.length_map]
  have hheight : e.blockHeight = (n.store.rejectEach (n.screened now).2).expected.1 :=
    hwrote.accepts.heights e List.mem_cons_self
  have hsettled := Store.submissions_rejectEach (s := n.store)
    (List.nodup_append.mp (hsplits.nodup_ids hnodup)).1
  refine ⟨e.row, ⟨?_, ?_⟩, hcount, hsplits.sublist, ?_, ?_, ?_, ?_, ?_⟩
  · rw [hwrote.result]
    exact congrArg some hheight.symm
  · rw [hwrote.result]
    rfl
  · exact hids.sublist ((hsplits.sublist.trans n.candidates_sublist).map _)
  · exact ⟨_, hblocks, hheight.symm, congrArg List.length hwrote.proposed⟩
  · refine ⟨htransactions, ?_, hhashes.trans hcount.symm⟩
    rw [Entry.row, hentries]
    rfl
  · refine ⟨e.images, e.proofs, himages, hproofs, ?_, ?_, ?_⟩
    · rw [Entry.images, List.length_mapIdx]
      exact hhashes.trans hcount.symm
    · rw [Entry.length_proofs]
      exact hhashes.trans hcount.symm
    · exact fun i row hrow => Entry.exists_recordedAs hentries hsplits.passes hrow
  · rw [hrows, hids', hsettled, List.map_map,
      List.forall₂_map_right_iff, List.forall₂_same]
    intro row hrow
    change Moved n now e.txId row _
    rw [Function.comp_apply]
    exact hsplits.moved hnodup hrow

end Commit

/-- A submission with a level and two links in capital letters. -/
def linkedRow : SubmissionRow :=
  { waitingRow 3 'b' with
    entry := ⟨String.ofList (List.replicate 64 'b'), 125, 1,
      some (String.ofList (List.replicate 64 'A')), none,
      some (String.ofList (List.replicate 64 'E'))⟩ }

/-- Three of four submissions are read, and the second of them repeats the first. -/
def crowded : Node :=
  queueing [waitingRow 1 'A', waitingRow 2 'a', linkedRow, waitingRow 4 'c'] 2 3

theorem draining_crowded : crowded.Draining 3 := by
  have hbatches : crowded.Batches 3 :=
    batches_queueing (by decide) (by decide) (by decide) (Store.rowLimit_ofNat (by decide))
      (by decide)
  have hqueued : crowded.store.Queued := queued_queueing 2 3 (by decide) (by decide +kernel)
  exact { hbatches with
    fits := by decide
    sound := Store.sound_empty.sameLedger rfl
    queued := hqueued
    room := by decide }

theorem accepted_crowded : crowded.accepted 120 = [waitingRow 1 'A', linkedRow] := by
  decide +kernel

/-- The first and the third submission are moved together. -/
theorem commits_accepted_crowded : ∃ result m tx,
    (crowded.store.submissions.map (·.id)).Pairwise (· < ·) ∧
    (batchingCycle .silent (some 120)).perform crowded = some (.ok result, m) ∧
    result.status = .committed ∧ crowded.CommitsAccepted 120 result m tx ∧
    crowded.accepted 120 = [waitingRow 1 'A', linkedRow] := by
  have hids : (crowded.store.submissions.map (·.id)).Pairwise (· < ·) := by decide
  have hmany : ¬ crowded.TooFew (crowded.screened 120).1.length := by
    have hlength := congrArg List.length accepted_crowded
    rw [accepted, List.length_map] at hlength
    rw [hlength, TooFew]
    decide
  rcases draining_crowded.perform_many (by decide) .silent hmany with
    ⟨e, m, -, hclash⟩ | ⟨stored, t, -, hperform⟩
  · exact absurd hclash (not_clashes_empty crowded rfl 120)
  · obtain ⟨tx, htx⟩ := commits_accepted crowded _ hids .silent (some 120) _ hperform rfl
    exact ⟨_, _, tx, hids, hperform, rfl, htx, accepted_crowded⟩

end Node

end ImageLedger
