import ImageLedger.Proofs.Store.Submissions

namespace ImageLedger.Store

/-- What holds of the ledger and the submissions beside it at all times. -/
structure Healthy (s : Store) : Prop where
  sound : s.Sound
  tidy : s.Tidy

/-- No settled submission changes, and the ledger may grow. -/
structure SettledKept (s t : Store) : Prop where
  rows : ∀ row ∈ s.submissions, row.status ≠ .pending → row ∈ t.submissions
  images : ∀ r ∈ s.images, r ∈ t.images
  blocks : s.blocks.length ≤ t.blocks.length
  transactions : ∀ tx ∈ s.transactions, tx ∈ t.transactions

/-- No pending submission changes. -/
def PendingKept (s t : Store) : Prop :=
  ∀ row ∈ s.submissions, row.status = .pending → row ∈ t.submissions

/-- Every transaction stays, with as many submissions as before. -/
def CountsKept (s t : Store) : Prop :=
  ∀ tx ∈ s.transactions, tx ∈ t.transactions ∧ t.carrying tx.txId = s.carrying tx.txId

theorem healthy_empty : empty.Healthy := ⟨sound_empty, tidy_empty⟩

theorem SettledKept.refl (s : Store) : s.SettledKept s :=
  ⟨fun _ h _ => h, fun _ h => h, Nat.le_refl _, fun _ h => h⟩

theorem SettledKept.trans {s t u : Store} (h : s.SettledKept t) (h' : t.SettledKept u) :
    s.SettledKept u where
  rows := fun row hrow hs => h'.rows row (h.rows row hrow hs) hs
  images := fun r hr => h'.images r (h.images r hr)
  blocks := Nat.le_trans h.blocks h'.blocks
  transactions := fun tx htx => h'.transactions tx (h.transactions tx htx)

theorem PendingKept.trans {s t u : Store} (h : s.PendingKept t) (h' : t.PendingKept u) :
    s.PendingKept u :=
  fun row hrow hs => h' row (h row hrow hs) hs

section Extend

variable {s : Store} {p : Proposal} {new : List Entry} {nodeId : String}

theorem settledKept_extend : s.SettledKept (s.extend nodeId p new) where
  rows := fun row hrow _ => hrow
  images := fun r hr => List.mem_append_left _ hr
  blocks := by simp [blocks_extend]
  transactions := fun tx htx => List.mem_append_left _ htx

theorem Healthy.extend (h : s.Healthy) (ha : s.Accepts p new) :
    (s.extend nodeId p new).Healthy where
  sound := h.sound.extend ha
  tidy := h.tidy.grow rfl settledKept_extend.images

end Extend

@[simp] theorem carrying_stage (s : Store) (receiptId : String) (now : Number) (d : Draft)
    (txId : Nat) :
    (s.stage receiptId now d).carrying txId = s.carrying txId := by
  simp only [carrying, stage, List.countP_append, List.countP_cons, List.countP_nil]
  rfl

/-- A change that leaves the transactions of submissions alone leaves their count. -/
theorem carrying_updateRow (s : Store) (id : Nat) {change : SubmissionRow → SubmissionRow}
    (h : ∀ row, (change row).txId = row.txId) (txId : Nat) :
    (s.updateRow id change).carrying txId = s.carrying txId := by
  simp only [carrying, updateRow, List.countP_map]
  refine List.countP_congr fun row _ => ?_
  simp only [Function.comp_apply]
  split
  · rw [h row]
  · rfl

/-- A row that is not the one with the number stays. -/
theorem mem_updateRow {s : Store} {id : Nat} {change : SubmissionRow → SubmissionRow}
    {row : SubmissionRow} (hrow : row ∈ s.submissions) (hid : row.id ≠ id) :
    row ∈ (s.updateRow id change).submissions :=
  List.mem_map.mpr ⟨row, hrow, if_neg hid⟩

/-- What a move of a sender or a direct submission leaves as it was. -/
theorem FreeMove.keeps {s t : Store} (h : s.FreeMove t) (hs : s.Healthy) :
    t.Healthy ∧ s.SettledKept t ∧ s.PendingKept t ∧ s.CountsKept t := by
  cases h with
  | idle => exact ⟨hs, .refl s, fun _ h _ => h, fun _ h => ⟨h, rfl⟩⟩
  | stage receiptId now d =>
    have hmem : ∀ row ∈ s.submissions, row ∈ (s.stage receiptId now d).submissions :=
      fun row hrow => List.mem_append_left _ hrow
    have hledger : s.SameLedger (s.stage receiptId now d) := rfl
    refine ⟨⟨hs.sound.sameLedger hledger, hs.tidy.stage receiptId now d⟩, ?_, ?_, ?_⟩
    · exact ⟨fun row hrow _ => hmem row hrow, fun _ h => h, Nat.le_refl _, fun _ h => h⟩
    · exact fun row hrow _ => hmem row hrow
    · exact fun tx htx => ⟨htx, carrying_stage s receiptId now d tx.txId⟩
  | block nodeId ha =>
    refine ⟨hs.extend ha, settledKept_extend, fun row hrow _ => hrow, fun tx htx => ?_⟩
    exact ⟨settledKept_extend.transactions tx htx, rfl⟩

/-- What a move of the validator leaves as it was. -/
theorem ValidationMove.keeps {s t : Store} (h : s.ValidationMove t) (hs : s.Healthy) :
    t.Healthy ∧ s.SettledKept t ∧ s.CountsKept t := by
  cases h with
  | idle => exact ⟨hs, .refl s, fun _ h => ⟨h, rfl⟩⟩
  | @record row u hrow hstatus =>
    have hledger : s.SameLedger (s.recordAttempt row.id u) := rfl
    refine ⟨⟨hs.sound.sameLedger hledger, hs.tidy.recordAttempt hrow hstatus u⟩, ?_, ?_⟩
    · refine ⟨fun other hother hsettled => mem_updateRow hother fun hid => ?_, fun _ h => h,
        Nat.le_refl _, fun _ h => h⟩
      rw [hs.tidy.eq_of_id hother hrow hid] at hsettled
      exact hsettled hstatus
    · refine fun tx htx => ⟨htx, carrying_updateRow s row.id ?_ tx.txId⟩
      exact fun _ => rfl

section Batch

variable {s : Store} {p : Proposal} {e : Entry} {rows : List SubmissionRow} {nodeId : String}

/-- The number of a transaction on the ledger is none that a new entry is given. -/
theorem Recorded.txId_le {entries : List Entry} (h : s.Recorded entries) {f : Entry}
    (hf : f ∈ entries) : f.txId ≤ s.transactions.length := by
  have hmem : f.txId ∈ entries.map (·.txId) := List.mem_map_of_mem hf
  rw [h.txIds, List.mem_range'_1] at hmem
  rw [h.length_transactions]
  omega

theorem Healthy.txId_of_row (h : s.Healthy) {row : SubmissionRow} (hrow : row ∈ s.submissions)
    {txId : Nat} (hid : row.txId = some txId) : txId ≤ s.transactions.length := by
  cases hb : row.batched with
  | false =>
    rw [h.tidy.unbatched row hrow hb] at hid
    cases hid
  | true =>
    obtain ⟨-, r, hr, -, hown⟩ := h.tidy.batched row hrow hb
    obtain ⟨entries, hrec⟩ := h.sound.recorded
    obtain ⟨f, hf, hrf⟩ := hrec.exists_entry hr
    have hle := hrec.txId_le hf
    rw [hown, Option.some.injEq, (Entry.txId_of_mem_images hrf).1] at hid
    omega

theorem Healthy.txId_of_transaction (h : s.Healthy) {tx : LedgerTransaction}
    (htx : tx ∈ s.transactions) : tx.txId ≤ s.transactions.length := by
  obtain ⟨entries, hrec⟩ := h.sound.recorded
  obtain ⟨f, hf, rfl⟩ := hrec.exists_row htx
  exact hrec.txId_le hf

theorem carrying_batch (txId : Nat) :
    ((s.extend nodeId p [e]).markBatched (rows.map (·.id)) (some e.txId)).carrying txId =
      s.submissions.countP fun row => (mark (rows.map (·.id)) e.txId row).txId = some txId := by
  rw [carrying, submissions_batch, List.countP_map]
  rfl

/-- Older transactions keep their submissions. -/
theorem carrying_batch_old (h : s.Healthy) (hready : ∀ row ∈ rows, s.Ready row) {txId : Nat}
    (hne : e.txId ≠ txId) :
    ((s.extend nodeId p [e]).markBatched (rows.map (·.id)) (some e.txId)).carrying txId =
      s.carrying txId := by
  rw [carrying_batch, carrying]
  refine List.countP_congr fun row hrow => ?_
  by_cases hmem : row.id ∈ rows.map (·.id)
  · have hin := (h.tidy.mem_map_id_iff hready hrow).mp hmem
    have hnone := h.tidy.unbatched row hrow (hready row hin).2.2
    rw [mark, if_pos hmem, hnone]
    simp [hne]
  · simp only [mark, if_neg hmem]

/-- The new transaction has one submission for each of its hashes. -/
theorem carrying_batch_new (h : s.Healthy) (ha : s.Accepts p [e])
    (hready : ∀ row ∈ rows, s.Ready row) (hhashes : e.hashes = rows.map (·.hash)) :
    ((s.extend nodeId p [e]).markBatched (rows.map (·.id)) (some e.txId)).carrying e.txId =
      e.row.batchSize := by
  obtain ⟨hnodup, hid, -⟩ := ha.new_hashes
  have hmarked : ∀ row ∈ s.submissions,
      (mark (rows.map (·.id)) e.txId row).txId = some e.txId ↔ row ∈ rows := by
    intro row hrow
    by_cases hmem : row.id ∈ rows.map (·.id)
    · simp only [mark, if_pos hmem, true_iff]
      exact (h.tidy.mem_map_id_iff hready hrow).mp hmem
    · simp only [mark, if_neg hmem]
      constructor
      · intro htx
        have hle := h.txId_of_row hrow htx
        omega
      · exact fun hin => absurd (List.mem_map_of_mem hin) hmem
  have hrows : rows.Nodup := by
    rw [hhashes] at hnodup
    exact List.Nodup.of_map _ hnodup
  have hall : s.submissions.Nodup := List.Nodup.of_map _ h.tidy.nodup_ids
  have hperm : (s.submissions.filter (fun row => decide (row ∈ rows))).Perm rows := by
    refine (List.perm_ext_iff_of_nodup (hall.filter _) hrows).mpr fun row => ?_
    simp only [List.mem_filter, decide_eq_true_eq]
    exact ⟨fun hr => hr.2, fun hr => ⟨(hready row hr).1, hr⟩⟩
  have hsize : e.row.batchSize = rows.length := by
    change e.hashes.length = _
    rw [hhashes, List.length_map]
  rw [carrying_batch, hsize, ← hperm.length_eq, ← List.countP_eq_length_filter]
  refine List.countP_congr fun row hrow => ?_
  simp only [decide_eq_true_eq]
  exact hmarked row hrow

end Batch

/-- What a move of the batcher leaves as it was, and the size of the transaction that it adds. -/
theorem BatchMove.keeps {s t : Store} (h : s.BatchMove t) (hs : s.Healthy) :
    t.Healthy ∧ s.PendingKept t ∧ s.CountsKept t ∧
      ∀ tx ∈ t.transactions.drop s.transactions.length, tx.batchSize = t.carrying tx.txId := by
  cases h with
  | idle => exact ⟨hs, fun _ h _ => h, fun _ h => ⟨h, rfl⟩, by simp⟩
  | @reject row message hready =>
    have hledger : s.SameLedger (s.markRejected row.id message) := rfl
    refine ⟨⟨hs.sound.sameLedger hledger, hs.tidy.markRejected hready message⟩, ?_, ?_, ?_⟩
    · refine fun other hother hpending => mem_updateRow hother fun hid => ?_
      rw [hs.tidy.eq_of_id hother hready.1 hid, hready.2.1] at hpending
      cases hpending
    · refine fun tx htx => ⟨htx, carrying_updateRow s row.id ?_ tx.txId⟩
      exact fun _ => rfl
    · intro tx htx
      change tx ∈ s.transactions.drop s.transactions.length at htx
      simp at htx
  | @batch p e rows nodeId ha hready hhashes =>
    have hledger : (s.extend nodeId p [e]).SameLedger
        ((s.extend nodeId p [e]).markBatched (rows.map (·.id)) (some e.txId)) := rfl
    have hid := ha.new_hashes.2.1
    refine ⟨⟨(hs.sound.extend ha).sameLedger hledger, hs.tidy.batch ha hready hhashes⟩, ?_, ?_, ?_⟩
    · intro row hrow hpending
      rw [submissions_batch]
      refine List.mem_map.mpr ⟨row, hrow, ?_⟩
      rw [mark, if_neg]
      intro hmem
      have hin := (hs.tidy.mem_map_id_iff hready hrow).mp hmem
      rw [(hready row hin).2.1] at hpending
      cases hpending
    · intro tx htx
      have hle := hs.txId_of_transaction htx
      exact ⟨List.mem_append_left _ htx, carrying_batch_old hs hready (by omega)⟩
    · intro tx htx
      change tx ∈ (s.transactions ++ [e].map Entry.row).drop s.transactions.length at htx
      rw [List.drop_left] at htx
      obtain rfl := List.mem_singleton.mp htx
      exact (carrying_batch_new hs ha hready hhashes).symm

end ImageLedger.Store
