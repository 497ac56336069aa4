import ImageLedger.Proofs.Store.Chain
import Mathlib.Data.List.Nodup

namespace ImageLedger

/-- The lowercase image hash of a submission. -/
def SubmissionRow.hash (row : SubmissionRow) : String := HashText.lower row.entry.imageHash

namespace Store

/-- The submissions agree with the ledger: those in a block are validated and their hashes are on
the ledger under their transaction, the others have none, and no hash is in a block twice. -/
structure Tidy (s : Store) : Prop where
  ids : s.submissions.map (·.id) = List.range' 1 s.submissions.length
  batched : ∀ row ∈ s.submissions, row.batched = true → row.status = .validated ∧
    ∃ r ∈ s.images, r.imageHash = row.hash ∧ row.txId = some r.txId
  unbatched : ∀ row ∈ s.submissions, row.batched = false → row.txId = none
  distinct : s.submissions.Pairwise fun a b =>
    a.batched = true → b.batched = true → a.hash ≠ b.hash

/-- How many submissions carry a transaction's number. -/
def carrying (s : Store) (txId : Nat) : Nat := s.submissions.countP (·.txId = some txId)

/-- What senders and direct submissions do. -/
inductive FreeMove : Store → Store → Prop
  | idle (s : Store) : FreeMove s s
  | stage (s : Store) (receiptId : String) (now : Number) (d : Draft) :
      FreeMove s (s.stage receiptId now d)
  | block {s : Store} {p : Proposal} {new : List Entry} (nodeId : String) :
      s.Accepts p new → FreeMove s (s.extend nodeId p new)

/-- What the validator does: it records attempts on submissions that are pending. -/
inductive ValidationMove : Store → Store → Prop
  | idle (s : Store) : ValidationMove s s
  | record {s : Store} {row : SubmissionRow} (u : AttemptUpdate) : row ∈ s.submissions →
      row.status = .pending → ValidationMove s (s.recordAttempt row.id u)

/-- A submission that a batch may take. -/
def Ready (s : Store) (row : SubmissionRow) : Prop :=
  row ∈ s.submissions ∧ row.status = .validated ∧ row.batched = false

/-- What the batcher does: it rejects a submission that is ready, or stores a block with one
transaction and marks the submissions whose hashes it holds. -/
inductive BatchMove : Store → Store → Prop
  | idle (s : Store) : BatchMove s s
  | reject {s : Store} {row : SubmissionRow} (message : String) : s.Ready row →
      BatchMove s (s.markRejected row.id message)
  | batch {s : Store} {p : Proposal} {e : Entry} {rows : List SubmissionRow} (nodeId : String) :
      s.Accepts p [e] → (∀ row ∈ rows, s.Ready row) → e.hashes = rows.map (·.hash) →
      BatchMove s ((s.extend nodeId p [e]).markBatched (rows.map (·.id)) (some e.txId))

theorem tidy_empty : empty.Tidy where
  ids := rfl
  batched := by simp [empty]
  unbatched := by simp [empty]
  distinct := List.Pairwise.nil

namespace Tidy

variable {s : Store}

theorem nodup_ids (h : s.Tidy) : (s.submissions.map (·.id)).Nodup := by
  rw [h.ids]
  exact List.nodup_range'

theorem eq_of_id (h : s.Tidy) {a b : SubmissionRow} (ha : a ∈ s.submissions)
    (hb : b ∈ s.submissions) (hid : a.id = b.id) : a = b :=
  List.inj_on_of_nodup_map h.nodup_ids ha hb hid

/-- The ledger may grow beside the submissions. -/
theorem grow (h : s.Tidy) {t : Store} (hsub : t.submissions = s.submissions)
    (himg : ∀ r ∈ s.images, r ∈ t.images) : t.Tidy where
  ids := by rw [hsub, h.ids]
  batched := by
    intro row hrow hb
    rw [hsub] at hrow
    obtain ⟨hstatus, r, hr, hhash, hid⟩ := h.batched row hrow hb
    exact ⟨hstatus, r, himg r hr, hhash, hid⟩
  unbatched := by
    rw [hsub]
    exact h.unbatched
  distinct := by
    rw [hsub]
    exact h.distinct

theorem stage (h : s.Tidy) (receiptId : String) (now : Number) (d : Draft) :
    (s.stage receiptId now d).Tidy where
  ids := by
    simp only [Store.stage, List.map_append, h.ids, List.map_cons, List.map_nil,
      List.length_append, List.length_singleton]
    rw [List.range'_1_concat, Nat.add_comm 1]
  batched := by
    intro row hrow hb
    rcases List.mem_append.mp hrow with hrow | hrow
    · exact h.batched row hrow hb
    · obtain rfl := List.mem_singleton.mp hrow
      cases hb
  unbatched := by
    intro row hrow hb
    rcases List.mem_append.mp hrow with hrow | hrow
    · exact h.unbatched row hrow hb
    · obtain rfl := List.mem_singleton.mp hrow
      rfl
  distinct := by
    refine List.pairwise_append.mpr ⟨h.distinct, List.pairwise_singleton _ _, ?_⟩
    intro a ha b hb _ hbatched
    obtain rfl := List.mem_singleton.mp hb
    cases hbatched

/-- Submissions that are in no block may be changed, as long as they stay in none. -/
theorem change (h : s.Tidy) {f : SubmissionRow → SubmissionRow} (hid : ∀ row, (f row).id = row.id)
    (hkeep : ∀ row ∈ s.submissions, row.batched = true → f row = row)
    (hopen : ∀ row ∈ s.submissions, row.batched = false →
      (f row).batched = false ∧ (f row).txId = row.txId) :
    ({ s with submissions := s.submissions.map f } : Store).Tidy where
  ids := by
    simp only [List.map_map, List.length_map, ← h.ids]
    exact List.map_congr_left fun row _ => hid row
  batched := by
    intro row hrow hb
    obtain ⟨old, hold, rfl⟩ := List.mem_map.mp hrow
    cases hbold : old.batched with
    | false => simp [(hopen old hold hbold).1] at hb
    | true =>
      rw [hkeep old hold hbold]
      exact h.batched old hold hbold
  unbatched := by
    intro row hrow hb
    obtain ⟨old, hold, rfl⟩ := List.mem_map.mp hrow
    cases hbold : old.batched with
    | false =>
      rw [(hopen old hold hbold).2]
      exact h.unbatched old hold hbold
    | true => simp [hkeep old hold hbold, hbold] at hb
  distinct := by
    have hback : ∀ row ∈ s.submissions, (f row).batched = true →
        row.batched = true ∧ f row = row := by
      intro row hrow hb
      cases hbold : row.batched with
      | false => simp [(hopen row hrow hbold).1] at hb
      | true => exact ⟨rfl, hkeep row hrow hbold⟩
    rw [List.pairwise_map]
    refine List.Pairwise.imp_of_mem (fun {a b} ha hb hne hfa hfb => ?_) h.distinct
    obtain ⟨hab, hae⟩ := hback a ha hfa
    obtain ⟨hbb, hbe⟩ := hback b hb hfb
    rw [hae, hbe]
    exact hne hab hbb

theorem recordAttempt (h : s.Tidy) {row : SubmissionRow} (hrow : row ∈ s.submissions)
    (hstatus : row.status = .pending) (u : AttemptUpdate) : (s.recordAttempt row.id u).Tidy := by
  refine h.change (fun old => ?_) (fun old hold hb => ?_) (fun old hold hb => ?_)
  · dsimp only
    split <;> rfl
  · have hne : old.id ≠ row.id := by
      intro hid
      have hvalid := (h.batched old hold hb).1
      rw [h.eq_of_id hold hrow hid, hstatus] at hvalid
      cases hvalid
    exact if_neg hne
  · dsimp only
    split
    · exact ⟨hb, rfl⟩
    · exact ⟨hb, rfl⟩

theorem markRejected (h : s.Tidy) {row : SubmissionRow} (hrow : s.Ready row) (message : String) :
    (s.markRejected row.id message).Tidy := by
  obtain ⟨hmem, -, hbatched⟩ := hrow
  refine h.change (fun old => ?_) (fun old hold hb => ?_) (fun old hold hb => ?_)
  · dsimp only
    split <;> rfl
  · have hne : old.id ≠ row.id := by
      intro hid
      rw [h.eq_of_id hold hmem hid, hbatched] at hb
      cases hb
    exact if_neg hne
  · dsimp only
    split
    · exact ⟨hb, rfl⟩
    · exact ⟨hb, rfl⟩

end Tidy

/-- What marking does to the row of a submission. -/
def mark (ids : List Nat) (txId : Nat) (row : SubmissionRow) : SubmissionRow :=
  if row.id ∈ ids then { row with batched := true, txId := some txId } else row

section Batch

variable {s : Store} {p : Proposal} {e : Entry} {rows : List SubmissionRow} {nodeId : String}

@[simp] theorem submissions_batch :
    ((s.extend nodeId p [e]).markBatched (rows.map (·.id)) (some e.txId)).submissions =
      s.submissions.map (mark (rows.map (·.id)) e.txId) := rfl

@[simp] theorem images_batch :
    ((s.extend nodeId p [e]).markBatched (rows.map (·.id)) (some e.txId)).images =
      s.images ++ e.images := by
  change s.images ++ [e].flatMap Entry.images = _
  rw [List.flatMap_cons, List.flatMap_nil, List.append_nil]

/-- A submission is marked exactly when it is one of those in the batch. -/
theorem Tidy.mem_map_id_iff (h : s.Tidy) (hready : ∀ row ∈ rows, s.Ready row) {row : SubmissionRow}
    (hrow : row ∈ s.submissions) : row.id ∈ rows.map (·.id) ↔ row ∈ rows := by
  constructor
  · intro hid
    obtain ⟨other, hother, he⟩ := List.mem_map.mp hid
    exact h.eq_of_id (hready other hother).1 hrow he ▸ hother
  · exact fun hmem => List.mem_map_of_mem hmem

/-- No hash of an accepted entry is on the ledger, or in the entry twice. -/
theorem Accepts.new_hashes (ha : s.Accepts p [e]) :
    e.hashes.Nodup ∧ e.txId = s.transactions.length + 1 ∧ ∀ r ∈ s.images, r.imageHash ∉ e.hashes :=
  ⟨ha.admitted.1.nodup, ha.admitted.1.txId_eq, ha.admitted.1.images_new⟩

/-- The submissions of a batch have one record each, under the transaction of the batch. -/
theorem exists_image_of_mem (hhashes : e.hashes = rows.map (·.hash)) {row : SubmissionRow}
    (hrow : row ∈ rows) : ∃ r ∈ e.images, r.imageHash = row.hash ∧ r.txId = e.txId := by
  have hmem : row.hash ∈ e.images.map (·.imageHash) := by
    rw [e.map_imageHash_images, hhashes]
    exact List.mem_map_of_mem hrow
  obtain ⟨r, hr, hhash⟩ := List.mem_map.mp hmem
  exact ⟨r, hr, hhash, (Entry.txId_of_mem_images hr).1⟩

/-- A submission of the batch has a hash that no submission in an older block has. -/
theorem Tidy.hash_ne_of_batched (h : s.Tidy) (ha : s.Accepts p [e])
    (hhashes : e.hashes = rows.map (·.hash)) {a b : SubmissionRow} (hrow : a ∈ rows)
    (hb : b ∈ s.submissions) (hbatched : b.batched = true) : a.hash ≠ b.hash := by
  intro he
  obtain ⟨-, r, hr, hhash, -⟩ := h.batched b hb hbatched
  refine ha.new_hashes.2.2 r hr ?_
  rw [hhash, ← he, hhashes]
  exact List.mem_map_of_mem hrow

/-- After the batch no two submissions in blocks have one hash. -/
theorem Tidy.pairwise_mark (h : s.Tidy) (ha : s.Accepts p [e]) (hready : ∀ row ∈ rows, s.Ready row)
    (hhashes : e.hashes = rows.map (·.hash)) :
    (s.submissions.map (mark (rows.map (·.id)) e.txId)).Pairwise fun a b =>
      a.batched = true → b.batched = true → a.hash ≠ b.hash := by
  have hids : s.submissions.Pairwise fun a b => a.id ≠ b.id := List.pairwise_map.mp h.nodup_ids
  have hnodup := ha.new_hashes.1
  rw [hhashes] at hnodup
  rw [List.pairwise_map]
  refine List.Pairwise.imp_of_mem (fun {a b} hma hmb hne hba hbb => ?_) (h.distinct.and hids)
  -- two submissions of the batch, one of it and an older one, or two older ones
  by_cases hina : a.id ∈ rows.map (·.id)
  · have hra : a ∈ rows := (h.mem_map_id_iff hready hma).mp hina
    by_cases hinb : b.id ∈ rows.map (·.id)
    · have hrb : b ∈ rows := (h.mem_map_id_iff hready hmb).mp hinb
      simp only [mark, if_pos hina, if_pos hinb]
      intro he
      exact hne.2 (congrArg (·.id) (List.inj_on_of_nodup_map hnodup hra hrb he))
    · simp only [mark, if_neg hinb] at hbb
      have hfresh := h.hash_ne_of_batched ha hhashes hra hmb hbb
      simp only [mark, if_pos hina, if_neg hinb]
      exact hfresh
  · simp only [mark, if_neg hina] at hba
    by_cases hinb : b.id ∈ rows.map (·.id)
    · have hrb : b ∈ rows := (h.mem_map_id_iff hready hmb).mp hinb
      have hfresh := h.hash_ne_of_batched ha hhashes hrb hma hba
      simp only [mark, if_neg hina, if_pos hinb]
      exact hfresh.symm
    · simp only [mark, if_neg hinb] at hbb
      simp only [mark, if_neg hina, if_neg hinb]
      exact hne.1 hba hbb

/-- A block for ready submissions, which are marked with its transaction, leaves the submissions
tidy. -/
theorem Tidy.batch (h : s.Tidy) (ha : s.Accepts p [e]) (hready : ∀ row ∈ rows, s.Ready row)
    (hhashes : e.hashes = rows.map (·.hash)) :
    ((s.extend nodeId p [e]).markBatched (rows.map (·.id)) (some e.txId)).Tidy where
  ids := by
    rw [submissions_batch, List.length_map, ← h.ids, List.map_map]
    refine List.map_congr_left fun row _ => ?_
    simp only [Function.comp_apply, mark]
    split <;> rfl
  batched := by
    intro row hrow hb
    rw [images_batch]
    rw [submissions_batch] at hrow
    obtain ⟨old, hold, rfl⟩ := List.mem_map.mp hrow
    by_cases hmem : old.id ∈ rows.map (·.id)
    · have hin : old ∈ rows := (h.mem_map_id_iff hready hold).mp hmem
      obtain ⟨r, hr, hhash, hid⟩ := exists_image_of_mem hhashes hin
      simp only [mark, if_pos hmem]
      exact ⟨(hready old hin).2.1, r, List.mem_append_right _ hr, hhash, by rw [hid]⟩
    · simp only [mark, if_neg hmem] at hb ⊢
      obtain ⟨hstatus, r, hr, hrest⟩ := h.batched old hold hb
      exact ⟨hstatus, r, List.mem_append_left _ hr, hrest⟩
  unbatched := by
    intro row hrow hb
    rw [submissions_batch] at hrow
    obtain ⟨old, hold, rfl⟩ := List.mem_map.mp hrow
    by_cases hmem : old.id ∈ rows.map (·.id)
    · rw [mark, if_pos hmem] at hb
      cases hb
    · simp only [mark, if_neg hmem] at hb ⊢
      exact h.unbatched old hold hb
  distinct := by
    rw [submissions_batch]
    exact h.pairwise_mark ha hready hhashes

end Batch

theorem row_of_read {row : SubmissionRow} {c : Submission} (h : row.read = .ok c) :
    c.row = row := by
  unfold SubmissionRow.read at h
  dsimp only at h
  split at h <;> split at h
  · rw [← Except.ok.inj h]
  · cases h
  · rw [← Except.ok.inj h]
  · cases h

/-- Submissions that are read back are those of the rows, in their order. -/
theorem map_row_of_mapM_read {rows : List SubmissionRow} {cs : List Submission}
    (h : rows.mapM SubmissionRow.read = .ok cs) : cs.map (·.row) = rows := by
  induction rows generalizing cs with
  | nil =>
    obtain rfl := Except.ok.inj h
    rfl
  | cons row rest ih =>
    rw [List.mapM_cons, bind_eq_ok] at h
    obtain ⟨c, hc, h⟩ := h
    obtain ⟨more, hmore, h⟩ := bind_eq_ok.mp h
    obtain rfl := Except.ok.inj h
    rw [List.map_cons, row_of_read hc, ih hmore]

theorem limited_sublist {α : Type} (limit : Number) (rows : List α) :
    (limited limit rows).Sublist rows := by
  unfold limited
  split
  · split
    · exact List.Sublist.refl rows
    · exact List.take_sublist _ rows
  · exact List.Sublist.refl rows

/-- What is read from some of the submissions: each is there as it was read, and no two are the
same. -/
theorem Tidy.of_read {s : Store} (h : s.Tidy) {limit : Number} {wanted : SubmissionRow → Bool}
    {cs : List Submission}
    (hread : (limited limit (s.submissions.filter wanted)).mapM SubmissionRow.read = .ok cs) :
    (∀ c ∈ cs, c.row ∈ s.submissions ∧ wanted c.row = true) ∧ (cs.map (·.row.id)).Nodup := by
  have hrows := map_row_of_mapM_read hread
  have hsub : (cs.map (·.row)).Sublist (s.submissions.filter wanted) := by
    rw [hrows]
    exact limited_sublist limit _
  constructor
  · intro c hc
    exact List.mem_filter.mp (hsub.subset (List.mem_map_of_mem hc))
  · have hids := (hsub.trans List.filter_sublist).map (·.id)
    rw [List.map_map] at hids
    exact hids.nodup h.nodup_ids

end Store

end ImageLedger
