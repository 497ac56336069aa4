import ImageLedger.Proofs.Store.Moves

namespace ImageLedger

/-- What the workers leave of a submission. -/
structure SubmissionRow.Reworked (row after : SubmissionRow) : Prop where
  entry : after.entry = row.entry
  receiptId : after.receiptId = row.receiptId
  kind : after.kind = row.kind
  credentials : after.credentials = row.credentials
  rejected : row.status = .rejected → after.status = .rejected

theorem SubmissionRow.Reworked.refl (row : SubmissionRow) : row.Reworked row :=
  ⟨rfl, rfl, rfl, rfl, fun h => h⟩

theorem SubmissionRow.Reworked.hash {row after : SubmissionRow} (h : row.Reworked after) :
    after.hash = row.hash := by
  rw [SubmissionRow.hash, h.entry]
  rfl

namespace Store

/-- How many submissions of a hash there are, and how many of them are not rejected. -/
def submitted (s : Store) (hash : String) : Nat := s.submissions.countP (·.hash = hash)

def live (s : Store) (hash : String) : Nat :=
  s.submissions.countP fun row => row.hash = hash && row.status ≠ .rejected

/-- What the workers do to the tables, as far as hashes go: every row stays in its place, and a
record that is new on the ledger has the hash of a submission. -/
structure Reworks (s t : Store) : Prop where
  rows : ∃ f, t.submissions = s.submissions.map f ∧
    ∀ row ∈ s.submissions, row.Reworked (f row)
  images : ∀ r ∈ t.images, r ∈ s.images ∨ ∃ row ∈ s.submissions, row.hash = r.imageHash

theorem live_le_submitted (s : Store) (hash : String) : s.live hash ≤ s.submitted hash :=
  List.countP_mono_left fun _ _ h => (Bool.and_eq_true_iff.mp h).1

theorem submitted_pos {s : Store} {hash : String} :
    0 < s.submitted hash ↔ ∃ row ∈ s.submissions, row.hash = hash := by
  simp [submitted, List.countP_pos_iff]

/-- Without rejected submissions of a hash all of them are live. -/
theorem live_eq_submitted {s : Store} {hash : String}
    (h : ∀ row ∈ s.submissions, row.hash = hash → row.status ≠ .rejected) :
    s.live hash = s.submitted hash := by
  refine List.countP_congr fun row hrow => ?_
  simpa using h row hrow

section Stage

variable (s : Store) (receiptId : String) (now : Number) (d : Draft) (hash : String)

/-- A staged draft is one more submission of its hash, and it is live. -/
theorem submitted_stage : (s.stage receiptId now d).submitted hash =
    s.submitted hash + if HashText.lower d.entry.imageHash = hash then 1 else 0 := by
  by_cases h : HashText.lower d.entry.imageHash = hash <;>
    simp [submitted, stage, SubmissionRow.hash, h]

theorem live_stage : (s.stage receiptId now d).live hash =
    s.live hash + if HashText.lower d.entry.imageHash = hash then 1 else 0 := by
  by_cases h : HashText.lower d.entry.imageHash = hash <;>
    simp [live, stage, SubmissionRow.hash, h]

end Stage

namespace Reworks

variable {s t : Store}

theorem refl (s : Store) : s.Reworks s :=
  ⟨⟨id, (List.map_id _).symm, fun row _ => .refl row⟩, fun _ hr => Or.inl hr⟩

theorem submitted (h : s.Reworks t) (hash : String) : t.submitted hash = s.submitted hash := by
  obtain ⟨f, hf, hrows⟩ := h.rows
  rw [Store.submitted, hf, List.countP_map]
  refine List.countP_congr fun row hrow => ?_
  simp only [Function.comp_apply, (hrows row hrow).hash]

theorem live_le (h : s.Reworks t) (hash : String) : t.live hash ≤ s.live hash := by
  obtain ⟨f, hf, hrows⟩ := h.rows
  rw [live, hf, List.countP_map]
  refine List.countP_mono_left fun row hrow hlive => ?_
  simp only [Function.comp_apply, (hrows row hrow).hash, Bool.and_eq_true, decide_eq_true_eq]
    at hlive ⊢
  exact ⟨hlive.1, mt (hrows row hrow).rejected hlive.2⟩

/-- A change of one row that is not rejected. -/
theorem of_updateRow {row : SubmissionRow} {change : SubmissionRow → SubmissionRow}
    (hids : (s.submissions.map (·.id)).Nodup) (hrow : row ∈ s.submissions)
    (hchange : row.Reworked (change row)) : s.Reworks (s.updateRow row.id change) where
  rows := by
    refine ⟨_, rfl, fun other hother => ?_⟩
    split
    · next hid =>
      obtain rfl := List.inj_on_of_nodup_map hids hother hrow hid
      exact hchange
    · exact .refl other
  images := fun r hr => Or.inl hr

end Reworks

theorem ValidationMove.reworks {s t : Store} (h : s.ValidationMove t) (hs : s.Tidy) :
    s.Reworks t := by
  cases h with
  | idle => exact .refl s
  | record u hrow hstatus =>
    refine .of_updateRow hs.nodup_ids hrow ⟨rfl, rfl, rfl, rfl, fun hrejected => ?_⟩
    cases hstatus.symm.trans hrejected

theorem BatchMove.reworks {s t : Store} (h : s.BatchMove t) (hs : s.Tidy) : s.Reworks t := by
  cases h with
  | idle => exact .refl s
  | reject message hready =>
    exact .of_updateRow hs.nodup_ids hready.1 ⟨rfl, rfl, rfl, rfl, fun _ => rfl⟩
  | @batch p e rows nodeId ha hready hhashes =>
    refine ⟨⟨_, submissions_batch, fun row _ => ?_⟩, fun r hr => ?_⟩
    · unfold mark
      split
      · exact ⟨rfl, rfl, rfl, rfl, fun hrejected => hrejected⟩
      · exact .refl row
    · rw [images_batch] at hr
      rcases List.mem_append.mp hr with hr | hr
      · exact Or.inl hr
      · have hmem := Entry.imageHash_mem_hashes hr
        rw [hhashes] at hmem
        obtain ⟨row, hrow, hhash⟩ := List.mem_map.mp hmem
        exact Or.inr ⟨row, (hready row hrow).1, hhash⟩

end Store

end ImageLedger
