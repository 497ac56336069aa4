import ImageLedger.Proofs.Node.Attempts
import ImageLedger.Proofs.Node.BatchingProgress

namespace ImageLedger

/-- A row as validation keeps it, when so many attempts are allowed. -/
structure SubmissionRow.InOrder (most : Nat) (row : SubmissionRow) : Prop where
  pending : row.status = .pending → row.retryCount < most ∧ row.nextRetryAt.isSome = true
  settled : row.status ≠ .pending →
    1 ≤ row.retryCount ∧ row.retryCount ≤ most ∧ row.nextRetryAt = none

namespace Validation

/-- The seconds to wait after so many attempts. -/
def pause (attempt : Nat) : Nat := if attempt ≤ 3 then 2 ^ attempt else 1800

/-- What a verdict at a time makes of a row when so many attempts are allowed. A row that stays
pending is due again when its pause is over. -/
structure Judged (most : Nat) (time : Number) (v : Authority.Verdict) (row after : SubmissionRow) :
    Prop where
  same : after = { row with
    status := after.status
    message := after.message
    retryCount := after.retryCount
    nextRetryAt := after.nextRetryAt }
  counted : after.retryCount = row.retryCount + 1
  validated : v.valid = true → after.status = .validated
  refused : v.valid = false → v.retryable = false → after.status = .rejected
  spent : v.valid = false → v.retryable = true → after.retryCount = most → after.status = .rejected
  retried : v.valid = false → v.retryable = true → after.retryCount < most →
    after.retryCount < Number.wholeLimit → after.status = .pending
  due : after.status = .pending → ∀ later, Store.isDue (Number.ofNat most) later after =
    Number.le (Number.add time (Number.ofNat (pause after.retryCount))) later
  dueWhole : after.status = .pending → ∀ t later : Int, time = Number.ofInt t →
    t.natAbs + 1800 ≤ Number.wholeLimit → later.natAbs ≤ Number.wholeLimit →
    (Store.isDue (Number.ofNat most) (Number.ofInt later) after = true ↔
      t + pause after.retryCount ≤ later)

theorem retryDelay_ofNat (attempt : Nat) :
    retryDelay (Number.ofNat attempt) = Number.ofNat (pause attempt) := by
  rcases Nat.lt_or_ge 3 attempt with hlate | hearly
  · have hslow : ¬ Number.le (Number.ofNat attempt) 3 = true := by
      intro hle
      have hfour : Number.lt 3 (Number.ofNat 4) = true := by decide
      exact Number.not_lt_of_le hle (Number.lt_of_lt_of_le hfour (Number.ofNat_mono hlate))
    rw [retryDelay, if_neg hslow, pause, if_neg (Nat.not_le.mpr hlate)]
    rfl
  · have hall : ∀ a ≤ 3, retryDelay (Number.ofNat a) = Number.ofNat (pause a) := by decide +kernel
    exact hall attempt hearly

theorem pause_le (attempt : Nat) : pause attempt ≤ 1800 := by
  unfold pause
  split
  · next h => exact (Nat.pow_le_pow_right (by decide) h).trans (by decide)
  · exact le_rfl

/-- Whole seconds are added and compared exactly. -/
theorem le_add_ofInt {t later : Int} {wait : Nat} (ht : t.natAbs + wait ≤ Number.wholeLimit)
    (hlater : later.natAbs ≤ Number.wholeLimit) :
    Number.le (Number.add (Number.ofInt t) (Number.ofNat wait)) (Number.ofInt later) = true ↔
      t + wait ≤ later := by
  have hsum : (t + wait).natAbs ≤ Number.wholeLimit := by omega
  have hadd : Number.add (Number.ofInt t) (Number.ofNat wait) =
      Number.finite ((t + wait : Int)) := by
    rw [Number.ofInt_eq (by omega), Number.ofNat_eq (by omega), Number.add,
      ← Number.ofRat_intCast hsum]
    push_cast
    rfl
  rw [hadd, Number.ofInt_eq hlater, Number.le, decide_eq_true_eq]
  exact Int.cast_le

section Row

variable {most : Nat} {time : Number} {v : Authority.Verdict} {row : SubmissionRow} {s : Submission}
  {u : AttemptUpdate}

/-- An attempt that settles its row, as a verdict that may not change later always does. -/
theorem judged_of_settled (hcount : u.retryCount = row.retryCount + 1)
    (hstatus : u.status ≠ .pending)
    (hvalid : v.valid = true → u.status = .validated)
    (hrejected : v.valid = false → u.status = .rejected)
    (hspent : v.valid = false → v.retryable = true → u.retryCount < Number.wholeLimit →
      ¬ u.retryCount < most) :
    Judged most time v row (u.apply row) where
  same := rfl
  counted := hcount
  validated := hvalid
  refused := fun hv _ => hrejected hv
  spent := fun hv _ _ => hrejected hv
  retried := fun hv hr hlt hexact => absurd hlt (hspent hv hr hexact)
  due := fun hpending => absurd hpending hstatus
  dueWhole := fun hpending => absurd hpending hstatus

theorem inOrder_of_settled (hcount : u.retryCount = row.retryCount + 1)
    (hstatus : u.status ≠ .pending) (hnext : u.nextRetryAt = .none)
    (hless : row.retryCount < most) :
    (u.apply row).InOrder most where
  pending := fun hpending => absurd hpending hstatus
  settled := by
    intro _
    change 1 ≤ u.retryCount ∧ u.retryCount ≤ most ∧ u.nextRetryAt = .none
    rw [hcount]
    exact ⟨Nat.succ_pos _, hless, hnext⟩

/-- A row that is put off is due when its pause is over. -/
theorem isDue_of_retried (hstatus : row.status = .pending)
    (hless : Number.lt (Number.ofNat row.retryCount) (Number.ofNat most) = true)
    (hnext : row.nextRetryAt = some (Number.add time (Number.ofNat (pause row.retryCount))))
    (later : Number) : Store.isDue (Number.ofNat most) later row =
      Number.le (Number.add time (Number.ofNat (pause row.retryCount))) later := by
  rw [Store.isDue, hstatus, hnext, hless]
  rfl

/-- An attempt that puts its row off. -/
theorem judged_of_retried (hcount : u.retryCount = row.retryCount + 1)
    (hstatus : u.status = .pending)
    (hless : Number.lt (Number.ofNat u.retryCount) (Number.ofNat most) = true)
    (hnext : u.nextRetryAt = some (Number.add time (Number.ofNat (pause u.retryCount))))
    (hvalid : v.valid = false) (hretryable : v.retryable = true) :
    Judged most time v row (u.apply row) := by
  have hdue : ∀ later, Store.isDue (Number.ofNat most) later (u.apply row) =
      Number.le (Number.add time (Number.ofNat (pause u.retryCount))) later :=
    isDue_of_retried hstatus hless hnext
  exact {
    same := rfl
    counted := hcount
    validated := fun hv => Bool.noConfusion (hv.symm.trans hvalid)
    refused := fun _ hr => Bool.noConfusion (hr.symm.trans hretryable)
    spent := by
      intro _ _ hspent
      have hlt := Number.lt_of_lt_ofNat hless
      exact absurd hspent hlt.ne
    retried := fun _ _ _ _ => hstatus
    due := fun _ => hdue
    dueWhole := by
      rintro - t later rfl ht hlater
      rw [hdue]
      have hpause := pause_le u.retryCount
      exact le_add_ofInt (by omega) hlater }

/-- What is recorded for a pending row follows the rules and leaves the row in order. -/
theorem judged_update (time : Number) (v : Authority.Verdict) (hs : s.row = row)
    (hless : row.retryCount < most) :
    Judged most time v row ((update (Number.ofNat most) time s v).2.apply row) ∧
      ((update (Number.ofNat most) time s v).2.apply row).InOrder most := by
  subst hs
  unfold update
  dsimp only
  -- confirmed, refused for good, refused for the last time, or put off
  split
  · next hvalid =>
    refine ⟨judged_of_settled rfl nofun (fun _ => rfl) ?_ ?_,
      inOrder_of_settled rfl nofun rfl hless⟩
    · exact fun hv => Bool.noConfusion (hv.symm.trans hvalid)
    · exact fun hv => Bool.noConfusion (hv.symm.trans hvalid)
  · next hvalid =>
    split
    · next hfinal =>
      refine ⟨judged_of_settled rfl nofun ?_ (fun _ => rfl) ?_,
        inOrder_of_settled rfl nofun rfl hless⟩
      · exact fun hv => absurd hv hvalid
      · intro _ hretryable
        simp [hretryable] at hfinal
    · next hretryable =>
      split
      · next hspent =>
        refine ⟨judged_of_settled rfl nofun ?_ (fun _ => rfl) ?_,
          inOrder_of_settled rfl nofun rfl hless⟩
        · exact fun hv => absurd hv hvalid
        · intro _ _ hexact hlt
          have hnext := Number.le_trans (Number.ofNat_mono hlt) hspent
          rw [Number.le_ofNat hexact hexact.le] at hnext
          exact Nat.not_succ_le_self _ (of_decide_eq_true hnext)
      · next hearly =>
        have hlt : Number.lt (Number.ofNat (s.row.retryCount + 1)) (Number.ofNat most) = true :=
          (Number.le_or_lt (Number.ofNat_ne_nan _) (Number.ofNat_ne_nan _)).resolve_left hearly
        refine ⟨judged_of_retried rfl rfl hlt ?_ ?_ ?_, ?_, ?_⟩
        · rw [retryDelay_ofNat]
        · simpa using hvalid
        · simpa using hretryable
        · exact fun _ => ⟨Number.lt_of_lt_ofNat hlt, rfl⟩
        · exact fun hstatus => absurd rfl hstatus

end Row

/-- The attempts of one cycle, and its time. -/
structure Round where
  time : Number
  made : List Attempt

/-- How many attempts were made on a submission. -/
def handled (history : List Round) (id : Nat) : Nat :=
  (history.flatMap (·.made)).countP (·.submission.row.id = id)

/-- How often an authority was asked about a submission. -/
def asked (history : List Round) (id : Nat) : Nat :=
  (history.flatMap (·.made)).countP fun a => a.submission.row.id = id && a.answer.call.isSome

theorem asked_le_handled (history : List Round) (id : Nat) :
    asked history id ≤ handled history id :=
  List.countP_mono_left fun _ _ h => (Bool.and_eq_true_iff.mp h).1

theorem handled_cons (round : Round) (history : List Round) (id : Nat) :
    handled (round :: history) id =
      (round.made.map (·.submission.row.id)).count id + handled history id := by
  rw [handled, List.flatMap_cons, List.countP_append, List.count, List.countP_map]
  rfl

theorem id_settledBy (maxAttempts now : Number) (made : List Attempt) (row : SubmissionRow) :
    (settledBy maxAttempts now made row).id = row.id := by
  unfold settledBy
  split
  · exact Attempt.id_settle
  · rfl

/-- Attempts leave the credentials of a row alone. -/
theorem isComplete_settledBy (maxAttempts now : Number) (made : List Attempt)
    (row : SubmissionRow) : (settledBy maxAttempts now made row).isComplete = row.isComplete := by
  unfold settledBy Attempt.settle
  split
  · split <;> rfl
  · rfl

/-- Each row has an attempt recorded on it, or stays when there is none. -/
theorem settledBy_cases (maxAttempts now : Number) {made : List Attempt}
    {rows : List SubmissionRow} (hids : (rows.map (·.id)).Nodup)
    (hmade : ∀ a ∈ made, a.submission.row ∈ rows) {row : SubmissionRow} (hrow : row ∈ rows) :
    (∃ a ∈ made, a.submission.row = row ∧
      settledBy maxAttempts now made row = a.settle maxAttempts now row) ∨
    row ∉ made.map (·.submission.row) ∧ settledBy maxAttempts now made row = row := by
  by_cases hid : row.id ∈ made.map (·.submission.row.id)
  · left
    cases hfind : made.find? (·.submission.row.id = row.id) with
    | none =>
      obtain ⟨a, ha, he⟩ := List.mem_map.mp hid
      simpa [he] using List.find?_eq_none.mp hfind a ha
    | some a =>
      have ha := List.mem_of_find?_eq_some hfind
      have he : a.submission.row.id = row.id := by simpa using List.find?_some hfind
      refine ⟨a, ha, List.inj_on_of_nodup_map hids (hmade a ha) hrow he, ?_⟩
      rw [settledBy, hfind]
  · refine Or.inr ⟨fun hmem => hid ?_, settledBy_of_notMem hid⟩
    obtain ⟨a, ha, rfl⟩ := List.mem_map.mp hmem
    exact List.mem_map_of_mem ha

end Validation

namespace Node

open Operation Validation

/-- The table of submissions after a history of cycles. Between them drafts are staged with the
credentials of their kind, and all else in the node may change as it likes. -/
inductive Validating (start : Node) : List Round → Node → Prop
  | start : Validating start [] start
  | stage {history : List Round} {n m : Node} {result : Except Fault Submission}
      (entry : BatchEntry) (submitterId authorityId : String) (c : Credential) :
      Validating start history n →
      (stage (Intake.draft entry submitterId authorityId c)).perform n = some (result, m) →
      Validating start history m
  | elsewhere {history : List Round} {n m : Node} : Validating start history n →
      m.store.submissions = n.store.submissions → m.settings = n.settings →
      Validating start history m
  | cycle {history : List Round} {n m : Node} {due : List Submission} {counts : ValidationCounts}
      {calls : List Authority.Call} (replies : Nat → Authority.Reply) (now limit : Option Number) :
      Validating start history n → (∀ i, replies i ≠ .nothing) →
      (n.dueRows now limit).mapM SubmissionRow.read = .ok due →
      (validationCycle replies now limit).perform n = some (.ok (counts, calls), m) →
      Validating start
        (⟨now.getD n.seconds, attempts n.endpoints n.clock replies n.cache 0 due⟩ :: history) m

/-- A cycle succeeds. It makes one attempt on each row it takes on, which is counted and judged, and
leaves the other rows as they are. -/
def Handles (most : Nat) (n : Node) (replies : Nat → Authority.Reply) (now limit : Option Number) :
    Prop :=
  ∃ due counts m, (n.dueRows now limit).mapM SubmissionRow.read = .ok due ∧
    let made := attempts n.endpoints n.clock replies n.cache 0 due
    (validationCycle replies now limit).perform n =
      some (.ok (counts, made.flatMap (·.answer.call.toList)), m) ∧
    ∃ change, m.store = { n.store with submissions := n.store.submissions.map change } ∧
      ∀ row ∈ n.store.submissions,
        (row ∈ n.dueRows now limit → row.status = .pending ∧
          ∃ a ∈ made, a.submission.row = row ∧ ∃ v, a.answer.verdict = some v ∧
            Judged most (now.getD n.seconds) v row (change row)) ∧
        (row ∉ n.dueRows now limit → change row = row)

/-- What holds of the submissions after a history of cycles. -/
structure Orderly (most : Nat) (history : List Round) (n : Node) : Prop where
  setting : n.settings.validationMaxAttempts = Number.ofNat most
  ids : n.store.submissions.map (·.id) = List.range' 1 n.store.submissions.length
  complete : ∀ row ∈ n.store.submissions, row.isComplete = true
  rows : ∀ row ∈ n.store.submissions, row.InOrder most
  counted : ∀ row ∈ n.store.submissions, handled history row.id = row.retryCount
  known : ∀ a ∈ history.flatMap (·.made), a.submission.row.id ∈ n.store.submissions.map (·.id)

/-- Staging adds a row, whatever reading it back gives. -/
theorem perform_stage (d : Draft) (n : Node) : ∃ result,
    (stage d).perform n = some (result, { n with
      receipts := n.receipts + 1
      store := n.store.stage (receiptId (n.receipts + 1)) n.seconds d }) :=
  ⟨_, rfl⟩

/-- A row that is staged with the credentials of its kind is pending, and no attempt was made. -/
theorem exists_staged_row (s : Store) (receiptId : String) (now : Number) (entry : BatchEntry)
    (submitterId authorityId : String) (c : Credential) : ∃ row : SubmissionRow,
    (s.stage receiptId now (Intake.draft entry submitterId authorityId c)).submissions =
      s.submissions ++ [row] ∧ row.id = s.submissions.length + 1 ∧ row.status = .pending ∧
    row.retryCount = 0 ∧ row.nextRetryAt.isSome = true ∧ row.isComplete = true := by
  refine ⟨_, rfl, rfl, rfl, rfl, rfl, ?_⟩
  cases c <;> rfl

variable {most : Nat} {history : List Round} {n m : Node}

namespace Orderly

theorem nodup_ids (h : Orderly most history n) : (n.store.submissions.map (·.id)).Nodup := by
  rw [h.ids]
  exact List.nodup_range'

theorem start (hempty : n.store.submissions = [])
    (hsetting : n.settings.validationMaxAttempts = Number.ofNat most) : Orderly most [] n := by
  refine ⟨hsetting, ?_, ?_, ?_, ?_, ?_⟩
  all_goals simp [hempty]

theorem elsewhere (h : Orderly most history n) (hrows : m.store.submissions = n.store.submissions)
    (hsettings : m.settings = n.settings) : Orderly most history m := by
  obtain ⟨hsetting, hids, hcomplete, hinorder, hcounted, hknown⟩ := h
  refine ⟨hsettings ▸ hsetting, ?_, ?_, ?_, ?_, ?_⟩
  all_goals rwa [hrows]

/-- A draft is staged under a number of its own, with no attempt made on it. -/
theorem stage (h : Orderly most history n) (hmost : 1 ≤ most) {entry : BatchEntry}
    {submitterId authorityId : String} {c : Credential} {result : Except Fault Submission}
    (hperform : (stage (Intake.draft entry submitterId authorityId c)).perform n =
      some (result, m)) : Orderly most history m := by
  obtain ⟨result', hstaged⟩ := perform_stage (Intake.draft entry submitterId authorityId c) n
  obtain ⟨-, rfl⟩ := Prod.mk.inj (Option.some.inj (hstaged.symm.trans hperform))
  obtain ⟨row, hrows, hid, hstatus, hcount, hnext, hcomplete⟩ := exists_staged_row n.store
    (receiptId (n.receipts + 1)) n.seconds entry submitterId authorityId c
  have hfresh : handled history row.id = 0 := by
    refine List.countP_eq_zero.mpr fun a ha => ?_
    have hknown := h.known a ha
    rw [h.ids, List.mem_range'_1] at hknown
    simp only [decide_eq_true_eq]
    omega
  refine ⟨h.setting, ?_, ?_, ?_, ?_, ?_⟩
  all_goals dsimp only; rw [hrows]
  · rw [List.map_append, h.ids, List.map_singleton, hid, List.length_append, List.length_singleton,
      List.range'_1_concat, Nat.add_comm 1]
  · refine List.forall_mem_append.mpr ⟨h.complete, List.forall_mem_singleton.mpr hcomplete⟩
  · refine List.forall_mem_append.mpr ⟨h.rows, List.forall_mem_singleton.mpr ?_⟩
    exact ⟨fun _ => ⟨hcount ▸ hmost, hnext⟩, fun hsettled => absurd hstatus hsettled⟩
  · refine List.forall_mem_append.mpr ⟨h.counted, List.forall_mem_singleton.mpr ?_⟩
    rw [hfresh, hcount]
  · intro a ha
    rw [List.map_append]
    exact List.mem_append_left _ (h.known a ha)

end Orderly

section Cycle

variable {now limit : Option Number} {replies : Nat → Authority.Reply} {due : List Submission}

namespace Orderly

variable (h : Orderly most history n)
include h

/-- What a cycle makes of a row that it takes on, and of any other. -/
theorem judged (hreplies : ∀ i, replies i ≠ .nothing)
    (hread : (n.dueRows now limit).mapM SubmissionRow.read = .ok due) {row : SubmissionRow}
    (hrow : row ∈ n.store.submissions) :
    let made := attempts n.endpoints n.clock replies n.cache 0 due
    let after := settledBy n.settings.validationMaxAttempts (now.getD n.seconds) made row
    (row ∈ n.dueRows now limit ∧ after.InOrder most ∧
      ∃ a ∈ made, a.submission.row = row ∧ ∃ v, a.answer.verdict = some v ∧
        Judged most (now.getD n.seconds) v row after) ∨
    (row ∉ n.dueRows now limit ∧ after = row) := by
  intro made after
  have hrows : made.map (·.submission.row) = n.dueRows now limit := map_row_attempts hread replies
  have hmade : ∀ a ∈ made, a.submission.row ∈ n.dueRows now limit := fun a ha =>
    hrows ▸ List.mem_map_of_mem ha
  rcases settledBy_cases n.settings.validationMaxAttempts (now.getD n.seconds) h.nodup_ids
      (fun a ha => (mem_of_mem_dueRows (hmade a ha)).1) hrow
    with ⟨a, ha, hsame, hafter⟩ | ⟨hnone, hafter⟩
  · have hdue : row ∈ n.dueRows now limit := hsame ▸ hmade a ha
    have hless := ((h.rows row hrow).pending (mem_of_mem_dueRows hdue).2).1
    obtain ⟨v, hv⟩ := Option.isSome_iff_exists.mp (isSome_verdict_of_mem_attempts hreplies ha)
    obtain ⟨hjudged, hinorder⟩ := judged_update (now.getD n.seconds) v hsame hless
    have hsettled : after = (update (Number.ofNat most) (now.getD n.seconds) a.submission
        v).2.apply row := by
      rw [← h.setting]
      refine hafter.trans ?_
      rw [Attempt.settle, hv]
    rw [← hsettled] at hjudged hinorder
    exact Or.inl ⟨hdue, hinorder, a, ha, hsame, v, hv, hjudged⟩
  · exact Or.inr ⟨hrows ▸ hnone, hafter⟩

/-- A cycle keeps the submissions orderly. -/
theorem cycle (hreplies : ∀ i, replies i ≠ .nothing)
    (hread : (n.dueRows now limit).mapM SubmissionRow.read = .ok due) (cache : Authority.Cache) :
    let made := attempts n.endpoints n.clock replies n.cache 0 due
    Orderly most (⟨now.getD n.seconds, made⟩ :: history)
      (n.settled (now.getD n.seconds) made cache) := by
  intro made
  have hrows : made.map (·.submission.row) = n.dueRows now limit := map_row_attempts hread replies
  have hmadeIds : made.map (·.submission.row.id) = (n.dueRows now limit).map (·.id) :=
    map_id_attempts hread replies
  have hnodup : ((n.dueRows now limit).map (·.id)).Nodup := nodup_ids_dueRows h.nodup_ids now limit
  refine ⟨h.setting, ?_, ?_, ?_, ?_, ?_⟩
  all_goals dsimp only [settled]
  · rw [List.map_map, List.length_map, ← h.ids]
    exact List.map_congr_left fun row _ => id_settledBy _ _ _ row
  · refine List.forall_mem_map.mpr fun row hrow => ?_
    rw [isComplete_settledBy]
    exact h.complete row hrow
  · refine List.forall_mem_map.mpr fun row hrow => ?_
    rcases h.judged hreplies hread hrow with ⟨-, hinorder, -⟩ | ⟨-, hafter⟩
    · exact hinorder
    · exact hafter.symm ▸ h.rows row hrow
  · refine List.forall_mem_map.mpr fun row hrow => ?_
    rw [id_settledBy, handled_cons, h.counted row hrow, hmadeIds]
    rcases h.judged hreplies hread hrow with ⟨hdue, -, a, -, -, v, -, hjudged⟩ | ⟨hnone, hafter⟩
    · rw [List.count_eq_one_of_mem hnodup (List.mem_map_of_mem hdue), Nat.add_comm]
      exact hjudged.counted.symm
    · have hzero : ((n.dueRows now limit).map (·.id)).count row.id = 0 := by
        refine List.count_eq_zero.mpr fun hmem => hnone ?_
        obtain ⟨other, hother, hid⟩ := List.mem_map.mp hmem
        exact List.inj_on_of_nodup_map h.nodup_ids (mem_of_mem_dueRows hother).1 hrow hid ▸ hother
      rw [hzero, Nat.zero_add]
      exact congrArg (·.retryCount) hafter.symm
  · intro a ha
    have hids : (n.store.submissions.map (settledBy n.settings.validationMaxAttempts
        (now.getD n.seconds) made)).map (·.id) = n.store.submissions.map (·.id) := by
      rw [List.map_map]
      exact List.map_congr_left fun row _ => id_settledBy _ _ _ row
    rw [hids]
    rcases List.mem_append.mp ha with ha | ha
    · have hmem : a.submission.row ∈ n.dueRows now limit := hrows ▸ List.mem_map_of_mem ha
      exact List.mem_map_of_mem (mem_of_mem_dueRows hmem).1
    · exact h.known a ha

/-- The next cycle takes on what is due and nothing else. -/
theorem handles (replies : Nat → Authority.Reply) (hreplies : ∀ i, replies i ≠ .nothing)
    (now limit : Option Number) : n.Handles most replies now limit := by
  have hdue : ∀ row ∈ n.dueRows now limit, row.isComplete = true := fun row hrow =>
    h.complete row (mem_of_mem_dueRows hrow).1
  obtain ⟨due, hread⟩ := SubmissionRow.exists_mapM_read_iff.mpr hdue
  obtain ⟨cache, hsettled⟩ := exists_perform_cycle h.nodup_ids hread replies
  refine ⟨due, _, _, hread, hsettled, _, rfl, fun row hrow => ?_⟩
  rcases h.judged hreplies hread hrow with ⟨hmem, -, hjudged⟩ | ⟨hnone, hafter⟩
  · exact ⟨fun _ => ⟨(mem_of_mem_dueRows hmem).2, hjudged⟩, fun hnone => absurd hmem hnone⟩
  · exact ⟨fun hmem => absurd hmem hnone, fun _ => hafter⟩

end Orderly

end Cycle

section Run

variable {start : Node} {earlier later : List Round}

/-- The submissions stay orderly, whatever validation does. -/
theorem Validating.orderly (hmost : 1 ≤ most) (hstart : Orderly most earlier start)
    (h : Validating start history n) : Orderly most (history ++ earlier) n := by
  induction h with
  | start => exact hstart
  | stage entry submitterId authorityId c _ hperform ih => exact ih.stage hmost hperform
  | elsewhere _ hrows hsettings ih => exact ih.elsewhere hrows hsettings
  | cycle replies now limit _ hreplies hread hperform ih =>
    obtain ⟨cache, hsettled⟩ := exists_perform_cycle ih.nodup_ids hread replies
    obtain ⟨-, rfl⟩ := Prod.mk.inj (Option.some.inj (hsettled.symm.trans hperform))
    exact ih.cycle hreplies hread cache

/-- What became of a row: it is the same until an attempt is counted, and for good once it is
settled. -/
structure Follows (row after : SubmissionRow) : Prop where
  id : after.id = row.id
  counted : row.retryCount ≤ after.retryCount
  untouched : after.retryCount = row.retryCount → after = row
  settled : row.status ≠ .pending → after = row

theorem Follows.refl (row : SubmissionRow) : Follows row row :=
  ⟨rfl, Nat.le_refl _, fun _ => rfl, fun _ => rfl⟩

theorem Follows.trans {a b c : SubmissionRow} (h : Follows a b) (h' : Follows b c) :
    Follows a c where
  id := h'.id.trans h.id
  counted := h.counted.trans h'.counted
  untouched := by
    intro hcount
    have hsame := h.untouched (by have := h.counted; have := h'.counted; omega)
    rw [← hsame]
    exact h'.untouched (by rw [hcount, hsame])
  settled := by
    intro hstatus
    have hsame := h.settled hstatus
    rw [← hsame] at hstatus
    rw [h'.settled hstatus, hsame]

/-- Every row is followed by one of the same number. -/
theorem Orderly.follows (hmost : 1 ≤ most) (hn : Orderly most earlier n)
    (h : Validating n later m) :
    ∀ row ∈ n.store.submissions, ∃ after ∈ m.store.submissions, Follows row after := by
  intro row hrow
  induction h with
  | start => exact ⟨row, hrow, .refl row⟩
  | @stage later m t result entry submitterId authorityId c hm hperform ih =>
    obtain ⟨after, hafter, hfollows⟩ := ih
    obtain ⟨result', hstaged⟩ := perform_stage (Intake.draft entry submitterId authorityId c) m
    obtain ⟨-, rfl⟩ := Prod.mk.inj (Option.some.inj (hstaged.symm.trans hperform))
    exact ⟨after, List.mem_append_left _ hafter, hfollows⟩
  | elsewhere _ hrows _ ih =>
    obtain ⟨after, hafter, hfollows⟩ := ih
    exact ⟨after, hrows ▸ hafter, hfollows⟩
  | @cycle later m t due counts calls replies now limit hm hreplies hread hperform ih =>
    obtain ⟨after, hafter, hfollows⟩ := ih
    have horderly := hm.orderly hmost hn
    obtain ⟨cache, hsettled⟩ := exists_perform_cycle horderly.nodup_ids hread replies
    obtain ⟨-, rfl⟩ := Prod.mk.inj (Option.some.inj (hsettled.symm.trans hperform))
    refine ⟨_, List.mem_map_of_mem hafter, hfollows.trans ?_⟩
    rcases horderly.judged hreplies hread hafter with
      ⟨hdue, -, a, -, -, v, -, hjudged⟩ | ⟨-, hsame⟩
    · have hcounted := hjudged.counted
      refine ⟨id_settledBy _ _ _ after, by omega, fun hcount => ?_, fun hstatus => ?_⟩
      · omega
      · exact absurd (mem_of_mem_dueRows hdue).2 hstatus
    · exact hsame.symm ▸ .refl after

end Run

/-- The submissions that were staged and validated, whenever the cycles ran and whatever the
authorities answered. A pending one has attempts left and a time for the next; a settled one has
used at least one and at most all. As many attempts were made on it as are counted, so that no
authority was asked about it more often than that. The next cycle makes one attempt on each that is
due and leaves the others. What is settled stays so. -/
theorem validation_settles (most : Nat) (hmost : 1 ≤ most) (start : Node)
    (hempty : start.store.submissions = [])
    (hsetting : start.settings.validationMaxAttempts = Number.ofNat most)
    (history : List Round) (n : Node) (hrun : Validating start history n) :
    (∀ row ∈ n.store.submissions, row.InOrder most ∧ handled history row.id = row.retryCount ∧
      asked history row.id ≤ most) ∧
    (∀ replies, (∀ i, replies i ≠ .nothing) → ∀ now limit, n.Handles most replies now limit) ∧
    (∀ later m, Validating n later m →
      ∀ row ∈ n.store.submissions, ∃ after ∈ m.store.submissions, Follows row after) := by
  have horderly : Orderly most (history ++ []) n := hrun.orderly hmost (.start hempty hsetting)
  rw [List.append_nil] at horderly
  refine ⟨fun row hrow => ?_, horderly.handles, fun later m hlater => horderly.follows hmost hlater⟩
  have hinorder := horderly.rows row hrow
  have hcounted := horderly.counted row hrow
  refine ⟨hinorder, hcounted, ?_⟩
  have hused : row.retryCount ≤ most := by
    by_cases hstatus : row.status = .pending
    · exact (hinorder.pending hstatus).1.le
    · exact (hinorder.settled hstatus).2.1
  calc asked history row.id ≤ handled history row.id := asked_le_handled history row.id
    _ = row.retryCount := hcounted
    _ ≤ most := hused

/-- One submission whose authority does not answer in time: after the first cycle one attempt is
counted. -/
theorem validation_settles_late_answer : ∃ history m row, Validating lone history m ∧
    row ∈ m.store.submissions ∧ row.retryCount = 1 ∧ row.InOrder 5 ∧
    handled history row.id = row.retryCount ∧ asked history row.id ≤ 5 := by
  have hsetting : lone.settings.validationMaxAttempts = Number.ofNat 5 := by decide +kernel
  obtain ⟨n, hn, hdue⟩ : ∃ n, Validating lone [] n ∧
      ∃ row ∈ n.dueRows (some 120) none, row.retryCount = 0 := by
    refine ⟨_, .stage (waitingRow 1 'a').entry "camera" "authority"
      (.certificate ⟨"certificate", "signature"⟩) .start (perform_stage _ lone).choose_spec, ?_⟩
    decide +kernel
  obtain ⟨row, hrow, hzero⟩ := hdue
  obtain ⟨-, hhandles, -⟩ := validation_settles 5 (by decide) lone rfl hsetting [] n hn
  obtain ⟨due, counts, m, hread, hperform, change, hm, hrows⟩ :=
    hhandles (fun _ => .timedOut) nofun (some 120) none
  obtain ⟨-, a, -, -, v, -, hjudged⟩ := (hrows row (mem_of_mem_dueRows hrow).1).1 hrow
  have hcycle := Validating.cycle (fun _ => .timedOut) (some 120) none hn nofun hread hperform
  have hafter : change row ∈ m.store.submissions := by
    rw [hm]
    exact List.mem_map_of_mem (mem_of_mem_dueRows hrow).1
  obtain ⟨hall, -, -⟩ := validation_settles 5 (by decide) lone rfl hsetting _ m hcycle
  exact ⟨_, m, change row, hcycle, hafter, hjudged.counted.trans (by rw [hzero]), hall _ hafter⟩

end Node

end ImageLedger
