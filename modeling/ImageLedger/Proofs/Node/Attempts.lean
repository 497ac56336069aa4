import ImageLedger.Proofs.Node.Perform
import ImageLedger.Proofs.Store.Submissions

namespace ImageLedger

/-- A question that is answered ends with a verdict. -/
theorem Authority.isSome_verdict_ask {reply : Authority.Reply} (h : reply ≠ .nothing)
    (endpoints : Authority.Endpoints) (cache : Authority.Cache) (now : Int)
    (r : Authority.Request) :
    (Authority.ask endpoints cache now reply r).verdict.isSome = true := by
  have hverdict : (Authority.verdictOf r.subject reply).isSome = true := by
    cases reply with
    | response status body =>
      unfold Authority.verdictOf
      dsimp only
      split
      · split <;> rfl
      · rfl
    | timedOut => rfl
    | failed message => rfl
    | nothing => exact absurd rfl h
  obtain ⟨v, hv⟩ := Option.isSome_iff_exists.mp hverdict
  rw [Authority.ask, hv]
  split <;> rfl

/-- A submission with the credentials of its kind. -/
def SubmissionRow.isComplete (row : SubmissionRow) : Bool :=
  let c := row.credentials
  match row.kind with
  | .certificate => c.cameraCert.isSome && c.bundleSignature.isSome
  | .cameraToken =>
    c.ciphertext.isSome && c.authTag.isSome && c.nonce.isSome && c.tableId.isSome &&
      c.keyIndex.isSome

/-- What an attempt leaves of the row it was made on. -/
def AttemptUpdate.apply (u : AttemptUpdate) (row : SubmissionRow) : SubmissionRow :=
  { row with
    status := u.status
    message := u.message
    retryCount := u.retryCount
    nextRetryAt := u.nextRetryAt }

namespace Validation

/-- An attempt on a submission, with what its question was answered. -/
structure Attempt where
  submission : Submission
  answer : Authority.Outcome

/-- The attempts of a cycle. Each question finds the cache as the ones before it left it, and takes
the next reply if it comes to a call. -/
def attempts (endpoints : Authority.Endpoints) (clock : Int) (replies : Nat → Authority.Reply) :
    Authority.Cache → Nat → List Submission → List Attempt
  | _, _, [] => []
  | cache, calls, s :: rest =>
    let answer := Authority.ask endpoints cache clock (replies calls) (requestOf s)
    ⟨s, answer⟩ ::
      attempts endpoints clock replies answer.cache (calls + answer.call.toList.length) rest

namespace Attempt

variable (maxAttempts now : Number)

/-- How an attempt ended. -/
def outcome (a : Attempt) : AttemptOutcome :=
  match a.answer.verdict with
  | some v => (update maxAttempts now a.submission v).1
  | .none => .failed

/-- The row after an attempt. -/
def settle (a : Attempt) (row : SubmissionRow) : SubmissionRow :=
  match a.answer.verdict with
  | some v => (update maxAttempts now a.submission v).2.apply row
  | .none => row

/-- The tables after an attempt. -/
def record (s : Store) (a : Attempt) : Store :=
  s.updateRow a.submission.row.id (a.settle maxAttempts now)

end Attempt

/-- A row after the attempts of a cycle, which may hold one on it. -/
def settledBy (maxAttempts now : Number) (made : List Attempt) (row : SubmissionRow) :
    SubmissionRow :=
  match made.find? (·.submission.row.id = row.id) with
  | some a => a.settle maxAttempts now row
  | .none => row

end Validation

section Rows

variable {row : SubmissionRow} {rows : List SubmissionRow}

theorem SubmissionRow.exists_read_iff : (∃ c, row.read = .ok c) ↔ row.isComplete = true := by
  unfold SubmissionRow.read SubmissionRow.isComplete
  cases row.kind with
  | certificate =>
    dsimp only
    split
    · next hcert hsignature => simp [hcert, hsignature]
    · next hmissing =>
      cases hcert : row.credentials.cameraCert <;>
        cases hsignature : row.credentials.bundleSignature <;> simp_all
  | cameraToken =>
    dsimp only
    split
    · next h₁ h₂ h₃ h₄ h₅ => simp [h₁, h₂, h₃, h₄, h₅]
    · next hmissing =>
      simp only [reduceCtorEq, exists_false, false_iff, Bool.and_eq_true, Option.isSome_iff_exists]
      rintro ⟨⟨⟨⟨⟨_, h₁⟩, _, h₂⟩, _, h₃⟩, _, h₄⟩, _, h₅⟩
      exact hmissing _ _ _ _ _ h₁ h₂ h₃ h₄ h₅

/-- Rows are read back together exactly when each of them has the credentials of its kind. -/
theorem SubmissionRow.exists_mapM_read_iff :
    (∃ cs, rows.mapM SubmissionRow.read = .ok cs) ↔ ∀ row ∈ rows, row.isComplete = true := by
  induction rows with
  | nil => exact ⟨fun _ _ h => absurd h List.not_mem_nil, fun _ => ⟨[], rfl⟩⟩
  | cons row rest ih =>
    rw [List.forall_mem_cons, ← ih, ← exists_read_iff]
    constructor
    · rintro ⟨cs, h⟩
      rw [List.mapM_cons, bind_eq_ok] at h
      obtain ⟨c, hc, h⟩ := h
      obtain ⟨more, hmore, -⟩ := bind_eq_ok.mp h
      exact ⟨⟨c, hc⟩, more, hmore⟩
    · rintro ⟨⟨c, hc⟩, more, hmore⟩
      refine ⟨c :: more, ?_⟩
      rw [List.mapM_cons, hc, bind_eq_ok]
      exact ⟨c, rfl, bind_eq_ok.mpr ⟨more, hmore, rfl⟩⟩

end Rows

namespace Validation

section Attempt

variable {maxAttempts now : Number} {a : Attempt} {made : List Attempt} {row : SubmissionRow}

theorem Attempt.id_settle : (a.settle maxAttempts now row).id = row.id := by
  unfold Attempt.settle
  split <;> rfl

/-- An attempt without a verdict records nothing. -/
theorem Attempt.record_of_none {s : Store} (h : a.answer.verdict = .none) :
    a.record maxAttempts now s = s := by
  have hsettle : a.settle maxAttempts now = id := by
    funext row
    rw [settle, h]
    rfl
  have hsame : (fun row : SubmissionRow => if row.id = a.submission.row.id then id row else row) =
      id := by
    funext row
    exact ite_self row
  rw [record, hsettle, Store.updateRow, hsame, List.map_id]

theorem settledBy_cons : settledBy maxAttempts now (a :: made) row =
    if a.submission.row.id = row.id then a.settle maxAttempts now row
    else settledBy maxAttempts now made row := by
  by_cases hid : a.submission.row.id = row.id
  · simp [settledBy, hid]
  · simp [settledBy, hid]

theorem settledBy_of_notMem (h : row.id ∉ made.map (·.submission.row.id)) :
    settledBy maxAttempts now made row = row := by
  have hnone : made.find? (·.submission.row.id = row.id) = .none := by
    refine List.find?_eq_none.mpr fun a ha => ?_
    simpa using fun he => h (List.mem_map.mpr ⟨a, ha, he⟩)
  rw [settledBy, hnone]

/-- Attempts on different submissions are recorded as if at once. -/
theorem foldl_record (maxAttempts now : Number) (s : Store)
    (hids : (made.map (·.submission.row.id)).Nodup) :
    made.foldl (Attempt.record maxAttempts now) s =
      { s with submissions := s.submissions.map (settledBy maxAttempts now made) } := by
  induction made generalizing s with
  | nil =>
    have hid : settledBy maxAttempts now [] = id := rfl
    rw [hid, List.map_id]
    rfl
  | cons a rest ih =>
    obtain ⟨hfresh, hrest⟩ := List.nodup_cons.mp hids
    rw [List.foldl_cons, ih _ hrest]
    simp only [Attempt.record, Store.updateRow, List.map_map]
    congr 1
    refine List.map_congr_left fun row _ => ?_
    rw [settledBy_cons, Function.comp_apply]
    by_cases hid : row.id = a.submission.row.id
    · rw [if_pos hid, if_pos hid.symm]
      refine settledBy_of_notMem ?_
      rwa [Attempt.id_settle, hid]
    · rw [if_neg hid, if_neg (Ne.symm hid)]

theorem map_submission_attempts (endpoints : Authority.Endpoints) (clock : Int)
    (replies : Nat → Authority.Reply) (cache : Authority.Cache) (calls : Nat)
    (due : List Submission) :
    (attempts endpoints clock replies cache calls due).map (·.submission) = due := by
  induction due generalizing cache calls with
  | nil => rfl
  | cons s rest ih => rw [attempts, List.map_cons, ih]

/-- Every question gets a verdict as long as every call is answered. -/
theorem isSome_verdict_of_mem_attempts {endpoints : Authority.Endpoints} {clock : Int}
    {replies : Nat → Authority.Reply} (hreplies : ∀ i, replies i ≠ .nothing)
    {cache : Authority.Cache} {calls : Nat} {due : List Submission}
    (ha : a ∈ attempts endpoints clock replies cache calls due) :
    a.answer.verdict.isSome = true := by
  induction due generalizing cache calls with
  | nil => cases ha
  | cons s rest ih =>
    rcases List.mem_cons.mp ha with rfl | ha
    · exact Authority.isSome_verdict_ask (hreplies calls) ..
    · exact ih ha

end Attempt

end Validation

namespace Node

open Operation Validation

variable {n : Node}

theorem perform_consult (reply : Authority.Reply) (r : Authority.Request) :
    (consult reply r).perform n =
      let answer := Authority.ask n.endpoints n.cache n.clock reply r
      some (.ok (answer.verdict, answer.call), { n with cache := answer.cache }) := by
  have hremembered : (remembered r).perform n =
      some (.ok (Authority.remembered n.cache n.clock r).1,
        { n with cache := (Authority.remembered n.cache n.clock r).2 }) := rfl
  rw [consult, perform_bind hremembered, Authority.ask]
  obtain ⟨kept, cache⟩ := Authority.remembered n.cache n.clock r
  cases kept with
  | some v => rfl
  | none =>
    change some _ = _
    dsimp only
    cases Authority.verdictOf r.subject reply with
    | some v => rfl
    | none => rfl

/-- The node after an attempt. -/
def afterAttempt (now : Number) (n : Node) (a : Attempt) : Node :=
  { n with
    cache := a.answer.cache
    store := a.record n.settings.validationMaxAttempts now n.store }

theorem perform_askOnce (now : Number) (reply : Authority.Reply) (s : Submission) :
    (attempt now reply s).perform n =
      let a : Attempt := ⟨s, Authority.ask n.endpoints n.cache n.clock reply (requestOf s)⟩
      some (.ok (a.outcome n.settings.validationMaxAttempts now, a.answer.call),
        n.afterAttempt now a) := by
  rw [attempt, perform_bind (perform_consult reply (requestOf s))]
  obtain ⟨verdict, cache, call⟩ := Authority.ask n.endpoints n.cache n.clock reply (requestOf s)
  cases verdict with
  | some v => rfl
  | none =>
    dsimp only [afterAttempt]
    rw [Attempt.record_of_none rfl]
    rfl

/-- The attempts of a cycle are made and counted one after the other. -/
theorem perform_attemptAll (now : Number) (replies : Nat → Authority.Reply)
    (due : List Submission) (counts : ValidationCounts) (calls : List Authority.Call) :
    (attemptAll now replies due counts calls).perform n =
      let made := attempts n.endpoints n.clock replies n.cache calls.length due
      some (.ok ((made.map (Attempt.outcome n.settings.validationMaxAttempts now)).foldl
          Validation.count counts, calls ++ made.flatMap (·.answer.call.toList)),
        made.foldl (afterAttempt now) n) := by
  induction due generalizing n counts calls with
  | nil =>
    simp only [attempts, List.flatMap_nil, List.append_nil]
    rfl
  | cons s rest ih =>
    rw [attemptAll, perform_bind (perform_askOnce now (replies calls.length) s)]
    dsimp only
    rw [ih, List.length_append]
    simp only [attempts, List.map_cons, List.foldl_cons, List.flatMap_cons, List.append_assoc]
    rfl

/-- The rows that a cycle takes on. -/
def dueRows (n : Node) (now limit : Option Number) : List SubmissionRow :=
  n.store.dueRows n.settings.validationMaxAttempts (limit.getD defaultLimit) (now.getD n.seconds)

section Due

variable {now limit : Option Number}

/-- The rows that a cycle takes on are pending rows of the table. -/
theorem mem_of_mem_dueRows {row : SubmissionRow}
    (hrow : row ∈ n.dueRows now limit) : row ∈ n.store.submissions ∧ row.status = .pending := by
  obtain ⟨hmem, hdue⟩ := List.mem_filter.mp ((Store.limited_sublist _ _).subset hrow)
  refine ⟨hmem, ?_⟩
  simp only [Store.isDue, Bool.and_eq_true, decide_eq_true_eq] at hdue
  exact hdue.1.1

/-- The submissions that a cycle takes on are different ones. -/
theorem nodup_ids_dueRows (hids : (n.store.submissions.map (·.id)).Nodup)
    (now limit : Option Number) : ((n.dueRows now limit).map (·.id)).Nodup := by
  have hsub : (n.dueRows now limit).Sublist n.store.submissions :=
    (Store.limited_sublist _ _).trans List.filter_sublist
  exact (hsub.map (·.id)).nodup hids

/-- The attempts of a cycle are made on the rows it takes on, in their order. -/
theorem map_row_attempts {due : List Submission}
    (hread : (n.dueRows now limit).mapM SubmissionRow.read = .ok due)
    (replies : Nat → Authority.Reply) :
    (attempts n.endpoints n.clock replies n.cache 0 due).map (·.submission.row) =
      n.dueRows now limit := by
  have hmade := map_submission_attempts n.endpoints n.clock replies n.cache 0 due
  rw [← Store.map_row_of_mapM_read hread]
  conv_rhs => rw [← hmade, List.map_map]
  rfl

theorem map_id_attempts {due : List Submission}
    (hread : (n.dueRows now limit).mapM SubmissionRow.read = .ok due)
    (replies : Nat → Authority.Reply) :
    (attempts n.endpoints n.clock replies n.cache 0 due).map (·.submission.row.id) =
      (n.dueRows now limit).map (·.id) := by
  rw [← map_row_attempts hread replies, List.map_map]
  rfl

end Due

/-- A cycle that reads back all that is due makes an attempt on each. -/
theorem perform_validationCycle {now limit : Option Number} {due : List Submission}
    (hread : (n.dueRows now limit).mapM SubmissionRow.read = .ok due)
    (replies : Nat → Authority.Reply) :
    (validationCycle replies now limit).perform n =
      let made := attempts n.endpoints n.clock replies n.cache 0 due
      some (.ok ((made.map (Attempt.outcome n.settings.validationMaxAttempts
          (now.getD n.seconds))).foldl Validation.count Validation.none,
          made.flatMap (·.answer.call.toList)),
        made.foldl (afterAttempt (now.getD n.seconds)) n) := by
  have hdue : (Operation.look fun n : Node => (n.store.findDue n.settings.validationMaxAttempts
      (limit.getD defaultLimit) (now.getD n.seconds)).mapError Fault.submission).perform n =
      some (.ok due, n) := by
    rw [perform_look, Store.findDue]
    change some (((n.dueRows now limit).mapM SubmissionRow.read).mapError Fault.submission, n) = _
    rw [hread]
    rfl
  have hclock : (Operation.look fun m => .ok m.seconds).perform n = some (.ok n.seconds, n) := rfl
  rw [validationCycle, perform_bind hclock]
  exact (perform_bind hdue).trans (perform_attemptAll _ replies due Validation.none [])

/-- A cycle that cannot read back one of those that are due ends before its first attempt. -/
theorem perform_validationCycle_error {now limit : Option Number} {e : SubmissionError}
    (hread : (n.dueRows now limit).mapM SubmissionRow.read = .error e)
    (replies : Nat → Authority.Reply) :
    (validationCycle replies now limit).perform n = some (.error (.submission e), n) := by
  have hdue : (Operation.look fun n : Node => (n.store.findDue n.settings.validationMaxAttempts
      (limit.getD defaultLimit) (now.getD n.seconds)).mapError Fault.submission).perform n =
      some (.error (.submission e), n) := by
    rw [perform_look, Store.findDue]
    change some (((n.dueRows now limit).mapM SubmissionRow.read).mapError Fault.submission, n) = _
    rw [hread]
    rfl
  have hclock : (Operation.look fun m => .ok m.seconds).perform n = some (.ok n.seconds, n) := rfl
  rw [validationCycle, perform_bind hclock]
  exact perform_bind_error hdue

/-- The node after attempts that were all recorded. -/
def settled (n : Node) (now : Number) (made : List Attempt) (cache : Authority.Cache) : Node :=
  let settle := settledBy n.settings.validationMaxAttempts now made
  { n with cache, store := { n.store with submissions := n.store.submissions.map settle } }

/-- Attempts on different submissions change the cache and the rows they are made on. -/
theorem foldl_afterAttempt (now : Number) (n : Node) {made : List Attempt}
    (hids : (made.map (·.submission.row.id)).Nodup) :
    ∃ cache, made.foldl (afterAttempt now) n = n.settled now made cache := by
  have hstore := foldl_record n.settings.validationMaxAttempts now n.store hids
  dsimp only [settled]
  rw [← hstore]
  clear hstore hids
  induction made generalizing n with
  | nil => exact ⟨n.cache, rfl⟩
  | cons a rest ih => exact ih (n.afterAttempt now a)

/-- A cycle that reads back all that is due changes just the cache and the rows it takes on. -/
theorem exists_perform_cycle (hids : (n.store.submissions.map (·.id)).Nodup)
    {now limit : Option Number} {due : List Submission}
    (hread : (n.dueRows now limit).mapM SubmissionRow.read = .ok due)
    (replies : Nat → Authority.Reply) :
    let made := attempts n.endpoints n.clock replies n.cache 0 due
    ∃ cache, (validationCycle replies now limit).perform n =
      some (.ok ((made.map (Attempt.outcome n.settings.validationMaxAttempts
          (now.getD n.seconds))).foldl Validation.count Validation.none,
          made.flatMap (·.answer.call.toList)),
        n.settled (now.getD n.seconds) made cache) := by
  intro made
  have hmade : (made.map (·.submission.row.id)).Nodup := by
    rw [map_id_attempts hread replies]
    exact nodup_ids_dueRows hids now limit
  obtain ⟨cache, hafter⟩ := foldl_afterAttempt (now.getD n.seconds) n hmade
  refine ⟨cache, ?_⟩
  rw [← hafter]
  exact perform_validationCycle hread replies

end Node

end ImageLedger
