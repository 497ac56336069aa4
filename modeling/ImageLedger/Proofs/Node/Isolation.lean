import ImageLedger.Proofs.Node.Attempts
import ImageLedger.Proofs.Node.BatchingProgress

namespace ImageLedger.Node

open Validation

/-- A cycle ends well, and makes just one attempt on each submission it takes on that holds the
credentials of its kind. Every attempt is recorded, and nothing else changes in the tables. -/
def Isolates (n : Node) (replies : Nat → Authority.Reply) (now limit : Option Number) : Prop :=
  ∃ counts cache chosen,
    ((n.dueRows now limit).filter SubmissionRow.isComplete).mapM SubmissionRow.read = .ok chosen ∧
    let made := attempts n.endpoints n.clock replies n.cache 0 chosen
    (∀ a ∈ made, a.answer.verdict.isSome = true) ∧
    (validationCycle replies now limit).perform n =
      some (.ok (counts, made.flatMap (·.answer.call.toList)),
        n.settled (now.getD n.seconds) made cache)

/-- A cycle keeps its submissions apart exactly when all it takes on can be read back. It is the
submissions it takes on that count: others may be broken. When one of these is, the cycle fails and
no attempt is made. -/
theorem isolates_iff_complete (n : Node) (hids : (n.store.submissions.map (·.id)).Nodup)
    (replies : Nat → Authority.Reply) (hreplies : ∀ i, replies i ≠ .nothing)
    (now limit : Option Number) :
    (n.Isolates replies now limit ↔ ∀ row ∈ n.dueRows now limit, row.isComplete = true) ∧
    (∀ row ∈ n.dueRows now limit, row.isComplete = false → ∃ e,
      (validationCycle replies now limit).perform n = some (.error (.submission e), n)) := by
  have hbroken : ∀ row ∈ n.dueRows now limit, row.isComplete = false → ∃ e,
      (validationCycle replies now limit).perform n = some (.error (.submission e), n) := by
    intro row hrow hcomplete
    cases hread : (n.dueRows now limit).mapM SubmissionRow.read with
    | error e => exact ⟨e, perform_validationCycle_error hread replies⟩
    | ok due =>
      have hall := SubmissionRow.exists_mapM_read_iff.mp ⟨due, hread⟩ row hrow
      rw [hcomplete] at hall
      cases hall
  refine ⟨⟨?_, ?_⟩, hbroken⟩
  · rintro ⟨counts, cache, chosen, -, -, hok⟩ row hrow
    by_contra hcomplete
    obtain ⟨e, herror⟩ := hbroken row hrow (Bool.eq_false_iff.mpr hcomplete)
    cases hok.symm.trans herror
  · intro hcomplete
    obtain ⟨due, hread⟩ := SubmissionRow.exists_mapM_read_iff.mpr hcomplete
    have hfilter : (n.dueRows now limit).filter SubmissionRow.isComplete = n.dueRows now limit :=
      List.filter_eq_self.mpr hcomplete
    obtain ⟨cache, hok⟩ := exists_perform_cycle hids hread replies
    refine ⟨_, cache, due, by rw [hfilter, hread], ?_, hok⟩
    exact fun a ha => isSome_verdict_of_mem_attempts hreplies ha

/-- A submission that waits for its authority's verdict. -/
def pendingRow (id : Nat) (digit : Char) : SubmissionRow :=
  { waitingRow id digit with status := .pending, nextRetryAt := some 90 }

/-- The same without its credentials. -/
def brokenRow (id : Nat) (digit : Char) : SubmissionRow :=
  { pendingRow id digit with credentials := .empty }

/-- A broken submission beyond the limit of the cycle does no harm. -/
theorem isolates_beyond_limit :
    (queueing [pendingRow 1 'a', brokenRow 2 'b'] 1 1).Isolates (fun _ => .timedOut) (some 120)
      (some 1) := by
  have hids : ((queueing [pendingRow 1 'a', brokenRow 2 'b'] 1 1).store.submissions.map
      (·.id)).Nodup := by decide
  have hdue : (queueing [pendingRow 1 'a', brokenRow 2 'b'] 1 1).dueRows (some 120) (some 1) =
      [pendingRow 1 'a'] := by decide +kernel
  refine (isolates_iff_complete _ hids (fun _ => .timedOut) nofun (some 120) (some 1)).1.mpr ?_
  rw [hdue]
  decide

/-- Of two submissions that are due the first has no credentials: the cycle fails, and the second,
which the authority would confirm, has no attempt made on it. -/
theorem broken_row_holds_up_the_rest :
    let n := queueing [brokenRow 1 'a', pendingRow 2 'b'] 1 1
    let replies := fun _ : Nat => Authority.Reply.response 200 (some "\x7b\"valid\":true\x7d")
    (n.store.submissions.map (·.id)).Nodup ∧ (∀ i, replies i ≠ .nothing) ∧
      pendingRow 2 'b' ∈ n.dueRows (some 120) none ∧ (pendingRow 2 'b').isComplete = true ∧
      (validationCycle replies (some 120) none).perform n =
        some (.error (.submission (.noCertificate (receiptId 1))), n) ∧
      ¬ n.Isolates replies (some 120) none := by
  intro n replies
  have hids : (n.store.submissions.map (·.id)).Nodup := by decide
  have hdue : n.dueRows (some 120) none = [brokenRow 1 'a', pendingRow 2 'b'] := by
    decide +kernel
  have hfails : (validationCycle replies (some 120) none).perform n =
      some (.error (.submission (.noCertificate (receiptId 1))), n) := by
    refine perform_validationCycle_error ?_ replies
    rw [hdue]
    rfl
  refine ⟨hids, nofun, ?_, by decide, hfails, ?_⟩
  · rw [hdue]
    exact List.mem_cons_of_mem _ List.mem_cons_self
  · rintro ⟨counts, cache, chosen, -, -, hok⟩
    cases hok.symm.trans hfails

end ImageLedger.Node
