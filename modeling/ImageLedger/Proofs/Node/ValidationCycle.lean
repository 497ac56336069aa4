import ImageLedger.Node.Validation
import ImageLedger.Proofs.Node.Guarded
import ImageLedger.Proofs.Store.Moves

namespace ImageLedger.Node

open Operation

/-- What the validator relies on. -/
def ValidatorRely (s t : Store) : Prop := (s.Healthy → t.Healthy) ∧ s.PendingKept t

theorem ValidatorRely.refl (s : Store) : ValidatorRely s s := ⟨id, fun _ h _ => h⟩

theorem ValidatorRely.trans {s t u : Store} (h : ValidatorRely s t) (h' : ValidatorRely t u) :
    ValidatorRely s u :=
  ⟨fun hs => h'.1 (h.1 hs), h.2.trans h'.2⟩

/-- The submissions whose attempts are still to be made are pending, and none is there twice. -/
structure Due (due : List Submission) (s : Store) : Prop where
  healthy : s.Healthy
  pending : ∀ c ∈ due, c.row ∈ s.submissions ∧ c.row.status = .pending
  nodup : (due.map (·.row.id)).Nodup

theorem Due.tail {c : Submission} {rest : List Submission} {s : Store} (h : Due (c :: rest) s) :
    Due rest s :=
  ⟨h.healthy, fun d hd => h.pending d (List.mem_cons_of_mem c hd), (List.nodup_cons.mp h.nodup).2⟩

theorem Due.rely {due : List Submission} {s t : Store} (h : Due due s) (hst : ValidatorRely s t) :
    Due due t where
  healthy := hst.1 h.healthy
  pending := by
    intro c hc
    obtain ⟨hmem, hstatus⟩ := h.pending c hc
    exact ⟨hst.2 c.row hmem hstatus, hstatus⟩
  nodup := h.nodup

theorem steady_due (due : List Submission) : Steady ValidatorRely fun _ s => Due due s :=
  ⟨fun _ _ _ h hst => h.rely hst, fun _ _ _ h => h⟩

/-- An attempt on one submission leaves the others due. -/
theorem Due.recordAttempt {c : Submission} {rest : List Submission} {s : Store}
    (h : Due (c :: rest) s) (u : AttemptUpdate) : Due rest (s.recordAttempt c.row.id u) := by
  obtain ⟨hmem, hstatus⟩ := h.pending c List.mem_cons_self
  obtain ⟨hfresh, hnodup⟩ := List.nodup_cons.mp h.nodup
  have hmove : s.ValidationMove (s.recordAttempt c.row.id u) := .record u hmem hstatus
  refine ⟨(hmove.keeps h.healthy).1, ?_, hnodup⟩
  intro d hd
  obtain ⟨hd', hs⟩ := h.pending d (List.mem_cons_of_mem c hd)
  have hne : d.row.id ≠ c.row.id := fun he => hfresh (List.mem_map.mpr ⟨d, hd, he⟩)
  exact ⟨Store.mem_updateRow hd' hne, hs⟩

theorem consult_quiet (reply : Authority.Reply) (r : Authority.Request) :
    Quiet (fun _ => True) (consult reply r).run := by
  have hfirst : Quiet (fun _ => True) (remembered r).run := Quiet.atomic fun n => ⟨rfl, trivial⟩
  apply Quiet.bind hfirst
  · intro kept _
    cases kept with
    | some v => trivial
    | none =>
      apply Quiet.atomic
      intro n
      cases Authority.verdictOf r.subject reply with
      | some v => exact ⟨rfl, trivial⟩
      | none => exact ⟨rfl, trivial⟩
  · exact fun _ _ => trivial

theorem attempt_guarded {c : Submission} {rest : List Submission} {seen : List Node} {n : Node}
    (h : Due (c :: rest) n.store) (now : Number) (reply : Authority.Reply) :
    (attempt now reply c).Guarded ValidatorRely Store.ValidationMove (fun _ _ s => Due rest s)
      seen n := by
  have hquiet := consult_quiet reply (Validation.requestOf c)
  apply Guarded.bind ValidatorRely.refl
    (Guarded.quiet (steady_due (c :: rest)) Store.ValidationMove.idle hquiet h)
  · intro seen answer m hparts
    obtain ⟨verdict, call⟩ := answer
    obtain ⟨hm, -⟩ := hparts
    cases verdict with
    | none => exact Guarded.pure fun t ht => (hm.rely ht).tail
    | some v =>
      apply Guarded.atomic
      intro t ht
      have hdue := hm.rely ht
      obtain ⟨hmem, hstatus⟩ := hdue.pending c List.mem_cons_self
      exact ⟨.record _ hmem hstatus, fun u hu => (hdue.recordAttempt _).rely hu⟩
  · intro seen e s t hparts ht
    obtain ⟨hs, -⟩ := hparts
    exact (hs.rely ht).tail

theorem attemptAll_guarded {due : List Submission} {seen : List Node} {n : Node}
    (h : Due due n.store) (now : Number) (replies : Nat → Authority.Reply)
    (counts : ValidationCounts) (calls : List Authority.Call) :
    (attemptAll now replies due counts calls).Guarded ValidatorRely Store.ValidationMove
      (fun _ _ _ => True) seen n := by
  induction due generalizing seen n counts calls with
  | nil => exact Guarded.pure fun _ _ => trivial
  | cons c rest ih =>
    apply Guarded.bind ValidatorRely.refl (attempt_guarded h now (replies calls.length))
    · exact fun seen answer m hm => ih hm _ _
    · exact fun _ _ _ _ _ _ => trivial

/-- All that a validation cycle does to the tables are moves of the validator. -/
theorem validationCycle_guarded (replies : Nat → Authority.Reply) (now limit : Option Number)
    {seen : List Node} {n : Node} (h : n.store.Healthy) :
    (validationCycle replies now limit).Guarded ValidatorRely Store.ValidationMove
      (fun _ _ _ => True) seen n := by
  have hclock : Quiet (fun _ => True)
      (Operation.look fun n => .ok n.seconds : Operation Number).run :=
    Quiet.atomic fun n => ⟨rfl, trivial⟩
  have hsteady : Steady ValidatorRely fun _ s => s.Healthy :=
    ⟨fun _ _ _ h hst => hst.1 h, fun _ _ _ h => h⟩
  apply Guarded.bind ValidatorRely.refl
    (Guarded.quiet hsteady Store.ValidationMove.idle hclock h)
  · intro seen current m hparts
    obtain ⟨hm, -⟩ := hparts
    have hread : (Operation.look fun n : Node => (n.store.findDue n.settings.validationMaxAttempts
        (limit.getD Validation.defaultLimit) (now.getD current)).mapError Fault.submission).Guarded
        ValidatorRely Store.ValidationMove
        (fun _ result s => ∀ due, result = .ok due → Due due s) seen m := by
      apply Guarded.atomic
      intro t ht
      refine ⟨.idle t.store, fun u hu due hdue => Due.rely ?_ hu⟩
      have hhealthy := ht.1 hm
      cases hfind : t.store.findDue t.settings.validationMaxAttempts
          (limit.getD Validation.defaultLimit) (now.getD current) with
      | error e => simp [hfind, Except.mapError] at hdue
      | ok found =>
        simp only [hfind, Except.mapError, Except.ok.injEq] at hdue
        subst hdue
        obtain ⟨hmem, hnodup⟩ := hhealthy.tidy.of_read hfind
        refine ⟨hhealthy, fun c hc => ⟨(hmem c hc).1, ?_⟩, hnodup⟩
        have hwanted := (hmem c hc).2
        simp only [Store.isDue, Bool.and_eq_true, decide_eq_true_eq] at hwanted
        exact hwanted.1.1
    apply Guarded.bind ValidatorRely.refl hread
    · exact fun seen due m hm => attemptAll_guarded (hm due rfl) _ replies _ _
    · exact fun _ _ _ _ _ _ => trivial
  · exact fun _ _ _ _ _ _ => trivial

end ImageLedger.Node
