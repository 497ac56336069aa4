import ImageLedger.Proofs.Schedule.Runs
import Mathlib.Data.List.Induction

namespace ImageLedger.Schedule.Periodic

variable {α : Type}

/-- Whether an event starts a stopped task under the run of an earlier timer. -/
def restarts (t : Periodic) : Event α → Bool
  | .start => !t.active && decide (t.running = some .timer)
  | _ => false

/-- A course of events without such a start. -/
def Patient (t : Periodic) : List (Event α) → Prop
  | [] => True
  | e :: es => t.restarts e = false ∧ (t.step e).1.Patient es

instance decidablePatient : (t : Periodic) → (es : List (Event α)) → Decidable (t.Patient es)
  | _, [] => inferInstanceAs (Decidable True)
  | t, e :: es =>
    have := decidablePatient (t.step e).1 es
    inferInstanceAs (Decidable (t.restarts e = false ∧ (t.step e).1.Patient es))

theorem patient_append (t : Periodic) (es fs : List (Event α)) :
    t.Patient (es ++ fs) ↔ t.Patient es ∧ (t.after es).Patient fs := by
  induction es generalizing t with
  | nil => simp [Patient]
  | cons e es ih => simp [Patient, ih, and_assoc]

theorem patient_of_not_mem_start {fs : List (Event α)} (hfs : .start ∉ fs) (t : Periodic) :
    t.Patient fs := by
  induction fs generalizing t with
  | nil => exact trivial
  | cons e fs ih =>
    rw [List.mem_cons, not_or] at hfs
    refine ⟨?_, ih hfs.2 _⟩
    cases e with
    | start => exact absurd rfl hfs.1
    | _ => rfl

/-- One timer at most waits: the current one, and none under a timer's run or when the task is
stopped. -/
structure Orderly (t : Periodic) : Prop where
  current : t.waiting = t.current.toList
  running : t.running = some .timer → t.waiting = []
  stopped : t.active = false → t.waiting = []

/-- A stopped task without a timer. -/
structure Dormant (t : Periodic) : Prop where
  stopped : t.active = false
  quiet : t.waiting = []

/-- A stop that finds no timer but the current one leaves none. -/
theorem stop_of_cancels {t : Periodic} (h : ∀ timer ∈ t.waiting, t.current = some timer) :
    (t.stop (α := α)).1.active = false ∧ (t.stop (α := α)).1.waiting = [] ∧
      (t.stop (α := α)).1.current = none ∧ (t.stop (α := α)).1.runs = t.runs := by
  cases hcurrent : t.current with
  | none =>
    have hwaiting : t.waiting = [] := by
      refine List.eq_nil_iff_forall_not_mem.mpr fun timer htimer => ?_
      cases hcurrent.symm.trans (h timer htimer)
    simp only [stop, hcurrent]
    split_ifs <;> exact ⟨rfl, hwaiting, rfl, rfl⟩
  | some current =>
    have hcancelled : t.waiting.filter (· ≠ current) = [] := by
      refine List.filter_eq_nil_iff.mpr fun timer htimer => ?_
      obtain rfl := Option.some.inj (hcurrent.symm.trans (h timer htimer))
      simp
    simp only [stop, hcurrent]
    split_ifs <;> exact ⟨rfl, hcancelled, rfl, rfl⟩

theorem Dormant.stop {t : Periodic} (ht : t.Dormant) :
    (t.stop (α := α)).1.Dormant ∧ (t.stop (α := α)).1.runs = t.runs := by
  obtain ⟨hactive, hwaiting, -, hruns⟩ := stop_of_cancels (t := t) (α := α) (by simp [ht.quiet])
  exact ⟨⟨hactive, hwaiting⟩, hruns⟩

namespace Orderly

variable {t : Periodic}

theorem cancels (ht : t.Orderly) : ∀ timer ∈ t.waiting, t.current = some timer := by
  intro timer htimer
  rw [ht.current] at htimer
  exact Option.mem_toList.mp htimer

theorem start (ht : t.Orderly) (he : t.restarts (.start : Event α) = false) : t.start.Orderly := by
  unfold Periodic.start
  split_ifs with hactive
  · exact ht
  · have hwaiting : t.waiting = [] := ht.stopped (by simpa using hactive)
    have hrunning : t.running ≠ some .timer := by simpa [restarts, hactive] using he
    exact ⟨by simp [schedule, hwaiting], fun h => absurd h hrunning, nofun⟩

theorem fire (ht : t.Orderly) : t.fire.Orderly := by
  unfold Periodic.fire
  cases hwaiting : t.waiting with
  | nil => exact ht
  | cons timer rest =>
    have hcurrent : timer :: rest = t.current.toList := hwaiting.symm.trans ht.current
    obtain rfl : rest = [] := by cases h : t.current <;> simp_all
    dsimp only
    split_ifs with hrunning hactive
    · -- a timer waits, so the run that it meets is not a timer's
      have hdemand : t.running ≠ some .timer := fun h => by simp [ht.running h] at hwaiting
      exact ⟨rfl, fun h => absurd h hdemand, fun h => by simp [schedule, hactive] at h⟩
    · exact ⟨rfl, fun _ => rfl, fun _ => rfl⟩
    · exact ⟨rfl, fun _ => rfl, fun _ => rfl⟩

theorem runOnce (ht : t.Orderly) : (t.runOnce (α := α)).1.Orderly := by
  cases hrunning : t.running with
  | none =>
    rw [runOnce_of_idle hrunning]
    exact ⟨ht.current, nofun, ht.stopped⟩
  | some starter =>
    rw [runOnce_of_running hrunning]
    exact ⟨ht.current, ht.running, ht.stopped⟩

theorem stop (ht : t.Orderly) : (t.stop (α := α)).1.Orderly := by
  obtain ⟨hactive, hwaiting, hcurrent, -⟩ := stop_of_cancels (α := α) ht.cancels
  exact ⟨by rw [hwaiting, hcurrent]; rfl, fun _ => hwaiting, fun _ => hwaiting⟩

theorem finish (ht : t.Orderly) (result : Result α) : (t.finish result).1.Orderly := by
  unfold Periodic.finish
  cases hrunning : t.running with
  | none => exact ht
  | some starter =>
    have hidle : (none : Option Starter) ≠ some .timer := by simp
    cases starter with
    | timer =>
      have hwaiting := ht.running hrunning
      dsimp only
      split_ifs with hactive
      · exact ⟨by simp [schedule, hwaiting], fun h => absurd h hidle,
          fun h => by simp [schedule, hactive] at h⟩
      · exact ⟨ht.current, fun h => absurd h hidle, ht.stopped⟩
    | demand call => exact ⟨ht.current, fun h => absurd h hidle, ht.stopped⟩

theorem step (ht : t.Orderly) {e : Event α} (he : t.restarts e = false) :
    (t.step e).1.Orderly := by
  cases e with
  | start => exact ht.start he
  | fire => exact ht.fire
  | runOnce => exact ht.runOnce
  | stop => exact ht.stop
  | finish result => exact ht.finish result

theorem after {es : List (Event α)} (ht : t.Orderly) (hes : t.Patient es) :
    (t.after es).Orderly := by
  induction es generalizing t with
  | nil => exact ht
  | cons e es ih => exact ih (ht.step hes.1) hes.2

end Orderly

theorem orderly_idle : idle.Orderly := ⟨rfl, nofun, fun _ => rfl⟩

/-- Nothing but a start or a demand wakes a dormant task. -/
theorem Dormant.step {t : Periodic} (ht : t.Dormant) {e : Event α} (hstart : e ≠ .start)
    (hdemand : e ≠ .runOnce) : (t.step e).1.Dormant ∧ (t.step e).1.runs = t.runs := by
  have hactive := ht.stopped
  have hwaiting := ht.quiet
  cases e with
  | start => exact absurd rfl hstart
  | runOnce => exact absurd rfl hdemand
  | fire =>
    change t.fire.Dormant ∧ t.fire.runs = t.runs
    simp [fire, hwaiting, ht]
  | stop => exact ht.stop
  | finish result =>
    change (t.finish result).1.Dormant ∧ (t.finish result).1.runs = t.runs
    unfold finish
    cases t.running with
    | none => exact ⟨ht, rfl⟩
    | some starter =>
      cases starter with
      | timer =>
        simp only [hactive, Bool.false_eq_true, if_false]
        exact ⟨⟨rfl, hwaiting⟩, trivial⟩
      | demand call => exact ⟨⟨hactive, hwaiting⟩, rfl⟩

theorem Dormant.runs_after {t : Periodic} (ht : t.Dormant) {es : List (Event α)}
    (hstart : .start ∉ es) (hdemand : .runOnce ∉ es) : (t.after es).runs = t.runs := by
  induction es generalizing t with
  | nil => rfl
  | cons e es ih =>
    rw [List.mem_cons, not_or] at hstart hdemand
    obtain ⟨hnext, hruns⟩ := ht.step (Ne.symm hstart.1) (Ne.symm hdemand.1)
    exact (ih hnext hstart.2 hdemand.2).trans hruns

/-- The end of the run that a restart has met sets a second timer. -/
theorem waiting_of_restarts {t : Periodic} {e : Event α} (he : t.restarts e = true)
    (result : Result α) :
    ((t.step e).1.step (.finish result)).1.waiting.length = t.waiting.length + 2 := by
  cases e with
  | start =>
    obtain ⟨hactive, hrunning⟩ : t.active = false ∧ t.running = some .timer := by
      simpa [restarts] using he
    simp [step, start, finish, schedule, hactive, hrunning]
  | _ => cases he

/-- The law of a task's timers for a course of events from the beginning: one at most waits, and
from a stop until the next start or demand no run begins. -/
structure Obeys (es : List (Event α)) : Prop where
  oneTimer : (idle.after es).waiting.length ≤ 1
  stopped : ∀ before later, es = before ++ .stop :: later → .start ∉ later → .runOnce ∉ later →
    (idle.after es).runs = (idle.after before).runs

theorem Patient.obeys {es : List (Event α)} (hes : idle.Patient es) : Obeys es where
  oneTimer := by
    rw [(orderly_idle.after hes).current]
    cases (idle.after es).current <;> simp
  stopped := by
    rintro before later rfl hstart hdemand
    have horderly := orderly_idle.after ((patient_append _ _ _).mp hes).1
    obtain ⟨hactive, hwaiting, -, hruns⟩ := stop_of_cancels (α := α) horderly.cancels
    rw [after_append, after_cons]
    exact (Dormant.runs_after ⟨hactive, hwaiting⟩ hstart hdemand).trans hruns

/-- While a task is active a timer waits or a timer's run is under way. The law of the timers holds,
and goes on to hold until the next start, in exactly the courses of events where no start meets a
run that outlives a stop. -/
theorem obeys_iff_patient (es : List (Event α)) :
    ((idle.after es).active →
        (idle.after es).waiting ≠ [] ∨ (idle.after es).running = some .timer) ∧
      ((∀ before later, before <+: es → .start ∉ later → Obeys (before ++ later)) ↔
        idle.Patient es) := by
  refine ⟨armed_after_idle es, fun hobeys => ?_, fun hes before later hbefore hlater => ?_⟩
  · induction es using List.reverseRecOn with
    | nil => exact trivial
    | append_singleton es e ih =>
      have hes : idle.Patient es :=
        ih fun before later hbefore => hobeys before later (hbefore.trans (List.prefix_append _ _))
      refine (patient_append _ _ _).mpr ⟨hes, ?_, trivial⟩
      by_contra he
      rw [Bool.not_eq_false] at he
      -- the run that outlives the stop ends now
      have htwo :=
        (hobeys (es ++ [e]) [.finish (.error "")] (List.prefix_refl _) (by simp)).oneTimer
      rw [after_append, after_append] at htwo
      have hlength := waiting_of_restarts he (.error "")
      simp only [after_cons, after_nil] at htwo
      omega
  · obtain ⟨rest, rfl⟩ := hbefore
    have hpatient := ((patient_append _ _ _).mp hes).1
    exact ((patient_append _ _ _).mpr ⟨hpatient, patient_of_not_mem_start hlater _⟩).obeys

theorem obeys_after_patient_restart :
    Obeys ([.start, .fire, .stop, .finish (.ok 1), .start, .runOnce, .fire, .stop, .fire] :
      List (Event Nat)) :=
  (obeys_iff_patient [.start, .fire, .stop, .finish (.ok 1), .start, .runOnce, .fire]).2.mpr
    (by decide) _ [.stop, .fire] (List.prefix_refl _) (by simp)

/-- A start under the run that outlives a stop: two timers wait after that run, and the next stop
leaves one of them, which begins a run. -/
theorem restarted_under_run :
    let finished : List (Event Nat) := [.start, .fire, .stop, .start, .finish (.ok 1)]
    let stopped := finished ++ [.stop]
    (idle.after finished).waiting.length = 2 ∧
      (idle.after stopped).active = false ∧ (idle.after stopped).waiting.length = 1 ∧
      (idle.after stopped).runs = 1 ∧ (idle.after (stopped ++ [.fire])).runs = 2 ∧
      ¬ Obeys finished ∧ ¬ Obeys (stopped ++ [.fire]) := by
  intro finished stopped
  refine ⟨rfl, rfl, rfl, rfl, rfl, fun h => ?_, fun h => ?_⟩
  · exact absurd h.oneTimer (by decide)
  · exact absurd (h.stopped finished [.fire] rfl (by simp) (by simp)) (by decide)

end ImageLedger.Schedule.Periodic
