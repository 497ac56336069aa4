import ImageLedger.Schedule.Periodic
import Mathlib.Data.List.Basic

namespace ImageLedger.Schedule

variable {α : Type}

/-- The number of the call that is answered. -/
def Settlement.call : Settlement α → Nat
  | demand call _ => call
  | stop call => call

@[simp] theorem Settlement.call_demand (call : Nat) (result : Option (Result α)) :
    (Settlement.demand call result).call = call := rfl

@[simp] theorem Settlement.call_stop (call : Nat) :
    (Settlement.stop call : Settlement α).call = call := rfl

namespace Periodic

/-- The result of the run that an event ends. -/
def Event.result : Event α → Option (Result α)
  | .finish result => some result
  | _ => none

/-- The first completion of a course of events. -/
def firstResult (es : List (Event α)) : Option (Result α) :=
  es.findSome? Event.result

/-- A task without its timers: its run, the stops that wait for it, and how many calls and runs
there were. -/
structure Conduct where
  running : Option Starter
  stopping : List Nat
  calls : Nat
  runs : Nat

/-- What the end of the run under way answers. -/
def Conduct.atEnd (c : Conduct) (result : Result α) : List (Settlement α) :=
  match c.running with
  | none => []
  | some .timer => c.stopping.map .stop
  | some (.demand call) => .demand call (some result) :: c.stopping.map .stop

/-- What an event does to the runs, with the answers that it brings. -/
inductive Conduct.Step (c : Conduct) : Event α → Conduct → List (Settlement α) → Prop
  | rest {e : Event α} : (e.result.isSome → c.running = none) → Step c e c []
  | fired : c.running = none →
      Step c .fire { c with running := some .timer, runs := c.runs + 1 } []
  | demanded : c.running = none → Step c .runOnce
      { c with running := some (.demand (c.calls + 1)), calls := c.calls + 1, runs := c.runs + 1 }
      []
  | refused {starter : Starter} : c.running = some starter →
      Step c .runOnce { c with calls := c.calls + 1 } [.demand (c.calls + 1) none]
  | stopsLater {starter : Starter} : c.running = some starter → Step c .stop
      { c with calls := c.calls + 1, stopping := c.stopping ++ [c.calls + 1] } []
  | stopsNow : c.running = none →
      Step c .stop { c with calls := c.calls + 1 } [.stop (c.calls + 1)]
  | finished {starter : Starter} {result : Result α} : c.running = some starter →
      Step c (.finish result) { c with running := none, stopping := [] } (c.atEnd result)

/-- How many runs an event ends. -/
def Conduct.ends (c : Conduct) : Event α → Nat
  | .finish _ => c.running.toList.length
  | _ => 0

/-- Stops wait for a run only, and what waits for an answer was asked. -/
structure Conduct.Numbered (c : Conduct) : Prop where
  idle : c.running = none → c.stopping = []
  stops : ∀ call ∈ c.stopping, call ≤ c.calls
  demand : ∀ call, c.running = some (.demand call) → call ≤ c.calls

namespace Conduct

variable {c d : Conduct} {e : Event α} {brought : List (Settlement α)} {call : Nat}

theorem Step.numbered (h : c.Step e d brought) (hc : c.Numbered) : d.Numbered := by
  have hstops : ∀ call ∈ c.stopping, call ≤ c.calls + 1 :=
    fun call hcall => Nat.le_succ_of_le (hc.stops call hcall)
  have hdemand : ∀ call, c.running = some (.demand call) → call ≤ c.calls + 1 :=
    fun call hcall => Nat.le_succ_of_le (hc.demand call hcall)
  cases h with
  | rest _ => exact hc
  | fired _ => exact ⟨nofun, hc.stops, nofun⟩
  | demanded _ =>
    refine ⟨nofun, hstops, fun call hcall => ?_⟩
    obtain rfl := Starter.demand.inj (Option.some.inj hcall)
    exact Nat.le_refl _
  | refused _ => exact ⟨hc.idle, hstops, hdemand⟩
  | stopsLater hrunning =>
    refine ⟨fun hidle => ?_, fun call hcall => ?_, hdemand⟩
    · rw [hrunning] at hidle
      cases hidle
    · rcases List.mem_append.mp hcall with hold | hnew
      · exact hstops call hold
      · exact Nat.le_of_eq (List.mem_singleton.mp hnew)
  | stopsNow _ => exact ⟨hc.idle, hstops, hdemand⟩
  | finished _ => exact ⟨fun _ => rfl, nofun, nofun⟩

/-- Runs that begin and runs that end make the difference of what is under way. -/
theorem Step.balance (h : c.Step e d brought) :
    d.runs + c.running.toList.length = c.runs + c.ends e + d.running.toList.length := by
  cases h with
  | rest hfinish =>
    cases e with
    | finish result => simp [ends, hfinish rfl]
    | _ => simp [ends]
  | fired hidle => simp [ends, hidle]
  | demanded hidle => simp [ends, hidle]
  | refused _ => simp [ends]
  | stopsLater _ => simp [ends]
  | stopsNow _ => simp [ends]
  | finished hrunning => simp [ends]

theorem atEnd_concat {starter : Starter} (h : c.running = some starter) (last : Nat)
    (result : Result α) :
    { c with calls := last, stopping := c.stopping ++ [last] }.atEnd result =
      c.atEnd result ++ [.stop last] := by
  cases starter <;> simp [atEnd, h]

theorem Numbered.call_le (hc : c.Numbered) (result : Result α) :
    ∀ answer ∈ c.atEnd result, answer.call ≤ c.calls := by
  have hwaiting : ∀ answer ∈ c.stopping.map (Settlement.stop (α := α)), answer.call ≤ c.calls := by
    intro answer hanswer
    obtain ⟨stop, hstop, rfl⟩ := List.mem_map.mp hanswer
    exact hc.stops stop hstop
  unfold atEnd
  cases hrunning : c.running with
  | none => exact nofun
  | some starter =>
    cases starter with
    | timer => exact hwaiting
    | demand number =>
      intro answer hanswer
      rcases List.mem_cons.mp hanswer with rfl | hanswer
      · exact hc.demand number hrunning
      · exact hwaiting answer hanswer

theorem Numbered.not_answered (hc : c.Numbered) (hcall : c.calls < call) (result : Result α) :
    (c.atEnd result).filter (·.call = call) = [] := by
  rw [List.filter_eq_nil_iff]
  intro answer hanswer heq
  have hle := hc.call_le result answer hanswer
  simp only [decide_eq_true_eq] at heq
  omega

/-- A call that was made waits on for the end of the run, and nothing else answers it. -/
theorem Step.waits (h : c.Step e d brought) (hc : c.Numbered) (hcall : call ≤ c.calls)
    (he : e.result = none) :
    call ≤ d.calls ∧ brought.filter (·.call = call) = [] ∧
      ∀ result : Result α,
        (d.atEnd result).filter (·.call = call) = (c.atEnd result).filter (·.call = call) := by
  have hnew : c.calls + 1 ≠ call := by omega
  cases h with
  | rest _ => exact ⟨hcall, rfl, fun _ => rfl⟩
  | fired hidle => exact ⟨hcall, rfl, fun _ => by simp [atEnd, hidle, hc.idle hidle]⟩
  | demanded hidle =>
    exact ⟨Nat.le_succ_of_le hcall, rfl, fun _ => by
      simp [atEnd, hidle, hc.idle hidle, hnew]⟩
  | refused _ => exact ⟨Nat.le_succ_of_le hcall, by simp [hnew], fun _ => rfl⟩
  | @stopsLater starter hrunning =>
    refine ⟨Nat.le_succ_of_le hcall, rfl, fun result => ?_⟩
    simp [atEnd_concat hrunning, hnew]
  | stopsNow _ => exact ⟨Nat.le_succ_of_le hcall, by simp [hnew], fun _ => rfl⟩
  | finished _ => cases he

/-- The end of the run answers what waits for it, and leaves nothing waiting. -/
theorem Step.settles {result : Result α} (h : c.Step e d brought) (he : e.result = some result) :
    d.running = none ∧ d.calls = c.calls ∧ brought = c.atEnd result := by
  cases h with
  | rest hidle =>
    have hnone : c.running = none := hidle (by simp [he])
    exact ⟨hnone, rfl, by simp [atEnd, hnone]⟩
  | finished _ =>
    obtain rfl := Option.some.inj he
    exact ⟨rfl, rfl, rfl⟩
  | _ => cases he

end Conduct

def conduct (t : Periodic) : Conduct := ⟨t.running, t.stopping, t.calls, t.runs⟩

@[simp] theorem conduct_schedule (t : Periodic) : t.schedule.conduct = t.conduct := rfl

theorem conduct_start (t : Periodic) : t.start.conduct = t.conduct := by
  unfold start
  split_ifs <;> rfl

theorem conduct_fire (t : Periodic) :
    t.fire.conduct = t.conduct ∨ t.running = none ∧
      t.fire.conduct = ⟨some .timer, t.stopping, t.calls, t.runs + 1⟩ := by
  unfold fire
  cases t.waiting with
  | nil => exact Or.inl rfl
  | cons timer rest =>
    cases hrunning : t.running with
    | none => exact Or.inr ⟨rfl, rfl⟩
    | some starter =>
      left
      simp only [Option.isSome_some, if_true]
      split_ifs <;> simp [conduct, hrunning, schedule]

section Cases

variable {t : Periodic} {starter : Starter}

theorem runOnce_of_running (h : t.running = some starter) : t.runOnce =
    ({ t with calls := t.calls + 1 }, [(.demand (t.calls + 1) none : Settlement α)]) := by
  simp [runOnce, h]

theorem runOnce_of_idle (h : t.running = none) : t.runOnce (α := α) =
    ({ t with calls := t.calls + 1 }.begin (.demand (t.calls + 1)), []) := by
  simp [runOnce, h]

theorem conduct_stop_of_running (h : t.running = some starter) :
    (t.stop (α := α)).1.conduct =
        ⟨t.running, t.stopping ++ [t.calls + 1], t.calls + 1, t.runs⟩ ∧
      (t.stop (α := α)).2 = [] := by
  simp [stop, conduct, h]

theorem conduct_stop_of_idle (h : t.running = none) :
    (t.stop (α := α)).1.conduct = ⟨t.running, t.stopping, t.calls + 1, t.runs⟩ ∧
      t.stop.2 = [(.stop (t.calls + 1) : Settlement α)] := by
  simp [stop, conduct, h]

theorem finish_of_idle (h : t.running = none) (result : Result α) :
    t.finish result = (t, []) := by
  simp [finish, h]

theorem conduct_finish (h : t.running = some starter) (result : Result α) :
    (t.finish result).1.conduct = ⟨none, [], t.calls, t.runs⟩ ∧
      (t.finish result).2 = t.conduct.atEnd result := by
  unfold finish conduct Conduct.atEnd
  rw [h]
  cases starter with
  | timer =>
    dsimp only
    split_ifs <;> exact ⟨rfl, rfl⟩
  | demand call => exact ⟨rfl, rfl⟩

end Cases

/-- Every event is a step of the runs. -/
theorem conduct_step (t : Periodic) (e : Event α) :
    t.conduct.Step e (t.step e).1.conduct (t.step e).2 := by
  cases e with
  | start =>
    change t.conduct.Step .start t.start.conduct []
    rw [conduct_start]
    exact .rest nofun
  | fire =>
    change t.conduct.Step .fire t.fire.conduct []
    rcases conduct_fire t with hsame | ⟨hidle, hfired⟩
    · rw [hsame]
      exact .rest nofun
    · rw [hfired]
      exact .fired hidle
  | runOnce =>
    change t.conduct.Step .runOnce t.runOnce.1.conduct t.runOnce.2
    cases hrunning : t.running with
    | none =>
      rw [runOnce_of_idle hrunning]
      exact .demanded hrunning
    | some starter =>
      rw [runOnce_of_running hrunning]
      exact .refused hrunning
  | stop =>
    change t.conduct.Step .stop t.stop.1.conduct t.stop.2
    cases hrunning : t.running with
    | none =>
      obtain ⟨hconduct, hanswers⟩ := conduct_stop_of_idle (α := α) hrunning
      rw [hconduct, hanswers]
      exact .stopsNow hrunning
    | some starter =>
      obtain ⟨hconduct, hanswers⟩ := conduct_stop_of_running (α := α) hrunning
      rw [hconduct, hanswers]
      exact .stopsLater hrunning
  | finish result =>
    change t.conduct.Step (.finish result) (t.finish result).1.conduct (t.finish result).2
    cases hrunning : t.running with
    | none =>
      rw [finish_of_idle hrunning]
      exact .rest fun _ => hrunning
    | some starter =>
      obtain ⟨hconduct, hanswers⟩ := conduct_finish hrunning result
      rw [hconduct, hanswers]
      exact .finished hrunning

/-- The task after a course of events. -/
def after (t : Periodic) (es : List (Event α)) : Periodic :=
  es.foldl (fun t e => (t.step e).1) t

/-- All that a course of events answers. -/
def answers (t : Periodic) : List (Event α) → List (Settlement α)
  | [] => []
  | e :: es => (t.step e).2 ++ (t.step e).1.answers es

def answersTo (t : Periodic) (call : Nat) (es : List (Event α)) : List (Settlement α) :=
  (t.answers es).filter (·.call = call)

/-- How many runs a course of events ends. -/
def ended (t : Periodic) : List (Event α) → Nat
  | [] => 0
  | e :: es => t.conduct.ends e + (t.step e).1.ended es

@[simp] theorem after_nil (t : Periodic) : t.after ([] : List (Event α)) = t := rfl

@[simp] theorem after_cons (t : Periodic) (e : Event α) (es : List (Event α)) :
    t.after (e :: es) = (t.step e).1.after es := rfl

theorem after_append (t : Periodic) (es fs : List (Event α)) :
    t.after (es ++ fs) = (t.after es).after fs := List.foldl_append

@[simp] theorem answersTo_nil (t : Periodic) (call : Nat) :
    t.answersTo call ([] : List (Event α)) = [] := rfl

@[simp] theorem answersTo_cons (t : Periodic) (call : Nat) (e : Event α) (es : List (Event α)) :
    t.answersTo call (e :: es) =
      (t.step e).2.filter (·.call = call) ++ (t.step e).1.answersTo call es := by
  simp [answersTo, answers]

/-- What every event preserves holds after a course of events. -/
theorem after_invariant {P : Periodic → Prop}
    (hstep : ∀ (t : Periodic) (e : Event α), P t → P (t.step e).1)
    (es : List (Event α)) {t : Periodic} (ht : P t) : P (t.after es) := by
  induction es generalizing t with
  | nil => exact ht
  | cons e es ih => exact ih (hstep t e ht)

theorem numbered_after_idle (es : List (Event α)) : (idle.after es).conduct.Numbered :=
  after_invariant (P := fun t => t.conduct.Numbered)
    (fun t e ht => (conduct_step t e).numbered ht) es ⟨fun _ => rfl, nofun, nofun⟩

theorem runs_after (t : Periodic) (es : List (Event α)) :
    (t.after es).runs + t.running.toList.length =
      t.runs + t.ended es + (t.after es).running.toList.length := by
  induction es generalizing t with
  | nil => rfl
  | cons e es ih =>
    have hstep : (t.step e).1.runs + t.running.toList.length =
        t.runs + t.conduct.ends e + (t.step e).1.running.toList.length :=
      (conduct_step t e).balance
    have hrest := ih (t.step e).1
    simp only [after_cons, ended]
    omega

/-- A call that waits is answered by the first completion, as the run under way has it. -/
theorem answersTo_eq {t : Periodic} {call : Nat} (ht : t.conduct.Numbered)
    (hcall : call ≤ t.calls) (es : List (Event α)) :
    t.answersTo call es = (firstResult es).toList.flatMap fun result =>
      (t.conduct.atEnd result).filter (·.call = call) := by
  induction es generalizing t with
  | nil => rfl
  | cons e es ih =>
    have hstep := conduct_step t e
    have hnumbered := hstep.numbered ht
    cases he : e.result with
    | none =>
      obtain ⟨hlater, hbrought, hend⟩ := hstep.waits ht hcall he
      rw [answersTo_cons, hbrought, ih hnumbered hlater]
      simp [firstResult, he, hend]
    | some result =>
      obtain ⟨hidle, hcalls, hbrought⟩ := hstep.settles he
      have hlater : call ≤ (t.step e).1.calls := Nat.le_trans hcall (Nat.le_of_eq hcalls.symm)
      rw [answersTo_cons, hbrought, ih hnumbered hlater]
      simp [firstResult, he, Conduct.atEnd, hidle]

section Answers

variable {t : Periodic} {starter : Starter}

/-- A call is answered by the event that makes it, or else by the first completion after it. -/
theorem answersTo_made {e : Event α} {call : Nat} (ht : t.conduct.Numbered)
    (hcall : (t.step e).1.calls = call) (later : List (Event α)) :
    t.answersTo call (e :: later) =
      (t.step e).2.filter (·.call = call) ++
        (firstResult later).toList.flatMap fun result =>
          ((t.step e).1.conduct.atEnd result).filter (·.call = call) := by
  rw [answersTo_cons, answersTo_eq ((conduct_step t e).numbered ht) (Nat.le_of_eq hcall.symm)]

theorem answersTo_refused (ht : t.conduct.Numbered) (h : t.running = some starter)
    (later : List (Event α)) :
    t.answersTo (t.calls + 1) (.runOnce :: later) = [.demand (t.calls + 1) none] := by
  have hstep : t.step (.runOnce : Event α) = _ := runOnce_of_running h
  have hatEnd : ∀ result : Result α,
      (({ t with calls := t.calls + 1 } : Periodic).conduct.atEnd result).filter
        (·.call = t.calls + 1) = [] := ht.not_answered (Nat.lt_succ_self _)
  rw [answersTo_made ht (by rw [hstep]), hstep]
  simp only [hatEnd]
  simp

theorem answersTo_served (ht : t.conduct.Numbered) (h : t.running = none)
    (later : List (Event α)) :
    t.answersTo (t.calls + 1) (.runOnce :: later) =
      (firstResult later).toList.map fun result => .demand (t.calls + 1) (some result) := by
  have hstep : t.step (.runOnce : Event α) = _ := runOnce_of_idle h
  have hatEnd : ∀ result : Result α,
      ({ t with calls := t.calls + 1 }.begin (.demand (t.calls + 1))).conduct.atEnd result =
        [.demand (t.calls + 1) (some result)] := by
    intro result
    simp [Conduct.atEnd, conduct, begin, show t.stopping = [] from ht.idle h]
  rw [answersTo_made ht (by rw [hstep]; rfl), hstep]
  simp only [hatEnd]
  cases firstResult later <;> simp

theorem answersTo_awaited (ht : t.conduct.Numbered) (h : t.running = some starter)
    (later : List (Event α)) :
    t.answersTo (t.calls + 1) (.stop :: later) =
      (firstResult later).toList.map fun _ => .stop (t.calls + 1) := by
  obtain ⟨hconduct, hanswers⟩ := conduct_stop_of_running (α := α) h
  have hcalls : (t.step (.stop : Event α)).1.calls = t.calls + 1 := congrArg Conduct.calls hconduct
  have hatEnd : ∀ result : Result α,
      ((t.stop (α := α)).1.conduct.atEnd result).filter (·.call = t.calls + 1) =
        [.stop (t.calls + 1)] := by
    intro result
    have hbefore : (t.conduct.atEnd result).filter (·.call = t.calls + 1) = [] :=
      ht.not_answered (Nat.lt_succ_self _) result
    have hend := Conduct.atEnd_concat (c := t.conduct) h (t.calls + 1) result
    rw [hconduct]
    exact (congrArg _ hend).trans (by simp [hbefore])
  rw [answersTo_made ht hcalls]
  simp only [step, hanswers, hatEnd]
  cases firstResult later <;> simp

theorem answersTo_immediate (ht : t.conduct.Numbered) (h : t.running = none)
    (later : List (Event α)) :
    t.answersTo (t.calls + 1) (.stop :: later) = [.stop (t.calls + 1)] := by
  obtain ⟨hconduct, hanswers⟩ := conduct_stop_of_idle (α := α) h
  have hcalls : (t.step (.stop : Event α)).1.calls = t.calls + 1 := congrArg Conduct.calls hconduct
  have hatEnd : ∀ result : Result α,
      (t.stop (α := α)).1.conduct.atEnd result = [] := by
    intro result
    rw [hconduct]
    simp [Conduct.atEnd, h]
  rw [answersTo_made ht hcalls]
  simp only [step, hanswers, hatEnd]
  simp

end Answers

/-- While a task is active, a timer waits or a timer's run is under way. -/
def Armed (t : Periodic) : Prop :=
  t.active → t.waiting ≠ [] ∨ t.running = some .timer

theorem Armed.step {t : Periodic} (ht : t.Armed) (e : Event α) : (t.step e).1.Armed := by
  cases e with
  | start =>
    change t.start.Armed
    unfold start
    split_ifs
    · exact ht
    · exact fun _ => Or.inl (by simp [schedule])
  | fire =>
    change t.fire.Armed
    unfold fire
    cases t.waiting with
    | nil => exact ht
    | cons timer rest =>
      dsimp only
      split_ifs with hrunning hactive
      · exact fun _ => Or.inl (by simp [schedule])
      · exact fun h => absurd h hactive
      · exact fun _ => Or.inr rfl
  | runOnce =>
    change t.runOnce.1.Armed
    cases hrunning : t.running with
    | none =>
      rw [runOnce_of_idle hrunning]
      refine fun hactive => Or.inl ((ht hactive).resolve_right ?_)
      simp [hrunning]
    | some starter =>
      rw [runOnce_of_running hrunning]
      exact ht
  | stop =>
    change t.stop.1.Armed
    unfold stop
    dsimp only
    split_ifs <;> exact nofun
  | finish result =>
    change (t.finish result).1.Armed
    unfold finish
    cases hrunning : t.running with
    | none => exact ht
    | some starter =>
      cases starter with
      | timer =>
        dsimp only
        split_ifs with hactive
        · exact fun _ => Or.inl (by simp [schedule])
        · exact fun h => absurd h hactive
      | demand call =>
        refine fun hactive => Or.inl ((ht hactive).resolve_right ?_)
        simp [hrunning]

theorem runs_fire_of_idle {t : Periodic} (hidle : t.running = none) (hwaiting : t.waiting ≠ []) :
    t.fire.runs = t.runs + 1 := by
  unfold fire
  cases h : t.waiting with
  | nil => exact absurd h hwaiting
  | cons timer rest => simp [hidle, begin]

/-- Whatever a run ends with, the next one can begin. -/
theorem Armed.recovers {t : Periodic} (ht : t.Armed) (result : Result α) :
    let done := (t.step (.finish result)).1
    done.running = none ∧
      (done.step (.runOnce : Event α)).1.runs = done.runs + 1 ∧
      (done.active → (done.step (.fire : Event α)).1.runs = done.runs + 1) := by
  intro done
  have hidle : done.running = none :=
    ((conduct_step t (.finish result)).settles rfl).1
  refine ⟨hidle, congrArg (·.1.runs) (runOnce_of_idle (α := α) hidle), fun hactive => ?_⟩
  have hwaiting : done.waiting ≠ [] :=
    (ht.step (.finish result) hactive).resolve_right fun htimer => nomatch hidle.symm.trans htimer
  exact runs_fire_of_idle hidle hwaiting

theorem armed_after_idle (es : List (Event α)) : (idle.after es).Armed :=
  after_invariant (P := Armed) (fun _ e ht => ht.step e) es nofun

/-- The laws of the runs of a task after a course of events. -/
structure InTurn (t : Periodic) (es : List (Event α)) : Prop where
  /-- Of the runs that began, all but the one under way are over. -/
  single : t.runs = idle.ended es + t.running.toList.length
  /-- A demand that meets a run starts none, and nothing is all that it is ever answered. -/
  refused : ∀ starter, t.running = some starter →
    (t.step (.runOnce : Event α)).1 = { t with calls := t.calls + 1 } ∧
      ∀ later, t.answersTo (t.calls + 1) (.runOnce :: later) =
        [(.demand (t.calls + 1) none : Settlement α)]
  /-- Any other demand starts a run, and the first completion that follows answers it. -/
  served : t.running = none →
    (t.step (.runOnce : Event α)).1 =
        { t with
          calls := t.calls + 1
          running := some (.demand (t.calls + 1))
          runs := t.runs + 1 } ∧
      ∀ later, t.answersTo (t.calls + 1) (.runOnce :: later) =
        (firstResult later).toList.map fun result : Result α =>
          .demand (t.calls + 1) (some result)
  /-- After a run that ends, whatever its result, a demand starts a run, and while the task is
  active so does a timer. -/
  recovers : ∀ result : Result α, let done := (t.step (.finish result)).1
    done.running = none ∧
      (done.step (.runOnce : Event α)).1.runs = done.runs + 1 ∧
      (done.active → (done.step (.fire : Event α)).1.runs = done.runs + 1)
  /-- A stop that meets a run is answered by its end. -/
  awaited : ∀ starter, t.running = some starter → ∀ later,
    t.answersTo (t.calls + 1) (.stop :: later) =
      (firstResult later).toList.map fun _ : Result α => .stop (t.calls + 1)
  /-- Any other stop is answered at once. -/
  immediate : t.running = none → ∀ later,
    t.answersTo (t.calls + 1) (.stop :: later) = [(.stop (t.calls + 1) : Settlement α)]

/-- Runs never overlap, and each call is answered once: a demand that meets a run with nothing,
every other demand with the result of its own run, and a stop when the run it met is over. -/
theorem runs_in_turn (es : List (Event α)) : InTurn (idle.after es) es := by
  have hnumbered := numbered_after_idle es
  have harmed := armed_after_idle es
  have hruns := runs_after idle es
  generalize idle.after es = t at hnumbered harmed hruns
  exact {
    single := by simpa [idle] using hruns
    refused := fun starter hrunning => ⟨congrArg Prod.fst (runOnce_of_running hrunning),
      answersTo_refused hnumbered hrunning⟩
    served := fun hidle => ⟨congrArg Prod.fst (runOnce_of_idle hidle),
      answersTo_served hnumbered hidle⟩
    recovers := harmed.recovers
    awaited := fun starter hrunning => answersTo_awaited hnumbered hrunning
    immediate := fun hidle => answersTo_immediate hnumbered hidle }

example : idle.answers [.start, .fire, .runOnce, .stop, .finish (.error "down"), .runOnce,
    .finish (.ok 7)] = [.demand 1 none, .stop 2, .demand 3 (some (.ok 7))] := rfl

end Periodic

end ImageLedger.Schedule
