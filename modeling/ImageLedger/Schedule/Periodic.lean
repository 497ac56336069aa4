namespace ImageLedger.Schedule

inductive Starter where
  | timer
  | demand (call : Nat)
deriving DecidableEq

abbrev Result (α : Type) := Except String α

/-- A call that is answered. A demand that met a run has no result. -/
inductive Settlement (α : Type) where
  | demand (call : Nat) (result : Option (Result α))
  | stop (call : Nat)

/-- The state of a task. Timers are numbered in the order they are set; demands and stops share
one numbering. -/
structure Periodic where
  active : Bool
  /-- The timer that a stop would cancel. -/
  current : Option Nat
  /-- The timers that have not fired yet, the oldest first. -/
  waiting : List Nat
  /-- How many timers were set so far. -/
  timersSet : Nat
  running : Option Starter
  /-- The stops that wait for the run to end. -/
  stopping : List Nat
  /-- How many demands and stops were made so far. -/
  calls : Nat
  /-- How many runs were started so far. -/
  runs : Nat
deriving DecidableEq

namespace Periodic

def idle : Periodic := ⟨false, none, [], 0, none, [], 0, 0⟩

def schedule (t : Periodic) : Periodic :=
  { t with
    current := some (t.timersSet + 1)
    waiting := t.waiting ++ [t.timersSet + 1]
    timersSet := t.timersSet + 1 }

/-- Sets the first timer unless the task is active already. -/
def start (t : Periodic) : Periodic :=
  if t.active then t else schedule { t with active := true }

/-- Starts a run unless one is under way. -/
def begin (t : Periodic) (starter : Starter) : Periodic :=
  { t with running := some starter, runs := t.runs + 1 }

/-- The oldest timer fires. When it meets a run it is only set again. -/
def fire (t : Periodic) : Periodic :=
  match t.waiting with
  | [] => t
  | _ :: rest =>
    let t := { t with waiting := rest, current := none }
    if t.running.isSome then (if t.active then t.schedule else t) else t.begin .timer

/-- A demand for a run. One that meets a run is answered with nothing. -/
def runOnce (t : Periodic) : Periodic × List (Settlement α) :=
  let t := { t with calls := t.calls + 1 }
  if t.running.isSome then (t, [.demand t.calls none]) else (t.begin (.demand t.calls), [])

/-- Cancels the current timer; answered once no run is under way. -/
def stop (t : Periodic) : Periodic × List (Settlement α) :=
  let t := { t with
    calls := t.calls + 1
    active := false
    waiting := match t.current with
      | some timer => t.waiting.filter (· ≠ timer)
      | none => t.waiting
    current := none }
  if t.running.isSome then ({ t with stopping := t.stopping ++ [t.calls] }, [])
  else (t, [.stop t.calls])

/-- The run under way ends. Its demand is answered first and then the waiting stops. -/
def finish (t : Periodic) (result : Result α) : Periodic × List (Settlement α) :=
  match t.running with
  | none => (t, [])
  | some starter =>
    let stops := t.stopping.map Settlement.stop
    let t := { t with running := none, stopping := [] }
    match starter with
    | .timer => (if t.active then t.schedule else t, stops)
    | .demand call => (t, .demand call (some result) :: stops)

inductive Event (α : Type) where
  | start
  | fire
  | runOnce
  | stop
  | finish (result : Result α)

/-- The state after an event, with the calls that are answered. -/
def step (t : Periodic) : Event α → Periodic × List (Settlement α)
  | .start => (t.start, [])
  | .fire => (t.fire, [])
  | .runOnce => t.runOnce
  | .stop => t.stop
  | .finish result => t.finish result

end Periodic

end ImageLedger.Schedule
