namespace ImageLedger

/-- What is left of an activity that works on `σ` and ends with an `α`. It goes on in atomic steps,
between which other activities may take theirs. -/
inductive Activity (σ : Type) (α : Type) : Type 1 where
  | done (result : α)
  /-- A step that goes on once the state is ready. -/
  | step {β : Type} (ready : σ → Bool) (act : σ → β × σ) (next : β → Activity σ α)

namespace Activity

def andThen : Activity σ α → (α → Activity σ β) → Activity σ β
  | done a, f => f a
  | step ready act next, f => step ready act fun b => (next b).andThen f

instance : Monad (Activity σ) where
  pure := done
  bind := andThen

/-- A single step that never waits. -/
def atomic (act : σ → β × σ) : Activity σ β := step (fun _ => true) act done

/-- A step that only looks. -/
def look (f : σ → β) : Activity σ β := atomic fun s => (f s, s)

/-- A step that only changes the state. -/
def change (f : σ → σ) : Activity σ Unit := atomic fun s => ((), f s)

def await (ready : σ → Bool) : Activity σ Unit := step ready (fun s => ((), s)) done

/-- All steps of an activity one after another; `none` if one of them would wait. -/
def run : Activity σ α → σ → Option (α × σ)
  | done a, s => some (a, s)
  | step ready act next, s =>
    if ready s then
      let (b, s) := act s
      (next b).run s
    else none

/-- The next step of an activity, if it has one and need not wait. -/
def advance : Activity σ α → σ → Option (Activity σ α × σ)
  | done _, _ => none
  | step ready act next, s =>
    if ready s then
      let (b, s) := act s
      some (next b, s)
    else none

/-- One step of each activity in turn; those that are done or would wait are passed over. Also
whether any of them took a step. -/
def turn : List (Activity σ α) → σ → Bool × List (Activity σ α) × σ
  | [], s => (false, [], s)
  | a :: rest, s =>
    match a.advance s with
    | some (a, s) =>
      let (_, rest, s) := turn rest s
      (true, a :: rest, s)
    | none =>
      let (moved, rest, s) := turn rest s
      (moved, a :: rest, s)

/-- Turns until no activity can go on, at most as many as are given. -/
def turns : Nat → List (Activity σ α) → σ → List (Activity σ α) × σ
  | 0, activities, s => (activities, s)
  | limit + 1, activities, s =>
    match turn activities s with
    | (true, activities, s) => turns limit activities s
    | (false, activities, s) => (activities, s)

def result? : Activity σ α → Option α
  | done a => some a
  | step _ _ _ => none

end Activity

end ImageLedger
