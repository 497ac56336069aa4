namespace ImageLedger.Schedule

structure Stopwatch where
  operation : String
  /-- The start in milliseconds. -/
  startedAt : Int
deriving DecidableEq

inductive Urgency where
  | debug
  | warning
  | error
deriving DecidableEq

structure Lap where
  duration : Int
  urgency : Urgency
  message : String
deriving DecidableEq

namespace Stopwatch

/-- The greatest number of milliseconds that is not slow. -/
def slowAfter : Int := 5000

/-- Ends a measurement; a slow success is worth a warning, and every failure an error. -/
def finish (w : Stopwatch) (now : Int) (success : Bool) : Lap :=
  let duration := now - w.startedAt
  if !success then ⟨duration, .error, w.operation ++ s!" failed after {duration}ms"⟩
  else if slowAfter < duration then
    ⟨duration, .warning, w.operation ++ s!" completed slowly in {duration}ms"⟩
  else ⟨duration, .debug, w.operation ++ s!" completed in {duration}ms"⟩

def track (w : Stopwatch) (now : Int) (result : Except ε α) : Lap × Except ε α :=
  (w.finish now result.toOption.isSome, result)

end Stopwatch

end ImageLedger.Schedule
