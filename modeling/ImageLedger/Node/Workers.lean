import ImageLedger.Node.Batching
import ImageLedger.Node.Validation

namespace ImageLedger

inductive Worker where
  | batching
  | validation
deriving DecidableEq

namespace Node

def worker (n : Node) : Worker → Schedule.Periodic
  | .batching => n.batching
  | .validation => n.validation

def setWorker (n : Node) (w : Worker) (t : Schedule.Periodic) : Node :=
  match w with
  | .batching => { n with batching := t }
  | .validation => { n with validation := t }

/-- How many timers of a worker wait. -/
def timers (n : Node) (w : Worker) : Nat := (n.worker w).waiting.length

def startWorker (w : Worker) : Operation Nat :=
  .act fun n =>
    let n := n.setWorker w (n.worker w).start
    (n.timers w, n)

def stopWorker (w : Worker) : Operation Nat :=
  .act fun n =>
    let n := n.setWorker w ((n.worker w).stop (α := Unit)).1
    (n.timers w, n)

/-- The cycle of a worker. Whatever comes of it, the worker goes on. -/
def workerCycle (w : Worker) (network : Consensus.Network) (replies : Nat → Authority.Reply) :
    Operation Unit :=
  match w with
  | .batching => do
    let _ ← .outcome (batchingCycle network none)
  | .validation => do
    let _ ← .outcome (validationCycle replies none none)

/-- The oldest timer of a worker fires and its cycle runs to the end. Whether there was one, and how
many wait afterwards. -/
def tickWorker (w : Worker) (network : Consensus.Network) (replies : Nat → Authority.Reply) :
    Operation (Bool × Nat) := do
  let (fired, started) ← .act fun n =>
    let t := n.worker w
    let after := t.fire
    ((!t.waiting.isEmpty, t.running.isNone && after.running.isSome), n.setWorker w after)
  if started then
    workerCycle w network replies
    .act fun n => ((), n.setWorker w ((n.worker w).finish (α := Unit) (.ok ())).1)
  .look fun n => .ok (fired, n.timers w)

end Node

end ImageLedger
