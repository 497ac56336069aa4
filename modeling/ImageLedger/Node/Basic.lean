import ImageLedger.Activity
import ImageLedger.Authority.Client
import ImageLedger.Fault
import ImageLedger.Schedule.Periodic
import ImageLedger.Store.Submissions
import ImageLedger.Store.Tamper

namespace ImageLedger

/-- Who waits for the lock, first come first served. The one in front holds it. -/
structure WriteLock where
  queue : List Nat
  tickets : Nat
deriving DecidableEq

structure Node where
  settings : Settings
  sign : String → String
  /-- The clock, in milliseconds. -/
  clock : Int
  /-- How many receipts were given out. -/
  receipts : Nat
  store : Store
  cache : Authority.Cache
  engine : Consensus.Engine
  lock : WriteLock
  batching : Schedule.Periodic
  validation : Schedule.Periodic

/-- Work on a node that ends with a result or a fault. -/
abbrev Operation (α : Type) := ExceptT Fault (Activity Node) α

namespace Operation

/-- A step that looks at the node and may fail. -/
def look (f : Node → Except Fault α) : Operation α := Activity.look f

def act (f : Node → α × Node) : Operation α :=
  Activity.atomic fun n =>
    let (a, n) := f n
    (.ok a, n)

/-- A step that may fail, and then leaves what it left. -/
def attempt (f : Node → Except Fault α × Node) : Operation α := Activity.atomic f

/-- A step that changes the node only if it succeeds. -/
def transact (f : Node → Except Fault (α × Node)) : Operation α :=
  Activity.atomic fun n =>
    match f n with
    | .ok (a, n) => (.ok a, n)
    | .error e => (.error e, n)

def outcome (op : Operation α) : Operation (Except Fault α) :=
  ExceptT.mk (op.run.andThen fun result => .done (.ok result))

/-- Carries out an operation without interruption; `none` if it would wait for another one. -/
def perform (op : Operation α) (n : Node) : Option (Except Fault α × Node) := op.run.run n

end Operation

namespace Node

/-- The current time in whole seconds. -/
def seconds (n : Node) : Number := Number.ofInt (n.clock / 1000)

def advance (n : Node) (milliseconds : Int) : Node := { n with clock := n.clock + milliseconds }

def receiptId (count : Nat) : String :=
  let digits := Nat.toDigits 10 count
  "00000000-0000-4000-8000-" ++ String.ofList (List.replicate (12 - digits.length) '0' ++ digits)

/-- The rules that batches must meet at this node. -/
def ruleOptions (n : Node) : Rules.Options :=
  ⟨n.settings.authorizedSubmitters, n.settings.batchSizeMin, n.settings.batchSizeMax⟩

/-- The first rule that a batch breaks on this node's ledger. -/
def violation (n : Node) (now : Number) (tx : ReceivedBatch) : Option Violation :=
  Rules.validate n.ruleOptions n.store.existingOf now tx

def tip (n : Node) : Option Tip := n.store.latestBlock.map Block.tip

def endpoints (n : Node) : Authority.Endpoints :=
  ⟨n.settings.authorityValidationUrl, n.settings.authorityCertificateUrl⟩

def create (settings : Settings) (sign : String → String) (clock : Int) : Except Fault Node :=
  match Consensus.Engine.create settings.consensusMode settings.nodeId settings.validatorNodes
      true with
  | .error e => .error (.consensus e)
  | .ok engine =>
    match Authority.Cache.create? settings.validationCacheMaxSize
        settings.validationCacheTtlSeconds with
    | none => .error .cacheLimits
    | some cache => .ok {
        settings, sign, clock, cache, engine
        receipts := 0
        store := .empty
        lock := ⟨[], 0⟩
        batching := .idle
        validation := .idle }

end Node

namespace WriteLock

def enter (l : WriteLock) : Nat × WriteLock := (l.tickets, ⟨l.queue ++ [l.tickets], l.tickets + 1⟩)

def holds (l : WriteLock) (ticket : Nat) : Bool := l.queue.head? = some ticket

def leave (l : WriteLock) (ticket : Nat) : WriteLock :=
  { l with queue := l.queue.filter (· ≠ ticket) }

end WriteLock

/-- Carries out an operation while no other one does so under the lock. The lock is given back
however the operation ends. -/
def exclusively (op : Operation α) : Operation α :=
  ExceptT.mk <|
    (Activity.atomic fun (n : Node) =>
        let (ticket, lock) := n.lock.enter
        (ticket, { n with lock })).andThen fun ticket =>
      (Activity.await fun n => n.lock.holds ticket).andThen fun _ =>
        op.run.andThen fun result =>
          (Activity.change fun n => { n with lock := n.lock.leave ticket }).andThen fun _ =>
            .done result

end ImageLedger
