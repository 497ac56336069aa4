import ImageLedger.Node.Submit

namespace ImageLedger

inductive CycleStatus where
  | idle
  | waiting
  | committed
  | rejected
deriving DecidableEq

def CycleStatus.name : CycleStatus → String
  | idle => "idle"
  | waiting => "waiting"
  | committed => "committed"
  | rejected => "rejected"

structure CycleResult where
  status : CycleStatus
  count : Nat
  blockHeight : Option Nat
  txId : Option Nat
  reason : Option String
deriving DecidableEq

namespace Batching

inductive DropReason where
  | onChain
  | repeated
  | broken (violation : Violation)
deriving DecidableEq

def DropReason.message : DropReason → String
  | onChain => "Image hash already on blockchain"
  | repeated => "Duplicate image hash in batch"
  | broken violation => violation.message

/-- The reason to drop an entry, given the hashes on the ledger and those accepted before it. -/
def dropReason (onChain accepted : List String) (now : Number) (e : BatchEntry) :
    Option DropReason :=
  let hash := HashText.lower e.imageHash
  if hash ∈ onChain then some .onChain
  else if hash ∈ accepted then some .repeated
  else (Rules.screenEntry now e.received).map .broken

/-- Goes through candidates in their order and splits them into those accepted and those dropped
with a reason. -/
def screen (onChain : List String) (now : Number) :
    List String → List Submission → List Submission × List (Submission × DropReason)
  | _, [] => ([], [])
  | accepted, c :: rest =>
    match dropReason onChain accepted now c.row.entry with
    | some reason =>
      let (kept, dropped) := screen onChain now accepted rest
      (kept, (c, reason) :: dropped)
    | none =>
      let (kept, dropped) :=
        screen onChain now (HashText.lower c.row.entry.imageHash :: accepted) rest
      (c :: kept, dropped)

/-- The batch of some entries, signed over their sorted hashes. -/
def transaction (entries : List BatchEntry) (submitterId : String) (sign : String → String) :
    BatchTransaction :=
  let hashes := entries.map fun e => HashText.lower e.imageHash
  { imageHashes := hashes
    timestamps := entries.map (·.timestamp)
    submitterId
    signature := sign (batchPayload hashes)
    modificationLevels := some (entries.map fun e => some e.modificationLevel)
    parentImageHashes := some (entries.map (·.parentImageHash))
    gpsHashes := some (entries.map (·.gpsHash))
    ownerHashes := some (entries.map (·.ownerHash)) }

/-- A batch that is ready to be committed, with the submissions in it. -/
structure Batch where
  transaction : BatchTransaction
  ids : List Nat

end Batching

namespace Node

def rejectAll : List (Submission × Batching.DropReason) → Operation Unit
  | [] => pure ()
  | (c, reason) :: rest => do
    .act fun n => ((), { n with store := n.store.markRejected c.row.id reason.message })
    rejectAll rest

/-- The first half of a cycle: a batch, or the result of a cycle that has none. -/
def assemble (now : Number) : Operation (CycleResult ⊕ Batching.Batch) := do
  let candidates ← .look fun n =>
    (n.store.findReady n.settings.batchSizeMax).mapError Fault.submission
  if candidates.isEmpty then return .inl ⟨.idle, 0, none, none, none⟩
  let onChain ← .look fun n =>
    (n.store.existing (candidates.map (·.row.entry.imageHash))).mapError Fault.store
  let (kept, dropped) := Batching.screen onChain now [] candidates
  rejectAll dropped
  .look fun n => .ok <|
    if Number.lt (Number.ofNat kept.length) n.settings.batchSizeMin then
      .inl ⟨if kept.isEmpty then .idle else .waiting, kept.length, none, none, none⟩
    else .inr ⟨Batching.transaction (kept.map (·.row.entry)) n.settings.nodeId n.sign,
      kept.map (·.row.id)⟩

/-- What the second half of a cycle does under the lock. The submissions are marked in the same
transaction that stores the block. -/
def commitLocked (network : Consensus.Network) (now : Number) (batch : Batching.Batch) :
    Operation CycleResult := do
  if let some v ← validate batch.transaction.received (some now) then
    return ⟨.rejected, batch.ids.length, none, none, some v.message⟩
  let some p ← propose network [batch.transaction] (some now)
    | return ⟨.idle, 0, none, none, none⟩
  let stored ← storeBlock p fun s block => .ok (s.markBatched batch.ids block.txIds.head?)
  broadcast network (some p.height)
  return ⟨.committed, batch.ids.length, some stored.block.height, stored.txIds.head?, none⟩

/-- The second half of a cycle. -/
def commit (network : Consensus.Network) (now : Number) (batch : Batching.Batch) :
    Operation CycleResult :=
  exclusively (commitLocked network now batch)

def batchingCycle (network : Consensus.Network) (now : Option Number) : Operation CycleResult := do
  let current ← .look fun n => .ok n.seconds
  let now := now.getD current
  match ← assemble now with
  | .inl result => return result
  | .inr batch => commit network now batch

/-- Starts a run of the batching worker on demand, unless one is under way. -/
def beginBatching : Operation Bool :=
  .act fun n =>
    let idle := n.batching.running.isNone
    let (batching, _) := n.batching.runOnce (α := Unit)
    (idle, { n with batching })

def endBatching : Operation Unit :=
  .act fun n =>
    let (batching, _) := n.batching.finish (α := Unit) (.ok ())
    ((), { n with batching })

/-- A cycle on demand, or nothing while one is under way. -/
def triggerBatching (network : Consensus.Network) : Operation (Option CycleResult) := do
  if ← beginBatching then
    let result ← .outcome (batchingCycle network none)
    endBatching
    return some (← result)
  else return none

def triggerBatchingAround (network : Consensus.Network) (between : Operation α) :
    Operation (α × Option CycleResult) := do
  if ← beginBatching then
    let now ← .look fun n => .ok n.seconds
    let first ← .outcome (assemble now)
    let inner ← between
    let result ← .outcome (match first with
      | .error e => throw e
      | .ok (.inl result) => pure result
      | .ok (.inr batch) => commit network now batch)
    endBatching
    return (inner, some (← result))
  else
    let inner ← between
    return (inner, none)

end Node

end ImageLedger
