import ImageLedger.Node.Basic

namespace ImageLedger

/-- One image hash to be committed at once. -/
structure SubmitInput where
  imageHash : String
  timestamp : Number
  submitterId : String
  modificationLevel : Option Number
  parentImageHash : Option String
  gpsHash : Option String
  ownerHash : Option String
deriving DecidableEq

structure SubmitResult where
  txId : Option Nat
  blockHeight : Nat
deriving DecidableEq

namespace SubmitInput

/-- The lowercase form of the image hash, or the text itself if it is malformed. -/
def hash (input : SubmitInput) : String :=
  (HashText.normalize? input.imageHash).getD input.imageHash

def transaction (input : SubmitInput) (sign : String → String) : BatchTransaction where
  imageHashes := [input.hash]
  timestamps := [input.timestamp]
  submitterId := input.submitterId
  signature := sign input.hash
  modificationLevels := some [some (input.modificationLevel.getD 0)]
  parentImageHashes := some [input.parentImageHash]
  gpsHashes := some [input.gpsHash]
  ownerHashes := some [input.ownerHash]

end SubmitInput

namespace Node

def validate (tx : ReceivedBatch) (now : Option Number) : Operation (Option Violation) :=
  .look fun n => .ok (n.violation (now.getD n.seconds) tx)

def propose (network : Consensus.Network) (transactions : List BatchTransaction)
    (timestamp : Option Number) : Operation (Option Proposal) := do
  let tip ← .look fun n => .ok n.tip
  .attempt fun n =>
    let (result, engine) := n.engine.propose n.sign network tip transactions
      (timestamp.getD n.seconds)
    (result.mapError Fault.consensus, { n with engine })

def storeBlock (p : Proposal) (after : Store.AfterBlock) : Operation StoredBlock :=
  .transact fun n =>
    match n.store.storeBlock n.settings.nodeId p after with
    | .ok (stored, store) => .ok (stored, { n with store })
    | .error e => .error (.store e)

def broadcast (network : Consensus.Network) (height : Option Number) : Operation Unit :=
  .attempt fun n =>
    let (result, engine) := n.engine.broadcast network height
    (result.mapError Fault.consensus, { n with engine })

def submit (network : Consensus.Network) (input : SubmitInput) : Operation SubmitResult := do
  let tx ← .look fun n => .ok (input.transaction n.sign)
  exclusively do
    if let some v ← validate tx.received none then throw (.rejected v)
    let some p ← propose network [tx] none | throw (.consensus .nothingProposed)
    let stored ← storeBlock p Store.nothingAfter
    broadcast network (some p.height)
    return ⟨stored.txIds.head?, stored.block.height⟩

/-- The first block, made of nothing but the signature of its maker. -/
def genesisProposal (sign : String → String) (validatorId : String) (timestamp : Number) :
    Proposal where
  height := 0
  previousHash := HashText.zero
  timestamp := timestamp
  validatorId := validatorId
  transactions := []
  transactionHashes := []
  signature := sign (signingPayload 0 HashText.zero timestamp [] validatorId)

/-- The first block of the chain, which is made if there is none. -/
def createGenesis (validatorId : Option String) (timestamp : Option Number) : Operation Block :=
  exclusively do
    let found ← .look fun n => .ok (n.store.blockByHeight 0)
    match found with
    | some block => return block
    | none =>
      let p ← .look fun n => .ok (genesisProposal n.sign (validatorId.getD n.settings.nodeId)
        (timestamp.getD n.seconds))
      return (← storeBlock p Store.nothingAfter).block

end Node

end ImageLedger
