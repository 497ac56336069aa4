import ImageLedger.Node.Basic

namespace ImageLedger

/-- The answer for an image hash; an unknown one has no record. -/
structure Verification where
  imageHash : String
  record : Option ImageRecord
deriving DecidableEq

structure BlockDetails where
  block : Block
  transactions : List LedgerTransaction
deriving DecidableEq

structure ProofLookup where
  proof : ProofWithRoot
  valid : Bool
deriving DecidableEq

/-- An image hash on the way back to the first capture. -/
structure ProvenanceLink where
  imageHash : String
  modificationLevel : Number
  timestamp : Number
  blockHeight : Nat
  txId : Nat
  parentImageHash : Option String
deriving DecidableEq

structure NodeStatus where
  nodeId : String
  blockHeight : Number
  totalHashes : Nat
  lastBlockTime : Option Number
  genesisHash : Option String
  operational : Bool
  consensusMode : ConsensusMode
  validatorNodes : List String
  pendingSubmissions : Nat
deriving DecidableEq

namespace Store

def verify (s : Store) (imageHash : String) : Verification :=
  match HashText.normalize? imageHash with
  | some hash => ⟨hash, s.image? hash⟩
  | none => ⟨imageHash, none⟩

def details (s : Store) (b : Block) : BlockDetails :=
  ⟨b, s.transactionsOf (Number.ofNat b.height)⟩

def lookupProof (s : Store) (imageHash : String) : Except ProofError (Option ProofLookup) := do
  match ← s.proof? imageHash with
  | none => return none
  | some p => return some ⟨p, Merkle.verify p.imageHash p.path p.merkleRoot⟩

def linkOf (r : ImageRecord) : ProvenanceLink :=
  ⟨r.imageHash, r.modificationLevel, r.timestamp, r.blockHeight, r.txId, r.parentImageHash⟩

/-- Follows parents from a hash. A hash that was met before, one that is not on the ledger and the
greatest depth end the way. -/
def follow (s : Store) (maxDepth : Number) :
    Nat → List String → Option String → List ProvenanceLink
  | 0, _, _ => []
  | _, _, none => []
  | steps + 1, met, some hash =>
    if hash ∈ met || !Number.lt (Number.ofNat met.length) maxDepth then []
    else match s.image? hash with
      | none => []
      | some r => linkOf r :: follow s maxDepth steps (hash :: met) r.parentImageHash

/-- The depth of provenance unless another one is asked for. -/
def defaultDepth : Number := 10

/-- The links from a hash back; there are never more of them than records. -/
def provenance (s : Store) (imageHash : String) (maxDepth : Number) : List ProvenanceLink :=
  s.follow maxDepth (s.images.length + 1) [] (HashText.normalize? imageHash)

end Store

namespace Node

def status (n : Node) : NodeStatus :=
  let state := n.store.state
  { nodeId := n.settings.nodeId
    blockHeight := (state.map (·.currentBlockHeight)).getD 0
    totalHashes := (state.map (·.totalHashes)).getD 0
    lastBlockTime := state.bind (·.lastBlockTime)
    genesisHash := state.bind (·.genesisHash)
    operational := state.isSome
    consensusMode := n.settings.consensusMode
    validatorNodes := n.settings.validatorNodes
    pendingSubmissions := n.store.countAwaiting }

end Node

end ImageLedger
