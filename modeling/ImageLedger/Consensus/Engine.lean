import ImageLedger.Chain.Commitment
import ImageLedger.Consensus.Round
import ImageLedger.Settings

namespace ImageLedger

/-- Why there is no agreement, or no way to look for one. -/
inductive ConsensusError where
  | validatorsRequired
  | transportRequired
  | noValidators
  | refused (height : Number) (approvals validators quorum : Nat)
  | noSynchronization
  | nothingProposed
  | announcementFailed (message : String)
deriving DecidableEq

def ConsensusError.message : ConsensusError → String
  | validatorsRequired => "Proof-of-authority consensus requires VALIDATOR_NODES"
  | transportRequired => "Proof-of-authority consensus requires a vote transport"
  | noValidators => "Proof-of-authority requires at least one validator"
  | refused height approvals validators quorum =>
    "Block " ++ height.toText ++
      s!" rejected: {approvals}/{validators} approvals, quorum {quorum}"
  | noSynchronization => "Peer synchronization is not supported"
  | nothingProposed => "Consensus produced no block for a non-empty submission"
  | announcementFailed message => message

namespace Consensus

structure VoteRequest where
  validatorId : String
  blockHash : String
  proposerId : String
  height : Number
deriving DecidableEq

structure Announcement where
  validatorIds : List String
  height : Option Number
deriving DecidableEq

/-- A node's part in agreeing on blocks, with its current round and all it has sent. -/
structure Engine where
  mode : ConsensusMode
  validatorId : String
  /-- The validators, each once. -/
  validators : List String
  round : Option Round
  requested : List VoteRequest
  announced : List Announcement
deriving DecidableEq

/-- The peers' side: the answers that come in to a round on a block hash, and the failure of an
announcement if it fails. -/
structure Network where
  arrivals : String → List Arrival
  /-- How many answers come in between the decision of a round and its end. -/
  late : Nat := 0
  announcementFailure : Option String

def Network.silent : Network := ⟨fun _ => [], 0, none⟩

namespace Engine

def single (validatorId : String) : Engine := ⟨.single, validatorId, [], none, [], []⟩

def authority (validatorId : String) (validators : List String) : Except ConsensusError Engine :=
  if validators.isEmpty then .error .noValidators
  else .ok ⟨.poa, validatorId, Text.distinct validators, none, [], []⟩

/-- The engine that the settings ask for. Votes need a way to the peers. -/
def create (mode : ConsensusMode) (validatorId : String) (validators : List String)
    (transport : Bool) : Except ConsensusError Engine :=
  match mode with
  | .single => .ok (single validatorId)
  | .poa =>
    if validators.isEmpty then .error .validatorsRequired
    else if transport then authority validatorId validators
    else .error .transportRequired

def quorum (e : Engine) : Nat := quorumSize e.validators.length

def peers (e : Engine) : List String := e.validators.filter (· ≠ e.validatorId)

end Engine

/-- The next block after the tip, signed. An empty chain gets the first place, after the zero
hash. -/
def buildProposal (sign : String → String) (validatorId : String) (tip : Option Tip)
    (transactions : List BatchTransaction) (timestamp : Number) : Proposal :=
  let height := match tip with
    | some tip => Number.add tip.height 1
    | none => 0
  let previousHash := match tip with
    | some tip => tip.blockHash
    | none => HashText.zero
  let hashes := transactions.map fun tx =>
    transactionHash (tx.imageHashes.map HashText.lower) tx.timestamps tx.submitterId
  { height, previousHash, timestamp, validatorId, transactions
    transactionHashes := hashes
    signature := sign (signingPayload height previousHash timestamp hashes validatorId) }

end Consensus

def Proposal.blockHash (p : Proposal) : String :=
  ImageLedger.blockHash p.height p.previousHash p.timestamp p.transactionHashes p.validatorId

namespace Consensus.Engine

def vote (e : Engine) (network : Network) (p : Proposal) : Engine :=
  let count := e.validators.length
  let start := Round.begin p.height p.blockHash e.validatorId e.validators
  { e with
    round := some ((start.collect count network.late e.peers
      (network.arrivals p.blockHash)).close count)
    requested := e.requested ++
      e.peers.map fun peer => ⟨peer, p.blockHash, e.validatorId, p.height⟩ }

/-- The approved proposal of the next block, or nothing for no transactions. -/
def propose (e : Engine) (sign : String → String) (network : Network) (tip : Option Tip)
    (transactions : List BatchTransaction) (timestamp : Number) :
    Except ConsensusError (Option Proposal) × Engine :=
  if transactions.isEmpty then (.ok none, e)
  else
    let p := buildProposal sign e.validatorId tip transactions timestamp
    match e.mode with
    | .single => (.ok (some p), e)
    | .poa =>
      let e := e.vote network p
      let approvals := match e.round with
        | some r => r.approvals.length
        | none => 0
      if e.quorum ≤ approvals then (.ok (some p), e)
      else (.error (.refused p.height approvals e.validators.length e.quorum), e)

def broadcast (e : Engine) (network : Network) (height : Option Number) :
    Except ConsensusError Unit × Engine :=
  match e.mode with
  | .single => (.ok (), e)
  | .poa =>
    let e := { e with announced := e.announced ++ [⟨e.peers, height⟩] }
    match network.announcementFailure with
    | some message => (.error (.announcementFailed message), e)
    | none => (.ok (), e)

/-- Fetching missing blocks from peers: nothing to do for a single node, and not possible
otherwise. -/
def synchronize (e : Engine) : Except ConsensusError Unit :=
  match e.mode with
  | .single => .ok ()
  | .poa => .error .noSynchronization

def clearOutbox (e : Engine) : Engine := { e with requested := [], announced := [] }

end Consensus.Engine

end ImageLedger
