import ImageLedger.Digest.HashText
import ImageLedger.Merkle.Tree

namespace ImageLedger

/-- One image hash with its provenance fields, as it enters a batch. -/
structure BatchEntry where
  imageHash : String
  timestamp : Number
  modificationLevel : Number
  parentImageHash : Option String
  gpsHash : Option String
  ownerHash : Option String
deriving DecidableEq

/-- A batch of image hashes submitted as one transaction. The optional columns run beside the
image hashes. -/
structure BatchTransaction where
  imageHashes : List String
  timestamps : List Number
  submitterId : String
  signature : String
  modificationLevels : Option (List (Option Number))
  parentImageHashes : Option (List (Option String))
  gpsHashes : Option (List (Option String))
  ownerHashes : Option (List (Option String))
deriving DecidableEq

/-- A signed block that is not stored yet. -/
structure Proposal where
  height : Number
  previousHash : String
  timestamp : Number
  validatorId : String
  transactions : List BatchTransaction
  transactionHashes : List String
  signature : String
deriving DecidableEq

structure Block where
  height : Nat
  blockHash : String
  previousHash : String
  timestamp : Number
  validatorId : String
  transactionCount : Nat
  signature : String
deriving DecidableEq

/-- A transaction as stored, with the root and depth of its hash tree unless it is empty. -/
structure LedgerTransaction where
  txId : Nat
  txHash : String
  blockHeight : Nat
  submitterId : String
  batchSize : Nat
  signature : String
  merkleRoot : Option String
  treeDepth : Option Nat
deriving DecidableEq

structure ImageRecord where
  imageHash : String
  txId : Nat
  blockHeight : Nat
  timestamp : Number
  modificationLevel : Number
  parentImageHash : Option String
  submitterId : String
  gpsHash : Option String
  ownerHash : Option String
deriving DecidableEq

structure NodeState where
  nodeId : String
  currentBlockHeight : Number
  totalHashes : Nat
  genesisHash : Option String
  lastBlockTime : Option Number
deriving DecidableEq

structure Tip where
  height : Number
  blockHash : String
deriving DecidableEq

def Block.tip (b : Block) : Tip := ⟨Number.ofNat b.height, b.blockHash⟩

end ImageLedger
