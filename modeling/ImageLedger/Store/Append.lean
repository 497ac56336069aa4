import ImageLedger.Json.Writer
import ImageLedger.Merkle.Verify
import ImageLedger.Store.Tables

namespace ImageLedger

structure StoredBlock where
  block : Block
  txIds : List Nat
deriving DecidableEq

namespace Store

def latestBlock (s : Store) : Option Block := s.blocks.getLast?

/-- The lowercase forms of hashes, or the first one that is malformed. -/
def normalizeAll (hashes : List String) : Except StoreError (List String) :=
  hashes.mapM fun hash =>
    match HashText.normalize? hash with
    | some h => .ok h
    | none => .error (.malformedHash hash)

/-- The hash of a transaction over its lowercase image hashes. -/
def storedHash (tx : BatchTransaction) : Except StoreError String :=
  match normalizeAll tx.imageHashes with
  | .ok hashes => .ok (transactionHash hashes tx.timestamps tx.submitterId)
  | .error e => .error e

/-- The height and previous hash that the next block must have. -/
def expected (s : Store) : Nat × String :=
  match s.latestBlock with
  | some b => (b.height + 1, b.blockHash)
  | none => (0, HashText.zero)

/-- The height that a proposal must have, which is counted as a number. -/
def expectedHeight (s : Store) : Number :=
  match s.latestBlock with
  | some b => Number.add (Number.ofNat b.height) 1
  | none => 0

/-- The record of the image hash at a place of a transaction. A missing time is no number. -/
def imageRow (height txId : Nat) (tx : BatchTransaction) (i : Nat) (hash : String) :
    ImageRecord where
  imageHash := hash
  txId := txId
  blockHeight := height
  timestamp := roundToMinute ((tx.timestamps[i]?).getD .nan)
  modificationLevel := ((tx.modificationLevels.bind (·[i]?)).join).getD 0
  parentImageHash := ((tx.parentImageHashes.bind (·[i]?)).join).bind HashText.normalize?
  submitterId := tx.submitterId
  gpsHash := ((tx.gpsHashes.bind (·[i]?)).join).bind HashText.normalize?
  ownerHash := ((tx.ownerHashes.bind (·[i]?)).join).bind HashText.normalize?

/-- Adds a record; its time must be a number, and its hash new. -/
def insertImage (s : Store) (row : ImageRecord) : Except StoreError Store :=
  if row.timestamp = .nan then .error (.missing "image_hashes" "timestamp")
  else if s.images.any (·.imageHash = row.imageHash) then
    .error (.repeated "image_hashes" "image_hash")
  else .ok { s with images := s.images ++ [row] }

def stepJson (step : Merkle.Step) : Json :=
  .object [("sibling_hash", .text step.sibling), ("position", .text step.side.toText)]

def pathText (path : List Merkle.Step) : String := (Json.list (path.map stepJson)).toText

def proofRow (txId : Nat) (proof : Merkle.LeafProof) : StoredProof :=
  ⟨txId, proof.imageHash, proof.leafIndex, pathText proof.path⟩

/-- The hash tree of a transaction; an empty one has none. -/
def treeOf (hashes : List String) : Except StoreError (Option Merkle.Tree) :=
  if hashes.isEmpty then .ok none
  else match Merkle.build hashes with
    | .ok tree => .ok (some tree)
    | .error e => .error (.tree e)

def insertTransaction (s : Store) (height : Nat) (tx : BatchTransaction) (txHash : String) :
    Except StoreError (Nat × Store) := do
  let hashes ← normalizeAll tx.imageHashes
  let tree ← treeOf hashes
  if s.transactions.any (·.txHash = txHash) then
    throw (.repeated "transactions" "tx_hash")
  let txId := s.transactions.length + 1
  let row : LedgerTransaction := {
    txId, txHash
    blockHeight := height
    submitterId := tx.submitterId
    batchSize := hashes.length
    signature := tx.signature
    merkleRoot := tree.map (·.root)
    treeDepth := tree.map (·.depth) }
  let s := { s with transactions := s.transactions ++ [row] }
  let s ← (hashes.mapIdx fun i hash => imageRow height txId tx i hash).foldlM insertImage s
  let proofs := match tree with
    | some tree => tree.proofs.map (proofRow txId)
    | none => []
  return (txId, { s with proofs := s.proofs ++ proofs })

/-- Adds transactions in their order, with their numbers. -/
def insertTransactions (s : Store) (height : Nat) :
    List (BatchTransaction × String) → Except StoreError (List Nat × Store)
  | [] => .ok ([], s)
  | (tx, txHash) :: rest => do
    let (txId, s) ← insertTransaction s height tx txHash
    let (txIds, s) ← insertTransactions s height rest
    return (txId :: txIds, s)

/-- Points the node's state at a block and counts the records again. Only a block at height zero
sets the genesis hash. -/
def writeNodeState (s : Store) (nodeId : String) (height : Number) (hash : String)
    (time : Option Number) : Store :=
  let genesis := match s.state with
    | some state => if height = 0 then some hash else state.genesisHash
    | none => if height = 0 then some hash else none
  { s with state := some ⟨nodeId, height, s.images.length, genesis, time⟩ }

/-- Adds a block. The number after the last whole one that is kept is that one again, and heights
are unique. -/
def insertBlock (s : Store) (height : Nat) (hash : String) (p : Proposal) :
    Except StoreError (Block × Store) :=
  if p.timestamp = .nan then .error (.missing "blocks" "timestamp")
  else if Number.wholeLimit < height then .error (.repeated "blocks" "height")
  else if s.blocks.any (·.blockHash = hash) then .error (.repeated "blocks" "block_hash")
  else
    let b : Block := ⟨height, hash, p.previousHash, p.timestamp, p.validatorId,
      p.transactions.length, p.signature⟩
    .ok (b, { s with blocks := s.blocks ++ [b] })

/-- Work that belongs to the storing of a block and fails with it. -/
abbrev AfterBlock := Store → StoredBlock → Except StoreError Store

def nothingAfter : AfterBlock := fun s _ => .ok s

/-- Adds the block of a proposal, which must extend the highest one. Either everything that follows
from the block is stored, or nothing. -/
def storeBlock (s : Store) (nodeId : String) (p : Proposal) (after : AfterBlock) :
    Except StoreError (StoredBlock × Store) := do
  let hashes ← p.transactions.mapM storedHash
  if Text.join "," (Text.sort p.transactionHashes) ≠ Text.join "," (Text.sort hashes) then
    throw .hashesDisagree
  let hash := blockHash p.height p.previousHash p.timestamp hashes p.validatorId
  let (height, previousHash) := s.expected
  if p.height ≠ s.expectedHeight ∨ p.previousHash ≠ previousHash then
    throw (.conflict s.expectedHeight p.height)
  let (block, s) ← insertBlock s height hash p
  let (txIds, s) ← insertTransactions s height (p.transactions.zip hashes)
  let s := s.writeNodeState nodeId p.height hash (some p.timestamp)
  let stored : StoredBlock := ⟨block, txIds⟩
  let s ← after s stored
  return (stored, s)

end Store

end ImageLedger
