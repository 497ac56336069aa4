import ImageLedger.Json.Reader
import ImageLedger.Store.Append

namespace ImageLedger

inductive ProofError where
  | notJson
  | notAList
  | malformedStep
deriving DecidableEq

def ProofError.message : ProofError → String
  | notJson => "Stored Merkle proof is not JSON"
  | notAList => "Stored Merkle proof is not a list"
  | malformedStep => "Stored Merkle proof step is malformed"

structure ProofWithRoot where
  txId : Nat
  imageHash : String
  leafIndex : Nat
  path : List Merkle.Step
  merkleRoot : String
  blockHeight : Nat
deriving DecidableEq

namespace Store

def blockByHeight (s : Store) (height : Number) : Option Block :=
  s.blocks.find? fun b => Number.ofNat b.height = height

def blockByHash (s : Store) (hash : String) : Option Block :=
  match HashText.normalize? hash with
  | some h => s.blocks.find? (·.blockHash = h)
  | none => none

/-- The transactions of a block, in the order of their numbers. -/
def transactionsOf (s : Store) (height : Number) : List LedgerTransaction :=
  s.transactions.filter fun tx => Number.ofNat tx.blockHeight = height

def image? (s : Store) (hash : String) : Option ImageRecord :=
  match HashText.normalize? hash with
  | some h => s.images.find? (·.imageHash = h)
  | none => none

/-- The most hashes that one query asks for. -/
def querySize : Nat := 500

/-- The items in portions of the given size, in their order. The last portion may be smaller. -/
def portions (size : Nat) (items : List α) : List (List α) :=
  (List.range ((items.length + size - 1) / size)).map fun k => (items.drop (k * size)).take size

/-- The hashes of the records that a query for some hashes finds. -/
def recordedAmong (s : Store) (hashes : List String) : List String :=
  (s.images.filter (·.imageHash ∈ hashes)).map (·.imageHash)

/-- Which of some lowercase hashes are on the ledger, each once, in portions of the given size. -/
def existingIn (s : Store) (size : Nat) (hashes : List String) : List String :=
  Text.distinct ((portions size (Text.distinct hashes)).flatMap s.recordedAmong)

/-- Which of some lowercase hashes are on the ledger, each once. -/
def existingOf (s : Store) (hashes : List String) : List String := s.existingIn querySize hashes

/-- Which of some hashes are on the ledger; all must be well-formed. -/
def existing (s : Store) (hashes : List String) : Except StoreError (List String) :=
  match normalizeAll hashes with
  | .ok hashes => .ok (s.existingOf hashes)
  | .error e => .error e

def totalHashes (s : Store) : Nat := s.images.length

/-- Points the node's state at a block that need not exist. -/
def updateNodeState (s : Store) (nodeId : String) (height : Number) (hash : String) : Store :=
  s.writeNodeState nodeId height hash ((s.blockByHeight height).map (·.timestamp))

def readStep (step : Json) : Option Merkle.Step := do
  let sibling ← (← step.field? "sibling_hash").text?
  let side ← Merkle.Side.ofText? (← (← step.field? "position").text?)
  return ⟨sibling, side⟩

def readPath (text : String) : Except ProofError (List Merkle.Step) :=
  match Json.parse? text with
  | none => .error .notJson
  | some (.list steps) =>
    match steps.mapM readStep with
    | some path => .ok path
    | none => .error .malformedStep
  | some _ => .error .notAList

/-- The stored proof of an image hash, if its transaction has a root. -/
def proof? (s : Store) (hash : String) : Except ProofError (Option ProofWithRoot) :=
  match (HashText.normalize? hash).bind fun h => s.proofs.find? (·.imageHash = h) with
  | none => .ok none
  | some row =>
    match s.transactions.find? (·.txId = row.txId) with
    | none => .ok none
    | some tx =>
      match tx.merkleRoot with
      | none => .ok none
      | some root => do
        let path ← readPath row.pathText
        return some ⟨row.txId, row.imageHash, row.leafIndex, path, root, tx.blockHeight⟩

end Store

end ImageLedger
