import ImageLedger.Digest.HashText
import ImageLedger.Number.Decimal

namespace ImageLedger.Merkle

inductive BuildError where
  | noLeaves
  | malformedLeaf (index : Nat)
  | malformedCount (count : String)
deriving DecidableEq

def BuildError.message : BuildError → String
  | noLeaves => "Cannot build a Merkle tree without leaves"
  | malformedLeaf index => s!"Leaf {index} is not a SHA-256 hex digest"
  | malformedCount count => s!"Leaf count must be a positive integer, got {count}"

inductive Side where
  | left
  | right
deriving DecidableEq

structure Step where
  sibling : String
  side : Side
deriving DecidableEq

/-- The path of one leaf up to the root. -/
structure LeafProof where
  imageHash : String
  leafIndex : Nat
  path : List Step
deriving DecidableEq

structure Tree where
  root : String
  depth : Nat
  proofs : List LeafProof
deriving DecidableEq

/-- The number of binary digits of a value; zero has none. -/
def bitLength (n : Nat) : Nat := if n = 0 then 0 else n.log2 + 1

/-- The depth of a tree with so many leaves. The count less one is cut to thirty-two bits. -/
def depthOf (count : Number) : Except BuildError Nat :=
  if count.isInteger && Number.le 1 count then
    if count = 1 then .ok 0 else .ok (bitLength (Number.sub count 1).low32)
  else .error (.malformedCount count.toText)

/-- The depth for a count of any type. -/
def depthOfValue : Json → Except BuildError Nat
  | .number count => depthOf count
  | other => .error (.malformedCount other.display)

def hashPair (left right : Digest) : Digest := Sha256.hash (left.bytes ++ right.bytes)

/-- The level above: neighbours hashed two by two. -/
def parents : List Digest → List Digest
  | a :: b :: rest => hashPair a b :: parents rest
  | _ => []

def levels : Nat → List Digest → List (List Digest)
  | 0, level => [level]
  | height + 1, level => level :: levels height (parents level)

def stepAt (level : Array Digest) (index : Nat) : Step :=
  if index % 2 = 0 then ⟨(level.getD (index + 1) Digest.zero).toHex, .right⟩
  else ⟨(level.getD (index - 1) Digest.zero).toHex, .left⟩

def pathFrom : List (Array Digest) → Nat → List Step
  | [], _ => []
  | level :: above, index => stepAt level index :: pathFrom above (index / 2)

/-- The digests of leaf texts, counted from the given index. -/
def readLeaves : Nat → List String → Except BuildError (List Digest)
  | _, [] => .ok []
  | index, leaf :: rest =>
    match Digest.ofHex? leaf with
    | none => .error (.malformedLeaf index)
    | some digest =>
      match readLeaves (index + 1) rest with
      | .ok digests => .ok (digest :: digests)
      | .error e => .error e

/-- The leaves followed by zero digests up to the given width. -/
def pad (width : Nat) (leaves : List Digest) : List Digest :=
  leaves ++ List.replicate (width - leaves.length) Digest.zero

/-- The root of the levels: the first digest of the last one. -/
def rootOf (all : List (List Digest)) : Digest :=
  match all.getLast? with
  | some (root :: _) => root
  | _ => Digest.zero

/-- The tree of leaf texts, with one proof for each leaf in order. -/
def build (leaves : List String) : Except BuildError Tree :=
  if leaves.isEmpty then .error .noLeaves
  else do
    let digests ← readLeaves 0 leaves
    let depth ← depthOf (Number.ofNat digests.length)
    let all := levels depth (pad (Nat.pow 2 depth) digests)
    let below := (all.take depth).map List.toArray
    return {
      root := (rootOf all).toHex
      depth := depth
      proofs := leaves.mapIdx fun i leaf => ⟨HashText.lower leaf, i, pathFrom below i⟩ }

/-- The tree of leaves of any type; what is not a text is a malformed leaf. -/
def buildReceived (leaves : List Json) : Except BuildError Tree :=
  build (leaves.map fun
    | .text s => s
    | _ => "")

end ImageLedger.Merkle
