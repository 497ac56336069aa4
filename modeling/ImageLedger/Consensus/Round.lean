import ImageLedger.Number.Decimal

namespace ImageLedger.Consensus

/-- More than two thirds of the validators. -/
def quorumSize (validators : Nat) : Nat := 2 * validators / 3 + 1

/-- The same for a count of any kind. -/
def quorumOf (count : Number) : Number :=
  Number.add (Number.floor (Number.div (Number.mul 2 count) 3)) 1

inductive Phase where
  | collectingVotes
  | committed
  | rejected
deriving DecidableEq

def Phase.name : Phase → String
  | collectingVotes => "collecting_votes"
  | committed => "committed"
  | rejected => "rejected"

/-- What a peer sends back, or that the request to it failed. -/
inductive Answer where
  | vote (validatorId blockHash : String) (approve : Bool)
  | failed
deriving DecidableEq

structure Arrival where
  sender : String
  answer : Answer
deriving DecidableEq

/-- One round of votes on a block. It closes as soon as enough validators approve or enough of them
can no longer do so. -/
structure Round where
  height : Number
  blockHash : String
  phase : Phase
  approvals : List String
  rejections : List String
deriving DecidableEq

namespace Round

/-- A new round, in which the proposer approves if it is a validator. -/
def begin (height : Number) (blockHash proposer : String) (validators : List String) : Round where
  height := height
  blockHash := blockHash
  phase := .collectingVotes
  approvals := if proposer ∈ validators then [proposer] else []
  rejections := []

def approve (r : Round) (peer : String) : Round := { r with approvals := r.approvals ++ [peer] }

def reject (r : Round) (peer : String) : Round := { r with rejections := r.rejections ++ [peer] }

/-- Counts a peer's answer. A failed request and a vote under another name or for another block
count against the proposal. -/
def record (r : Round) (peer : String) : Answer → Round
  | .failed => r.reject peer
  | .vote validatorId blockHash approve =>
    if peer ∈ r.approvals ∨ peer ∈ r.rejections then r
    else if validatorId ≠ peer ∨ blockHash ≠ r.blockHash then r.reject peer
    else if approve then r.approve peer
    else r.reject peer

/-- How many validators have not been heard. -/
def outstanding (r : Round) (validators : Nat) : Nat :=
  validators - r.approvals.length - r.rejections.length

/-- Whether the answers that are still out cannot change the result. -/
def decided (r : Round) (validators : Nat) : Bool :=
  quorumSize validators ≤ r.approvals.length ||
    r.approvals.length + r.outstanding validators < quorumSize validators

/-- Hears an answer. Only a peer that was asked and not heard yet counts. -/
def hear (r : Round) (waiting : List String) (a : Arrival) : Round × List String :=
  if a.sender ∈ waiting then (r.record a.sender a.answer, waiting.erase a.sender)
  else (r, waiting)

/-- Hears answers in their order until the round is decided or no more come. Of those that come
after the decision the first `late` ones still find the round open. -/
def collect (validators : Nat) : Nat → Round → List String → List Arrival → Round
  | _, r, _, [] => r
  | late, r, waiting, a :: rest =>
    let (heard, waiting) := r.hear waiting a
    if r.decided validators then
      match late with
      | 0 => r
      | late + 1 => collect validators late heard waiting rest
    else collect validators late heard waiting rest

def approved (r : Round) (validators : Nat) : Bool := quorumSize validators ≤ r.approvals.length

def close (r : Round) (validators : Nat) : Round :=
  { r with phase := if r.approved validators then .committed else .rejected }

end Round

end ImageLedger.Consensus
