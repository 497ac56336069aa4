import ImageLedger.Consensus.Engine
import ImageLedger.Intake.Fields
import ImageLedger.Keys.Key
import ImageLedger.Rules
import ImageLedger.Store.Query

namespace ImageLedger

/-- Everything that can go wrong in a node. -/
inductive Fault where
  | field (error : FieldError)
  | notFound (resource : String)
  | alreadyOnChain
  | alreadyStaged
  | cycleRunning
  | rejected (violation : Violation)
  | store (error : StoreError)
  | proof (error : ProofError)
  | tree (error : Merkle.BuildError)
  | consensus (error : ConsensusError)
  | submission (error : SubmissionError)
  | settings (problems : List Settings.Problem)
  | key (error : Keys.KeyError)
  | cacheLimits
  | noResponse
deriving DecidableEq

inductive Category where
  /-- A request that is answered with the given HTTP status. -/
  | request (status : Nat)
  | invalidInput
  | configuration
  | consensus
  | rejected
  | chainConflict (expected proposed : Number)
  | ledger
  | keyFormat
  | storage
  | failure
  /-- A value that cannot be worked with. -/
  | unusable
  /-- A text that is not JSON; in a request body it has an HTTP status. -/
  | malformedJson (status : Option Nat)
  /-- Something thrown that is no error. -/
  | bareText
deriving DecidableEq

/-- What a caller is told about a fault. -/
structure Report where
  category : Category
  message : String
  field : Option String
  rule : Option String
deriving DecidableEq

namespace Report

def plain (category : Category) (message : String) : Report := ⟨category, message, none, none⟩

def badRequest (message : String) (field : Option String) : Report :=
  ⟨.request 400, message, field, none⟩

def notFound (resource : String) : Report := plain (.request 404) (resource ++ " not found")

def conflict (message : String) (field : Option String) : Report :=
  ⟨.request 409, message, field, none⟩

def unavailable (message : String) : Report := plain (.request 503) message

def internalMessage : String := "Internal server error"

def internal (message : Option String) : Report :=
  plain (.request 500) (message.getD internalMessage)

end Report

def StoreError.category : StoreError → Category
  | malformedHash _ => .invalidInput
  | hashesDisagree => .invalidInput
  | conflict expected proposed => .chainConflict expected proposed
  | tree _ => .invalidInput
  | missing _ _ => .storage
  | repeated _ _ => .storage
  | unknownStatus => .storage
  | hook _ => .failure

def ConsensusError.category : ConsensusError → Category
  | validatorsRequired => .configuration
  | transportRequired => .configuration
  | noValidators => .configuration
  | refused _ _ _ _ => .consensus
  | noSynchronization => .consensus
  | nothingProposed => .consensus
  | announcementFailed _ => .failure

def ProofError.category : ProofError → Category
  | notJson => .malformedJson none
  | notAList => .invalidInput
  | malformedStep => .invalidInput

def Fault.report : Fault → Report
  | field e => .badRequest e.message e.field
  | notFound resource => .notFound resource
  | alreadyOnChain => .conflict "Image hash already on blockchain" (some "imageHash")
  | alreadyStaged => .conflict "Image hash already submitted" (some "imageHash")
  | cycleRunning => .conflict "A batching cycle is already running" none
  | rejected v => ⟨.rejected, v.message, none, some v.rule.name⟩
  | store e => .plain e.category e.message
  | proof e => .plain e.category e.message
  | tree e => .plain .invalidInput e.message
  | consensus e => .plain e.category e.message
  | submission e => .plain .failure e.message
  | settings problems => .plain .failure (Settings.problemsMessage problems)
  | key e => .plain .keyFormat e.message
  | cacheLimits => .plain .unusable "Cache limits must be positive whole numbers"
  | noResponse => .plain .unusable "The authority call came back without a response"

end ImageLedger
