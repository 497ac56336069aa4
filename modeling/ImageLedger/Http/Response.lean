import ImageLedger.Fault
import ImageLedger.Http.Body
import ImageLedger.Node.Batching
import ImageLedger.Node.Intake
import ImageLedger.Node.Lookup

namespace ImageLedger.Http

structure Response where
  status : Nat
  /-- Nothing for an empty body. -/
  body : Option Json
  correlationId : Option String

namespace Response

def ofJson (status : Nat) (body : Json) : Response := ⟨status, some body, none⟩

def errorBody (message : String) (field rule : Option String) : Json :=
  .object [("error", .object <|
    [("message", .text message)] ++ (field.toList.map fun f => ("field", Json.text f)) ++
      (rule.toList.map fun r => ("rule", Json.text r)))]

def isDuplicate (rule : Option String) : Bool :=
  rule = some Rule.duplicateInTransaction.name || rule = some Rule.duplicateOnChain.name

/-- The answer to a report. Trouble that is not the caller's has status 500, and in production its
message is kept back. -/
def ofReport (production : Bool) (r : Report) : Response :=
  match r.category with
  | .request status => ofJson status (errorBody r.message r.field r.rule)
  | .rejected => ofJson (if isDuplicate r.rule then 409 else 400) (errorBody r.message none r.rule)
  | .invalidInput => ofJson 400 (errorBody r.message none none)
  | .chainConflict _ _ => ofJson 409 (errorBody r.message none none)
  | .consensus => ofJson 503 (errorBody r.message none none)
  | .malformedJson (some 400) => ofJson 400 (errorBody "Malformed JSON body" none none)
  | .bareText =>
    let message := if production then Report.internalMessage else "Unknown error"
    ofJson 500 (errorBody message none none)
  | _ =>
    ofJson 500 (errorBody (if production then Report.internalMessage else r.message) none none)

end Response

def BodyError.report : BodyError → Report
  | malformed => .plain (.malformedJson (some 400)) "Malformed JSON body"
  | tooLarge => .plain .failure "request entity too large"
  | unsupportedCharset name => .plain .failure ("unsupported charset \"" ++ name ++ "\"")

def optionalText : Option String → Json := Json.ofOption .text

def optionalNumber : Option Number → Json := Json.ofOption .number

def optionalNat : Option Nat → Json := Json.ofOption Json.ofNat

def blockFields (b : Block) : List (String × Json) := [
  ("height", .ofNat b.height),
  ("blockHash", .text b.blockHash),
  ("previousHash", .text b.previousHash),
  ("timestamp", .number b.timestamp),
  ("validatorId", .text b.validatorId),
  ("transactionCount", .ofNat b.transactionCount),
  ("signature", .text b.signature)]

def blockJson (b : Block) : Json := .object (blockFields b)

def transactionJson (tx : LedgerTransaction) : Json := .object [
  ("txId", .ofNat tx.txId),
  ("txHash", .text tx.txHash),
  ("blockHeight", .ofNat tx.blockHeight),
  ("submitterId", .text tx.submitterId),
  ("batchSize", .ofNat tx.batchSize),
  ("signature", .text tx.signature),
  ("merkleRoot", optionalText tx.merkleRoot),
  ("treeDepth", optionalNat tx.treeDepth)]

def detailsJson (d : BlockDetails) : Json :=
  .object (blockFields d.block ++ [("transactions", .list (d.transactions.map transactionJson))])

def verificationJson (v : Verification) : Json :=
  match v.record with
  | none => .object [("verified", .bool false), ("imageHash", .text v.imageHash)]
  | some r => .object [
      ("verified", .bool true),
      ("imageHash", .text r.imageHash),
      ("timestamp", .number r.timestamp),
      ("blockHeight", .ofNat r.blockHeight),
      ("txId", .ofNat r.txId),
      ("submitterId", .text r.submitterId),
      ("modificationLevel", .number r.modificationLevel),
      ("parentImageHash", optionalText r.parentImageHash),
      ("gpsHash", optionalText r.gpsHash)]

def stepJson (step : Merkle.Step) : Json :=
  .object [("siblingHash", .text step.sibling), ("position", .text step.side.toText)]

def proofFields (p : ProofWithRoot) : List (String × Json) := [
  ("txId", .ofNat p.txId),
  ("imageHash", .text p.imageHash),
  ("leafIndex", .ofNat p.leafIndex),
  ("path", .list (p.path.map stepJson)),
  ("merkleRoot", .text p.merkleRoot),
  ("blockHeight", .ofNat p.blockHeight)]

def lookupJson (l : ProofLookup) : Json :=
  .object (proofFields l.proof ++ [("valid", .bool l.valid)])

def linkJson (l : ProvenanceLink) : Json := .object [
  ("imageHash", .text l.imageHash),
  ("modificationLevel", .number l.modificationLevel),
  ("timestamp", .number l.timestamp),
  ("blockHeight", .ofNat l.blockHeight),
  ("txId", .ofNat l.txId),
  ("parentImageHash", optionalText l.parentImageHash)]

def statusFields (s : NodeStatus) : List (String × Json) := [
  ("nodeId", .text s.nodeId),
  ("blockHeight", .number s.blockHeight),
  ("totalHashes", .ofNat s.totalHashes),
  ("lastBlockTime", optionalNumber s.lastBlockTime),
  ("genesisHash", optionalText s.genesisHash),
  ("status", .text (if s.operational then "operational" else "uninitialized")),
  ("consensusMode", .text s.consensusMode.name),
  ("validatorNodes", .list (s.validatorNodes.map .text)),
  ("pendingSubmissions", .ofNat s.pendingSubmissions)]

def cycleJson (r : CycleResult) : Json := .object <|
  [("status", .text r.status.name), ("count", .ofNat r.count)] ++
    (r.blockHeight.toList.map fun h => ("blockHeight", Json.ofNat h)) ++
    (r.txId.toList.map fun id => ("txId", Json.ofNat id)) ++
    (r.reason.toList.map fun reason => ("reason", Json.text reason))

def statisticsJson (s : Authority.CacheStatistics) : Json := .object [
  ("size", .ofNat s.size),
  ("maxSize", .number s.maxSize),
  ("hits", .ofNat s.hits),
  ("misses", .ofNat s.misses),
  ("hitRate", .text s.hitRate),
  ("ttlSeconds", .number s.ttlSeconds)]

def receiptJson (r : Receipt) : Json := .object [
  ("receiptId", .text r.receiptId),
  ("status", .text "pending_validation"),
  ("message", .text "Submission received and queued for validation")]

/-- Where a staged submission stands; what does not apply is left out. -/
def progressJson (s : Submission) : Json := .object <|
  [("receiptId", .text s.row.receiptId),
    ("kind", .text s.row.kind.name),
    ("imageHash", .text s.row.entry.imageHash),
    ("validationStatus", .text s.row.status.name)] ++
    ((s.row.message.filter (· ≠ "")).toList.map fun m => ("validationMessage", Json.text m)) ++
    [("retryCount", .ofNat s.row.retryCount), ("batched", .bool s.row.batched)] ++
    (s.row.txId.toList.map fun id => ("txId", Json.ofNat id))

/-- The result of a direct submission; a number that is missing is left out. -/
def submitFields (r : SubmitResult) : List (String × Json) :=
  (r.txId.toList.map fun id => ("txId", Json.ofNat id)) ++ [("blockHeight", .ofNat r.blockHeight)]

end ImageLedger.Http
