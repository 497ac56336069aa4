import ImageLedger.Node.Basic
import ImageLedger.Node.Submit
import ImageLedger.Store.Received

namespace ImageLedger

structure Receipt where
  receiptId : String
deriving DecidableEq

namespace Intake

open Fields

def readEntry (fields : Members) : Except FieldError (BatchEntry × String × String) := do
  let imageHash ← requireHash fields "imageHash"
  let timestamp ← requireInteger fields "timestamp" (.atLeast 1)
  let submitterId ← requireText fields "submitterId"
  let modificationLevel ← optionalInteger fields "modificationLevel" 0 (.between 0 2)
  let parentImageHash ← optionalHash fields "parentImageHash"
  let gpsHash ← optionalHash fields "gpsHash"
  let ownerHash ← optionalHash fields "ownerHash"
  let authorityId ← requireText fields "authorityId"
  return (⟨imageHash, timestamp, modificationLevel, parentImageHash, gpsHash, ownerHash⟩,
    submitterId, authorityId)

def draft (entry : BatchEntry) (submitterId authorityId : String) (c : Credential) : Draft :=
  ⟨entry, submitterId, authorityId, c.kind, c.columns⟩

def readToken (body : Json) : Except FieldError Draft := do
  let fields ← ofValue (some body) none
  let token ← ofValue (fields.lookup "cameraToken") (some "cameraToken")
  let (entry, submitterId, authorityId) ← readEntry fields
  let ciphertext ← requireText token "ciphertext"
  let authTag ← requireText token "authTag"
  let nonce ← requireText token "nonce"
  let tableId ← requireInteger token "tableId" (.atLeast 0)
  let keyIndex ← requireInteger token "keyIndex" (.atLeast 0)
  return draft entry submitterId authorityId
    (.cameraToken ⟨ciphertext, authTag, nonce, tableId, keyIndex⟩)

def readCertificate (body : Json) : Except FieldError Draft := do
  let fields ← ofValue (some body) none
  let bundle ← ofValue (fields.lookup "certificateBundle") (some "certificateBundle")
  let (entry, submitterId, authorityId) ← readEntry fields
  let cameraCert ← requireText bundle "cameraCert"
  let bundleSignature ← requireText bundle "bundleSignature"
  return draft entry submitterId authorityId (.certificate ⟨cameraCert, bundleSignature⟩)

def readDirect (body : Json) : Except FieldError SubmitInput := do
  let fields ← ofValue (some body) none
  let imageHash ← requireHash fields "imageHash"
  let timestamp ← requireInteger fields "timestamp" (.atLeast 1)
  let submitterId ← requireText fields "submitterId"
  let modificationLevel ← optionalInteger fields "modificationLevel" 0 (.between 0 2)
  let parentImageHash ← optionalHash fields "parentImageHash"
  let gpsHash ← optionalHash fields "gpsHash"
  let ownerHash ← optionalHash fields "ownerHash"
  return ⟨imageHash, timestamp, submitterId, some modificationLevel, parentImageHash, gpsHash,
    ownerHash⟩

end Intake

namespace Node

/-- Stages a draft under a new receipt and reads it back. It stays staged even if it cannot be
read. -/
def stage (d : Draft) : Operation Submission := do
  let receiptId ← .act fun n =>
    let receiptId := receiptId (n.receipts + 1)
    (receiptId, { n with
      receipts := n.receipts + 1
      store := n.store.stage receiptId n.seconds d })
  .look fun n =>
    match n.store.findReceipt receiptId with
    | .ok (some s) => .ok s
    | .ok none => .error (.notFound "Submission")
    | .error e => .error (.submission e)

/-- Stages a draft as it was read. The receipt of one that is refused is not given out again. -/
def stageReceived : Except StoreError Draft → Operation Submission
  | .ok d => stage d
  | .error e => .attempt fun n => (.error (.store e), { n with receipts := n.receipts + 1 })

/-- Stores a proposal as it was read. Its texts are looked at once its place in the chain is. -/
def storeReceived (j : Json) (after : Store.AfterBlock) : Operation StoredBlock :=
  storeBlock (.ofJson j) fun s block =>
    match Proposal.missingText? j with
    | some e => .error e
    | none => after s block

/-- Takes in a draft unless its hash is on the ledger or staged already. -/
def intake (d : Draft) : Operation Receipt := do
  let onChain ← .look fun n => .ok (n.store.image? d.entry.imageHash).isSome
  if onChain then throw .alreadyOnChain
  let staged ← .look fun n => .ok (n.store.isStaged d.entry.imageHash)
  if staged then throw .alreadyStaged
  let s ← stage d
  return ⟨s.row.receiptId⟩

end Node

end ImageLedger
