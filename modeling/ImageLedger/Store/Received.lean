import ImageLedger.Chain.Exchange
import ImageLedger.Store.Tables

namespace ImageLedger

open Exchange

/-- The value of a column that must not be empty. -/
def requireColumn (column : String) : Option α → Except StoreError α
  | some value => .ok value
  | none => .error (.missing "pending_submissions" column)

def CredentialColumns.ofJson (j : Json) : CredentialColumns where
  ciphertext := text? j "ciphertext"
  authTag := text? j "authTag"
  nonce := text? j "nonce"
  tableId := number? j "tableId"
  keyIndex := number? j "keyIndex"
  cameraCert := text? j "cameraCert"
  bundleSignature := text? j "bundleSignature"

/-- The draft that an object describes. Columns of another kind's credentials are left out. -/
def Draft.ofJson (j : Json) : Except StoreError Draft := do
  let kind := SubmissionKind.ofName (textOf j "kind")
  let imageHash ← requireColumn "image_hash" (text? j "imageHash")
  let timestamp ← requireColumn "timestamp" (number? j "timestamp")
  let modificationLevel ← requireColumn "modification_level" (number? j "modificationLevel")
  let submitterId ← requireColumn "submitter_id" (text? j "submitterId")
  let authorityId ← requireColumn "authority_id" (text? j "authorityId")
  let entry : BatchEntry := {
    imageHash, timestamp, modificationLevel
    parentImageHash := text? j "parentImageHash"
    gpsHash := text? j "gpsHash"
    ownerHash := text? j "ownerHash" }
  return ⟨entry, submitterId, authorityId, kind, (CredentialColumns.ofJson j).usedBy kind⟩

/-- The first of some fields that holds no text, as the column it would fill. -/
def missingText? (table : String) (columns : List (String × String)) (j : Json) :
    Option StoreError :=
  columns.findSome? fun (name, column) =>
    if (text? j name).isSome then none else some (.missing table column)

/-- The first text that the rows of a proposal lack: those of the block, and then those of its
transactions. -/
def Proposal.missingText? (j : Json) : Option StoreError :=
  (ImageLedger.missingText? "blocks"
    [("validatorId", "validator_id"), ("signature", "signature")] j).or <|
    (cells j "transactions").findSome? <| ImageLedger.missingText? "transactions"
      [("submitterId", "submitter_id"), ("signature", "signature")]

end ImageLedger
