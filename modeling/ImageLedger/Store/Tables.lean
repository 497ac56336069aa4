import ImageLedger.Authority.Request
import ImageLedger.Chain.Commitment

namespace ImageLedger

structure StoredProof where
  txId : Nat
  imageHash : String
  leafIndex : Nat
  pathText : String
deriving DecidableEq

inductive SubmissionKind where
  | cameraToken
  | certificate
deriving DecidableEq

def SubmissionKind.name : SubmissionKind → String
  | cameraToken => "camera_token"
  | certificate => "certificate"

/-- The kind with a name; any other name means a camera token. -/
def SubmissionKind.ofName (s : String) : SubmissionKind :=
  if s = "certificate" then .certificate else .cameraToken

inductive SubmissionStatus where
  | pending
  | validated
  | rejected
deriving DecidableEq

def SubmissionStatus.name : SubmissionStatus → String
  | pending => "pending"
  | validated => "validated"
  | rejected => "rejected"

def SubmissionStatus.ofName? (s : String) : Option SubmissionStatus :=
  if s = "pending" then some .pending
  else if s = "validated" then some .validated
  else if s = "rejected" then some .rejected
  else none

/-- The columns that hold the credentials of either kind. -/
structure CredentialColumns where
  ciphertext : Option String
  authTag : Option String
  nonce : Option String
  tableId : Option Number
  keyIndex : Option Number
  cameraCert : Option String
  bundleSignature : Option String
deriving DecidableEq

def CredentialColumns.empty : CredentialColumns := ⟨none, none, none, none, none, none, none⟩

/-- The columns that a kind of submission uses, the others empty. -/
def CredentialColumns.usedBy (c : CredentialColumns) : SubmissionKind → CredentialColumns
  | .cameraToken => { c with cameraCert := none, bundleSignature := none }
  | .certificate => { CredentialColumns.empty with
      cameraCert := c.cameraCert, bundleSignature := c.bundleSignature }

structure CameraToken where
  ciphertext : String
  authTag : String
  nonce : String
  tableId : Number
  keyIndex : Number
deriving DecidableEq

/-- A device certificate with its signature over the image's fields. -/
structure CertificateBundle where
  cameraCert : String
  bundleSignature : String
deriving DecidableEq

inductive Credential where
  | cameraToken (token : CameraToken)
  | certificate (bundle : CertificateBundle)
deriving DecidableEq

namespace Credential

def kind : Credential → SubmissionKind
  | cameraToken _ => .cameraToken
  | certificate _ => .certificate

def columns : Credential → CredentialColumns
  | cameraToken t =>
    ⟨some t.ciphertext, some t.authTag, some t.nonce, some t.tableId, some t.keyIndex, none, none⟩
  | certificate b => ⟨none, none, none, none, none, some b.cameraCert, some b.bundleSignature⟩

end Credential

/-- A submission before it is staged. -/
structure Draft where
  entry : BatchEntry
  submitterId : String
  authorityId : String
  kind : SubmissionKind
  credentials : CredentialColumns
deriving DecidableEq

/-- A staged submission as stored. -/
structure SubmissionRow where
  id : Nat
  receiptId : String
  kind : SubmissionKind
  entry : BatchEntry
  submitterId : String
  authorityId : String
  credentials : CredentialColumns
  status : SubmissionStatus
  message : Option String
  retryCount : Nat
  nextRetryAt : Option Number
  batched : Bool
  txId : Option Nat
  createdAt : Number
deriving DecidableEq

/-- A stored submission that lacks the credentials of its kind. -/
inductive SubmissionError where
  | noCertificate (receiptId : String)
  | noToken (receiptId : String)
deriving DecidableEq

def SubmissionError.message : SubmissionError → String
  | noCertificate receiptId =>
    "Certificate submission " ++ receiptId ++ " has no certificate bundle"
  | noToken receiptId => "Token submission " ++ receiptId ++ " has no camera token"

/-- A submission that was read back, with its credentials. -/
structure Submission where
  row : SubmissionRow
  credential : Credential
deriving DecidableEq

def SubmissionRow.read (row : SubmissionRow) : Except SubmissionError Submission :=
  let c := row.credentials
  match row.kind with
  | .certificate =>
    match c.cameraCert, c.bundleSignature with
    | some cert, some signature => .ok ⟨row, .certificate ⟨cert, signature⟩⟩
    | _, _ => .error (.noCertificate row.receiptId)
  | .cameraToken =>
    match c.ciphertext, c.authTag, c.nonce, c.tableId, c.keyIndex with
    | some ciphertext, some authTag, some nonce, some tableId, some keyIndex =>
      .ok ⟨row, .cameraToken ⟨ciphertext, authTag, nonce, tableId, keyIndex⟩⟩
    | _, _, _, _, _ => .error (.noToken row.receiptId)

inductive StoreError where
  | malformedHash (hash : String)
  | hashesDisagree
  | conflict (expected proposed : Number)
  | tree (error : Merkle.BuildError)
  | missing (table column : String)
  | repeated (table column : String)
  | unknownStatus
  | hook (message : String)
deriving DecidableEq

def StoreError.message : StoreError → String
  | malformedHash hash => "Malformed image hash: " ++ hash
  | hashesDisagree => "Proposal transaction hashes do not match its transactions"
  | conflict expected proposed =>
    "Block " ++ proposed.toText ++ " does not extend the chain tip (expected height " ++
      expected.toText ++ ")"
  | tree error => error.message
  | missing table column => "NOT NULL constraint failed: " ++ table ++ "." ++ column
  | repeated table column => "UNIQUE constraint failed: " ++ table ++ "." ++ column
  | unknownStatus => "CHECK constraint failed: validation_status"
  | hook message => message

/-- All tables of a node. Rows stand in the order of their insertion. -/
structure Store where
  blocks : List Block
  transactions : List LedgerTransaction
  images : List ImageRecord
  proofs : List StoredProof
  state : Option NodeState
  submissions : List SubmissionRow
deriving DecidableEq

namespace Store

def empty : Store := ⟨[], [], [], [], none, []⟩

end Store

end ImageLedger
