import ImageLedger.Store.Tables

namespace ImageLedger

inductive CredentialColumn where
  | ciphertext
  | authTag
  | nonce
  | tableId
  | keyIndex
  | cameraCert
  | bundleSignature
deriving DecidableEq

def CredentialColumns.without (c : CredentialColumns) : CredentialColumn → CredentialColumns
  | .ciphertext => { c with ciphertext := none }
  | .authTag => { c with authTag := none }
  | .nonce => { c with nonce := none }
  | .tableId => { c with tableId := none }
  | .keyIndex => { c with keyIndex := none }
  | .cameraCert => { c with cameraCert := none }
  | .bundleSignature => { c with bundleSignature := none }

namespace Store

/-- Overwrites rows without any of the usual checks, as damage to a database does. -/
def overwrite (rows : List α) (chosen : α → Bool) (change : α → α) : Nat × List α :=
  (rows.countP chosen, rows.map fun row => if chosen row then change row else row)

def tamperPath (s : Store) (imageHash text : String) : Nat × Store :=
  let (n, rows) := overwrite s.proofs (·.imageHash = imageHash) fun row =>
    { row with pathText := text }
  (n, { s with proofs := rows })

def tamperRoot (s : Store) (txId : Number) (root : Option String) : Nat × Store :=
  let (n, rows) := overwrite s.transactions (fun row => Number.ofNat row.txId = txId) fun row =>
    { row with merkleRoot := root }
  (n, { s with transactions := rows })

def tamperCredentials (s : Store) (id : Number) (emptied : List CredentialColumn) : Nat × Store :=
  let (n, rows) := overwrite s.submissions (fun row => Number.ofNat row.id = id) fun row =>
    { row with credentials := emptied.foldl CredentialColumns.without row.credentials }
  (n, { s with submissions := rows })

end Store

end ImageLedger
