import ImageLedger.Settings
import ImageLedger.Store.Append

namespace ImageLedger

structure AttemptUpdate where
  status : SubmissionStatus
  message : Option String
  retryCount : Nat
  nextRetryAt : Option Number
deriving DecidableEq

/-- How many submissions stand where. -/
structure StatusCounts where
  pending : Nat
  validated : Nat
  rejected : Nat
deriving DecidableEq

namespace Store

/-- Stages a draft, due at once. -/
def stage (s : Store) (receiptId : String) (now : Number) (d : Draft) : Store :=
  let row : SubmissionRow := {
    id := s.submissions.length + 1
    receiptId
    kind := d.kind
    entry := d.entry
    submitterId := d.submitterId
    authorityId := d.authorityId
    credentials := d.credentials
    status := .pending
    message := none
    retryCount := 0
    nextRetryAt := some now
    batched := false
    txId := none
    createdAt := now }
  { s with submissions := s.submissions ++ [row] }

def findReceipt (s : Store) (receiptId : String) : Except SubmissionError (Option Submission) :=
  match s.submissions.find? (·.receiptId = receiptId) with
  | some row => row.read.map some
  | none => .ok none

/-- Whether a submission of the hash, in just this spelling, is staged and not rejected. -/
def isStaged (s : Store) (imageHash : String) : Bool :=
  s.submissions.any fun row => row.entry.imageHash = imageHash && row.status ≠ .rejected

/-- The first rows up to a limit. The whole number at the front of the limit's text counts; without
one, or with a negative one, there is no limit. -/
def limited (limit : Number) (rows : List α) : List α :=
  match (Settings.leadingInteger? limit.toText).bind Number.toInt? with
  | some n => if n < 0 then rows else rows.take n.toNat
  | none => rows

def isDue (maxAttempts now : Number) (row : SubmissionRow) : Bool :=
  row.status = .pending && Number.lt (Number.ofNat row.retryCount) maxAttempts &&
    match row.nextRetryAt with
    | none => true
    | some due => Number.le due now

/-- The oldest rows that are due. -/
def dueRows (s : Store) (maxAttempts limit now : Number) : List SubmissionRow :=
  limited limit (s.submissions.filter (isDue maxAttempts now))

/-- The oldest submissions that are due; one that cannot be read back spoils the list. -/
def findDue (s : Store) (maxAttempts limit now : Number) :
    Except SubmissionError (List Submission) :=
  (s.dueRows maxAttempts limit now).mapM SubmissionRow.read

def isReady (row : SubmissionRow) : Bool := row.status = .validated && !row.batched

/-- The oldest submissions that are validated and in no block yet. -/
def findReady (s : Store) (limit : Number) : Except SubmissionError (List Submission) :=
  (limited limit (s.submissions.filter isReady)).mapM SubmissionRow.read

def updateRow (s : Store) (id : Nat) (change : SubmissionRow → SubmissionRow) : Store :=
  { s with submissions := s.submissions.map fun row => if row.id = id then change row else row }

def recordAttempt (s : Store) (id : Nat) (u : AttemptUpdate) : Store :=
  s.updateRow id fun row => { row with
    status := u.status
    message := u.message
    retryCount := u.retryCount
    nextRetryAt := u.nextRetryAt }

/-- Records an attempt under the name of a status; a row refuses a name that is none. -/
def recordNamed (s : Store) (id : Nat) (status : String) (message : Option String)
    (retryCount : Nat) (nextRetryAt : Option Number) : Except StoreError Store :=
  match SubmissionStatus.ofName? status with
  | some status => .ok (s.recordAttempt id ⟨status, message, retryCount, nextRetryAt⟩)
  | none => if s.submissions.any (·.id = id) then .error .unknownStatus else .ok s

def markRejected (s : Store) (id : Nat) (message : String) : Store :=
  s.updateRow id fun row => { row with status := .rejected, message := some message }

/-- Marks submissions as part of a transaction; without one only as batched. -/
def markBatched (s : Store) (ids : List Nat) (txId : Option Nat) : Store :=
  { s with submissions := s.submissions.map fun row =>
      if row.id ∈ ids then { row with batched := true, txId := txId.or row.txId } else row }

/-- How many submissions are neither in a block nor rejected. -/
def countAwaiting (s : Store) : Nat :=
  s.submissions.countP fun row => !row.batched && row.status ≠ .rejected

def statusCounts (s : Store) : StatusCounts :=
  let count (status : SubmissionStatus) := s.submissions.countP (·.status = status)
  ⟨count .pending, count .validated, count .rejected⟩

end Store

end ImageLedger
