import ImageLedger.Node.Basic

namespace ImageLedger

/-- How many submissions of a cycle ended how. -/
structure ValidationCounts where
  processed : Nat
  validated : Nat
  rejected : Nat
  retrying : Nat
  failed : Nat
deriving DecidableEq

inductive AttemptOutcome where
  | validated
  | rejected
  | retrying
  | failed
deriving DecidableEq

namespace Validation

/-- The wait after a failed attempt: the power of two of its number up to three, half an hour from
then on. -/
def retryDelay (attempt : Number) : Number :=
  if Number.le attempt 3 then attempt.exp2 else 1800

/-- How many submissions a cycle takes on. -/
def defaultLimit : Number := 100

def requestOf (s : Submission) : Authority.Request :=
  match s.credential with
  | .cameraToken t =>
    .token ⟨t.ciphertext, t.authTag, t.nonce, t.tableId, t.keyIndex, s.row.authorityId⟩
  | .certificate b =>
    .certificate ⟨b.cameraCert, b.bundleSignature, s.row.entry.imageHash, s.row.entry.timestamp,
      some s.row.entry.gpsHash, s.row.authorityId⟩

/-- What a verdict on a submission leads to. -/
def update (maxAttempts now : Number) (s : Submission) (v : Authority.Verdict) :
    AttemptOutcome × AttemptUpdate :=
  let attempt := s.row.retryCount + 1
  if v.valid then (.validated, ⟨.validated, some v.message, attempt, none⟩)
  else if !v.retryable then (.rejected, ⟨.rejected, some v.message, attempt, none⟩)
  else if Number.le maxAttempts (Number.ofNat attempt) then
    (.rejected, ⟨.rejected,
      some (s!"Authority unreachable after {attempt} attempts: " ++ v.message), attempt, none⟩)
  else
    (.retrying, ⟨.pending, some v.message, attempt,
      some (Number.add now (retryDelay (Number.ofNat attempt)))⟩)

def none : ValidationCounts := ⟨0, 0, 0, 0, 0⟩

def count (c : ValidationCounts) : AttemptOutcome → ValidationCounts
  | .validated => { c with processed := c.processed + 1, validated := c.validated + 1 }
  | .rejected => { c with processed := c.processed + 1, rejected := c.rejected + 1 }
  | .retrying => { c with processed := c.processed + 1, retrying := c.retrying + 1 }
  | .failed => { c with processed := c.processed + 1, failed := c.failed + 1 }

end Validation

namespace Node

/-- A kept verdict on a question, if there is one. -/
def remembered (r : Authority.Request) : Operation (Option Authority.Verdict) :=
  .act fun n =>
    let (v, cache) := Authority.remembered n.cache n.clock r
    (v, { n with cache })

/-- The verdict on a question, with the call to the authority if it took one. -/
def consult (reply : Authority.Reply) (r : Authority.Request) :
    Operation (Option Authority.Verdict × Option Authority.Call) := do
  match ← remembered r with
  | some v => return (some v, none)
  | none =>
    .act fun n =>
      let call := n.endpoints.callOf r
      match Authority.verdictOf r.subject reply with
      | some v => ((some v, some call), { n with cache := Authority.keep n.cache n.clock r v })
      | none => ((none, some call), n)

def attempt (now : Number) (reply : Authority.Reply) (s : Submission) :
    Operation (AttemptOutcome × Option Authority.Call) := do
  match ← consult reply (Validation.requestOf s) with
  | (none, call) => return (.failed, call)
  | (some v, call) =>
    .act fun n =>
      let (outcome, u) := Validation.update n.settings.validationMaxAttempts now s v
      ((outcome, call), { n with store := n.store.recordAttempt s.row.id u })

/-- Attempts on submissions in their order. Replies are taken in turn, one for each call. -/
def attemptAll (now : Number) (replies : Nat → Authority.Reply) :
    List Submission → ValidationCounts → List Authority.Call →
      Operation (ValidationCounts × List Authority.Call)
  | [], counts, calls => return (counts, calls)
  | s :: rest, counts, calls => do
    let (outcome, call) ← attempt now (replies calls.length) s
    attemptAll now replies rest (Validation.count counts outcome) (calls ++ call.toList)

def validationCycle (replies : Nat → Authority.Reply) (now limit : Option Number) :
    Operation (ValidationCounts × List Authority.Call) := do
  let current ← .look fun n => .ok n.seconds
  let now := now.getD current
  let due ← .look fun n =>
    (n.store.findDue n.settings.validationMaxAttempts (limit.getD Validation.defaultLimit)
      now).mapError Fault.submission
  attemptAll now replies due Validation.none []

end Node

end ImageLedger
