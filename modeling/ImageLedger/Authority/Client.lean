import ImageLedger.Authority.Cache
import ImageLedger.Authority.Request
import ImageLedger.Json.Reader

namespace ImageLedger.Authority

/-- What an authority, or the way to it, answers to one call. -/
inductive Reply where
  | response (status : Nat) (body : Option String)
  | timedOut
  | failed (message : String)
  /-- The call came back without a response. -/
  | nothing

/-- What a question comes to. Trouble on the way is a negative verdict, marked when a later attempt
may fare better. -/
structure Verdict where
  valid : Bool
  message : String
  retryable : Bool
deriving DecidableEq

structure Call where
  url : String
  body : Json

structure Endpoints where
  token : String
  certificate : String

def Endpoints.urlOf (e : Endpoints) : Request → String
  | .token _ => e.token
  | .certificate _ => e.certificate

def Endpoints.callOf (e : Endpoints) (r : Request) : Call := ⟨e.urlOf r, r.body⟩

/-- The text of a body without a byte order mark in front. -/
def bodyText (s : String) : String :=
  match s.toList with
  | '\uFEFF' :: rest => String.ofList rest
  | _ => s

def malformed : Verdict := ⟨false, "Malformed authority response", false⟩

def verdictOfJson (subject : String) (data : Json) : Verdict :=
  match data.field? "valid" with
  | some (.bool valid) =>
    let message := match data.field? "message" with
      | some (.text s) => s
      | _ => subject ++ if valid then " validated" else " rejected"
    ⟨valid, message, false⟩
  | _ => malformed

/-- The verdict on a reply; `none` when there is no response to judge by. -/
def verdictOf (subject : String) : Reply → Option Verdict
  | .timedOut => some ⟨false, "Authority validation timeout", true⟩
  | .failed message => some ⟨false, "Authority connection error: " ++ message, true⟩
  | .nothing => none
  | .response status body =>
    if 200 ≤ status ∧ status < 300 then
      match body.bind fun s => Json.parse? (bodyText s) with
      | some data => some (verdictOfJson subject data)
      | none => some malformed
    else some ⟨false, s!"Authority HTTP error: {status}", 500 ≤ status⟩

/-- The kept verdict on a question, if there is one. -/
def remembered (c : Cache) (now : Int) (r : Request) : Option Verdict × Cache :=
  match c.lookup now r.key with
  | (some e, c) => (some ⟨e.valid, e.message, false⟩, c)
  | (none, c) => (none, c)

/-- Keeps a verdict unless a later attempt may change it. -/
def keep (c : Cache) (now : Int) (r : Request) (v : Verdict) : Cache :=
  if v.retryable then c else c.put now r.key v.valid v.message

/-- What came of a question: the verdict if there is one, the cache afterwards, and the call if
one was made. -/
structure Outcome where
  verdict : Option Verdict
  cache : Cache
  call : Option Call

/-- Asks a question, first of the cache and then of the authority, whose reply would be the given
one. -/
def ask (endpoints : Endpoints) (cache : Cache) (now : Int) (reply : Reply) (r : Request) :
    Outcome :=
  match remembered cache now r with
  | (some v, cache) => ⟨some v, cache, none⟩
  | (none, cache) =>
    match verdictOf r.subject reply with
    | some v => ⟨some v, keep cache now r v, some (endpoints.callOf r)⟩
    | none => ⟨none, cache, some (endpoints.callOf r)⟩

end ImageLedger.Authority
