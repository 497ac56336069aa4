import ImageLedger.Http.Request

namespace ImageLedger.Http

inductive Route where
  | health
  | version
  | createSubmission
  | createCertificateSubmission
  | submission (receiptId : String)
  | submitDirect
  | verify (imageHash : String)
  | proof (imageHash : String)
  | provenance (imageHash : String)
  | latestBlock
  | blockByHash (blockHash : String)
  | blockByHeight (height : String)
  | status
  | cacheStatistics
  | cacheCleanup
  | runBatching
deriving DecidableEq

inductive Resolution where
  | route (route : Route)
  | undecodable (raw : String)
  | unauthorized
  | unknown
deriving DecidableEq

/-- A route that answers one method only. -/
def only (wanted method : String) (route : Route) : Resolution :=
  if method = wanted then .route route else .unknown

/-- A route with a parameter, which must not be empty and must be decodable for any method. -/
def withParameter (method raw : String) (route : String → Route) : Resolution :=
  if raw = "" then .unknown
  else match percentDecode? raw with
    | none => .undecodable raw
    | some value => only "GET" method (route value)

/-- The pieces of the path below the interface's version. One more slash after it is let pass. -/
def belowVersion : List String → Option (List String)
  | api :: version :: rest =>
    if lower api = "api" ∧ lower version = "v1" then
      match rest with
      | "" :: first :: more => some (first :: more)
      | rest => some rest
    else none
  | _ => none

def isAdmin (password : String) (r : Request) : Bool :=
  match (r.header? "authorization").bind credentials? with
  | some (user, given) => user = "admin" && given = password
  | none => false

def resolveAdmin (method : String) (below : List String) : Resolution :=
  match below.map lower with
  | ["cache", "stats"] => only "GET" method .cacheStatistics
  | ["cache", "cleanup"] => only "POST" method .cacheCleanup
  | ["batching", "run"] => only "POST" method .runBatching
  | _ => .unknown

def resolveVersioned (password : String) (r : Request) (method : String) (pieces : List String) :
    Resolution :=
  match pieces with
  | [] => .unknown
  | first :: rest =>
    match lower first, rest with
    | "submissions", [] => only "POST" method .createSubmission
    | "submissions", [id] =>
      if lower id = "certificate" ∧ method = "POST" then .route .createCertificateSubmission
      else withParameter method id .submission
    | "blockchain", [action] =>
      if lower action = "submit" then only "POST" method .submitDirect else .unknown
    | "verify", [hash] => withParameter method hash .verify
    | "verify", [hash, what] =>
      if lower what = "proof" then withParameter method hash .proof
      else if lower what = "provenance" then withParameter method hash .provenance
      else .unknown
    | "blocks", [height] =>
      if lower height = "latest" ∧ method = "GET" then .route .latestBlock
      else withParameter method height .blockByHeight
    | "blocks", [what, hash] =>
      if lower what = "hash" then withParameter method hash .blockByHash else .unknown
    | "status", [] => only "GET" method .status
    | "admin", below => if isAdmin password r then resolveAdmin method below else .unauthorized
    | _, _ => .unknown

/-- What a request asks for. A request for the head of an answer is one for the answer. Below
`admin` the password is asked for first, whatever is wanted there. -/
def resolve (password : String) (r : Request) : Resolution :=
  let method := if r.method = "HEAD" then "GET" else r.method
  let pieces := r.segments
  match pieces.map lower with
  | ["health"] => only "GET" method .health
  | ["api", "version"] => only "GET" method .version
  | _ =>
    match belowVersion pieces with
    | some below => resolveVersioned password r method below
    | none => .unknown

end ImageLedger.Http
