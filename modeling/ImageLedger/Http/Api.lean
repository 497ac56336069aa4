import ImageLedger.Http.Response
import ImageLedger.Http.Route
import ImageLedger.Http.Time

namespace ImageLedger.Http

/-- What surrounds a request: how long the node has been up, and its peers. -/
structure Surroundings where
  uptime : Number
  network : Consensus.Network

def answering (status : Nat) (encode : α → Json) (op : Operation α) : Operation Response := do
  return .ofJson status (encode (← op))

def ofField (r : Except FieldError α) : Operation α := .look fun _ => r.mapError Fault.field

/-- The value that is looked up, or the fault that it is not found. -/
def found (resource : String) (value : Option α) : Operation α :=
  match value with
  | some a => pure a
  | none => throw (.notFound resource)

def pathHash (raw : String) : Operation String :=
  match HashText.normalize? raw with
  | some hash => pure hash
  | none => throw (.field .malformedImageHash)

def answerBlock (resource : String) (lookup : Store → Option Block) : Operation Response :=
  answering 200 detailsJson do
    let details ← .look fun n => .ok ((lookup n.store).map n.store.details)
    found resource details

def health (s : Surroundings) (n : Node) : Json := .object [
  ("status", .text "healthy"),
  ("timestamp", .text (isoText n.clock)),
  ("uptime", .number s.uptime),
  ("environment", .text n.settings.stage.name)]

def version (n : Node) : Json := .object [
  ("version", .text "1.0.0"),
  ("api", .text "Provenance Ledger Node API"),
  ("nodeId", .text n.settings.nodeId)]

def answer (s : Surroundings) (body : Json) : Route → Operation Response
  | .health => .look fun n => .ok (.ofJson 200 (health s n))
  | .version => .look fun n => .ok (.ofJson 200 (version n))
  | .createSubmission =>
    answering 202 receiptJson do
      Node.intake (← ofField (Intake.readToken body))
  | .createCertificateSubmission =>
    answering 202 receiptJson do
      Node.intake (← ofField (Intake.readCertificate body))
  | .submission receiptId =>
    answering 200 progressJson do
      let s ← .look fun n => (n.store.findReceipt receiptId).mapError Fault.submission
      found "Submission" s
  | .submitDirect => do
    let input ← ofField (Intake.readDirect body)
    let result ← Node.submit s.network input
    return .ofJson 201 (.object (("imageHash", .text input.imageHash) :: submitFields result))
  | .verify raw =>
    answering 200 verificationJson do
      let hash ← pathHash raw
      .look fun n => .ok (n.store.verify hash)
  | .proof raw =>
    answering 200 lookupJson do
      let hash ← pathHash raw
      let proof ← .look fun n => (n.store.lookupProof hash).mapError Fault.proof
      found "Merkle proof for this image hash" proof
  | .provenance raw => do
    let hash ← pathHash raw
    let links ← .look fun n => .ok (n.store.provenance hash Store.defaultDepth)
    if links.isEmpty then throw (.notFound "Image hash")
    return .ofJson 200 (.object
      [("imageHash", .text hash), ("chain", .list (links.map linkJson))])
  | .latestBlock => answerBlock "Block" Store.latestBlock
  | .blockByHash raw =>
    if HashText.wellFormed raw then answerBlock "Block" (·.blockByHash raw)
    else throw (.field .malformedBlockHash)
  | .blockByHeight raw => do
    let height ← ofField (Fields.parseHeight (some raw) "height")
    answerBlock ("Block " ++ height.toText) (·.blockByHeight height)
  | .status =>
    .look fun n => .ok (.ofJson 200 (.object (statusFields n.status ++
      [("uptimeSeconds", .number s.uptime.floor)])))
  | .cacheStatistics => .look fun n => .ok (.ofJson 200 (statisticsJson n.cache.statistics))
  | .cacheCleanup =>
    .act fun n =>
      let (removed, cache) := n.cache.cleanup n.clock
      (.ofJson 200 (.object [("removed", .ofNat removed), ("size", .ofNat cache.size)]),
        { n with cache })
  | .runBatching => do
    match ← Node.triggerBatching s.network with
    | some result => return .ofJson 200 (cycleJson result)
    | none => throw .cycleRunning

/-- The answer to an operation that may have failed. -/
def respond (production : Bool) : Except Fault Response → Response
  | .ok response => response
  | .error fault => .ofReport production fault.report

def dispatch (s : Surroundings) (r : Request) (body : Json) : Operation Response := do
  let (password, production) ← .look fun n =>
    .ok (n.settings.adminPassword, decide (n.settings.stage = .production))
  match resolve password r with
  | .route route =>
    let result ← .outcome (answer s body route)
    return respond production result
  | .undecodable raw =>
    return .ofReport production
      (.plain .failure ("Failed to decode param '" ++ raw ++ "'"))
  | .unauthorized => return .ofJson 401 (Response.errorBody "Admin access required" none none)
  | .unknown =>
    return .ofJson 404 (Response.errorBody ("Cannot " ++ r.method ++ " " ++ r.path) none none)

/-- The answer to a request, whose body is read before anything is looked for. The correlation id of
a request comes back with its answer, unless the answer is given before it is looked at. -/
def handle (s : Surroundings) (r : Request) : Operation Response := do
  if r.method = "OPTIONS" then return ⟨204, none, none⟩
  let production ← .look fun n => .ok (decide (n.settings.stage = .production))
  let response ← match readBody r with
    | .error e => pure (Response.ofReport production e.report)
    | .ok body => do
      let response ← dispatch s r body
      pure { response with correlationId := r.header? "x-correlation-id" }
  return if r.method = "HEAD" then { response with body := none } else response

end ImageLedger.Http
