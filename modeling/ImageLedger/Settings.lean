import ImageLedger.Number.Decimal
import ImageLedger.Text.Blank
import ImageLedger.Text.Order

namespace ImageLedger

inductive Stage where
  | development
  | production
  | test
deriving DecidableEq

/-- How blocks are agreed on: by one node alone, or by votes of known validators. -/
inductive ConsensusMode where
  | single
  | poa
deriving DecidableEq

def Stage.name : Stage → String
  | development => "development"
  | production => "production"
  | test => "test"

def ConsensusMode.name : ConsensusMode → String
  | single => "single"
  | poa => "poa"

structure Settings where
  listenPort : Number
  stage : Stage
  corsOrigin : String
  databaseUrl : String
  logLevel : String
  serviceName : String
  adminPassword : String
  nodeId : String
  validatorKeyPath : String
  genesisTimestamp : Option Number
  consensusMode : ConsensusMode
  validatorNodes : List String
  poaRoundTimeoutMs : Number
  authorizedSubmitters : Option (List String)
  batchSizeMin : Number
  batchSizeMax : Number
  batchIntervalSeconds : Number
  authorityValidationUrl : String
  authorityCertificateUrl : String
  authorityRequestTimeoutMs : Number
  validationIntervalSeconds : Number
  validationMaxAttempts : Number
  validationCacheMaxSize : Number
  validationCacheTtlSeconds : Number
  embeddedWorkers : Bool
deriving DecidableEq

namespace Settings

inductive Problem where
  | missing (key : String)
  | notANumber (key value : String)
  | belowMinimum (key : String) (least found : Number)
  | notABoolean (key value : String)
  | unknownStage (value : String)
  | unknownMode (value : String)
  | noValidators
  | crossedSizes (least most : Number)
deriving DecidableEq

def Problem.message : Problem → String
  | missing key => "Missing required environment variable: " ++ key
  | notANumber key value => "Invalid number for " ++ key ++ ": " ++ value
  | belowMinimum key least found =>
    key ++ " must be at least " ++ least.toText ++ ", got " ++ found.toText
  | notABoolean key value => "Invalid boolean for " ++ key ++ ": " ++ value
  | unknownStage value =>
    "Invalid NODE_ENV: " ++ value ++ ". Must be development, production, or test"
  | unknownMode value => "Invalid CONSENSUS_MODE: " ++ value ++ ". Must be single or poa"
  | noValidators => "VALIDATOR_NODES is required when CONSENSUS_MODE=poa"
  | crossedSizes least most =>
    "BATCH_SIZE_MIN (" ++ least.toText ++ ") must not exceed BATCH_SIZE_MAX (" ++ most.toText ++ ")"

def problemsMessage (problems : List Problem) : String :=
  "Configuration validation failed:\n" ++ Text.join "\n" (problems.map Problem.message)

abbrev Environment := String → Option String

/-- Reading goes on after a problem and keeps it. -/
abbrev Reading := StateM (List Problem)

def note (problem : Problem) : Reading Unit := modify (· ++ [problem])

/-- The whole number at the front of a text, after blanks and a sign; `none` without a digit.
What follows the digits is not looked at. -/
def leadingInteger? (s : String) : Option Number :=
  let start := s.toList.dropWhile Text.isBlank
  let (negative, rest) := match start with
    | '-' :: rest => (true, rest)
    | '+' :: rest => (false, rest)
    | rest => (false, rest)
  let digits := rest.takeWhile fun c => '0' ≤ c && c ≤ '9'
  if digits.isEmpty then none
  else
    let magnitude := digits.foldl (fun n c => n * 10 + (c.toNat - '0'.toNat)) 0
    some (if negative then (Number.ofNat magnitude).neg else Number.ofNat magnitude)

/-- A text that must be there and not blank. -/
def required (env : Environment) (key : String) : Reading String :=
  match env key with
  | some value => if Text.isBlankText value then do note (.missing key); return "" else return value
  | none => do note (.missing key); return ""

/-- A whole number, or the fallback when nothing is given. -/
def number (env : Environment) (key : String) (fallback least : Number) : Reading Number :=
  match env key with
  | none => return fallback
  | some value =>
    if Text.isBlankText value then return fallback
    else match leadingInteger? value with
      | none => do note (.notANumber key value); return fallback
      | some found => do
        if Number.lt found least then note (.belowMinimum key least found)
        return found

/-- A truth value in words or digits, or the fallback when nothing is given. -/
def boolean (env : Environment) (key : String) (fallback : Bool) : Reading Bool :=
  match env key with
  | none => return fallback
  | some value =>
    let word := String.ofList ((Text.trimChars value.toList).map Text.lowerChar)
    if word = "" then return fallback
    else if word = "true" ∨ word = "1" then return true
    else if word = "false" ∨ word = "0" then return false
    else do note (.notABoolean key value); return fallback

/-- A text, or the fallback when it is missing or empty. -/
def textOr (env : Environment) (key fallback : String) : String :=
  match env key with
  | some value => if value = "" then fallback else value
  | none => fallback

def listOf (env : Environment) (key : String) : List String :=
  Text.splitList ((env key).getD "")

def readStage (env : Environment) : Reading Stage :=
  let value := textOr env "NODE_ENV" "development"
  if value = "development" then return .development
  else if value = "production" then return .production
  else if value = "test" then return .test
  else do note (.unknownStage value); return .development

def readMode (env : Environment) : Reading ConsensusMode :=
  let value := textOr env "CONSENSUS_MODE" "single"
  if value = "single" then return .single
  else if value = "poa" then return .poa
  else do note (.unknownMode value); return .single

/-- The list of accepted submitters. An empty one accepts everybody; the node itself is always on
one that is not, since it submits the batches it assembles. -/
def submitters (nodeId : String) (listed : List String) : Option (List String) :=
  if listed.isEmpty then none
  else if nodeId ∈ listed then some listed
  else some (listed ++ [nodeId])

def certificateUrl (tokenUrl : String) : String :=
  let cs := tokenUrl.toList
  if "/validate".toList.isSuffixOf cs then tokenUrl ++ "-cert"
  else String.ofList ((cs.reverse.dropWhile (· == '/')).reverse) ++ "/validate-cert"

/-- All settings; sizes that cross are noted last. -/
def read (env : Environment) : Reading Settings := do
  let stage ← readStage env
  let mode ← readMode env
  let validatorNodes := Text.distinct (listOf env "VALIDATOR_NODES")
  if mode = .poa ∧ validatorNodes = [] then note .noValidators
  let nodeId := textOr env "NODE_ID" "validator_001"
  let genesisTimestamp ←
    if textOr env "GENESIS_TIMESTAMP" "" = "" then pure none
    else some <$> number env "GENESIS_TIMESTAMP" 0 1
  let listenPort ← number env "PORT" 8545 0
  let databaseUrl ← required env "DATABASE_URL"
  let adminPassword ← required env "ADMIN_PASSWORD"
  let poaRoundTimeoutMs ← number env "POA_ROUND_TIMEOUT_MS" 10000 1
  let batchSizeMin ← number env "BATCH_SIZE_MIN" 1 1
  let batchSizeMax ← number env "BATCH_SIZE_MAX" 1000 1
  let batchIntervalSeconds ← number env "BATCH_INTERVAL_SECONDS" 60 1
  let authorityValidationUrl ← required env "AUTHORITY_VALIDATION_URL"
  let authorityRequestTimeoutMs ← number env "AUTHORITY_REQUEST_TIMEOUT_MS" 5000 1
  let validationIntervalSeconds ← number env "VALIDATION_INTERVAL_SECONDS" 30 1
  let validationMaxAttempts ← number env "VALIDATION_MAX_ATTEMPTS" 5 1
  let validationCacheMaxSize ← number env "VALIDATION_CACHE_MAX_SIZE" 10000 1
  let validationCacheTtlSeconds ← number env "VALIDATION_CACHE_TTL_SECONDS" 3600 1
  let embeddedWorkers ← boolean env "EMBEDDED_WORKERS" true
  if Number.lt batchSizeMax batchSizeMin then note (.crossedSizes batchSizeMin batchSizeMax)
  return {
    listenPort, stage, databaseUrl, adminPassword, nodeId, genesisTimestamp, validatorNodes
    poaRoundTimeoutMs, batchSizeMin, batchSizeMax, batchIntervalSeconds
    authorityValidationUrl, authorityRequestTimeoutMs, validationIntervalSeconds
    validationMaxAttempts, validationCacheMaxSize, validationCacheTtlSeconds, embeddedWorkers
    corsOrigin := textOr env "CORS_ORIGIN" "*"
    logLevel := textOr env "LOG_LEVEL" "debug"
    serviceName := textOr env "SERVICE_NAME" "api"
    validatorKeyPath := textOr env "VALIDATOR_KEY_PATH" "./data/keys/validator.key"
    consensusMode := mode
    authorizedSubmitters := submitters nodeId (listOf env "AUTHORIZED_SUBMITTERS")
    authorityCertificateUrl := textOr env "AUTHORITY_CERT_VALIDATION_URL"
      (certificateUrl ((env "AUTHORITY_VALIDATION_URL").getD "")) }

/-- The settings, or every problem in the order of reading, so that one failed start names them all.
-/
def parse (env : Environment) : Except (List Problem) Settings :=
  match (read env).run [] with
  | (settings, []) => .ok settings
  | (_, problems) => .error problems

end Settings

end ImageLedger
