import ImageLedger.Chain.Basic

namespace ImageLedger

/-- The rules, in the order of their checks. -/
inductive Rule where
  | submitterAuthorization
  | hashFormat
  | arrayLength
  | entryFormat
  | duplicateInTransaction
  | duplicateOnChain
  | timestampRange
  | batchSize
deriving DecidableEq

namespace Rule

def name : Rule → String
  | submitterAuthorization => "submitter_authorization"
  | hashFormat => "hash_format"
  | arrayLength => "array_length"
  | entryFormat => "entry_format"
  | duplicateInTransaction => "duplicate_in_transaction"
  | duplicateOnChain => "duplicate_on_chain"
  | timestampRange => "timestamp_range"
  | batchSize => "batch_size"

end Rule

inductive Column where
  | timestamps
  | modificationLevels
  | parentHashes
  | gpsHashes
  | ownerHashes
deriving DecidableEq

/-- A hash that an entry may carry beside its own. -/
inductive Link where
  | parent
  | gps
  | owner
deriving DecidableEq

/-- What is wrong with a batch or an entry. Offending values are kept as text. -/
inductive Violation where
  | unauthorizedSubmitter (submitter : String)
  | malformedHash (value : String)
  | lengthMismatch (column : Column)
  | unknownLevel (value : String)
  | malformedLink (link : Link) (value : String)
  | repeatedHash
  | alreadyOnChain (hashes : List String)
  | timeless (value : String)
  | inFuture (value : String)
  | tooOld (value : String)
  | tooSmall (count : Nat) (least : Number)
  | tooLarge (count : Nat) (most : Number)
deriving DecidableEq

namespace Violation

def rule : Violation → Rule
  | unauthorizedSubmitter _ => .submitterAuthorization
  | malformedHash _ => .hashFormat
  | lengthMismatch _ => .arrayLength
  | unknownLevel _ => .entryFormat
  | malformedLink _ _ => .entryFormat
  | repeatedHash => .duplicateInTransaction
  | alreadyOnChain _ => .duplicateOnChain
  | timeless _ => .timestampRange
  | inFuture _ => .timestampRange
  | tooOld _ => .timestampRange
  | tooSmall _ _ => .batchSize
  | tooLarge _ _ => .batchSize

def columnText : Column → String
  | .timestamps => "Image hashes and timestamps"
  | .modificationLevels => "Modification levels"
  | .parentHashes => "Parent hashes"
  | .gpsHashes => "GPS hashes"
  | .ownerHashes => "Owner hashes"

def linkText : Link → String
  | .parent => "parent hash"
  | .gps => "GPS hash"
  | .owner => "owner hash"

def message : Violation → String
  | unauthorizedSubmitter submitter => "Unauthorized submitter: " ++ submitter
  | malformedHash value => "Invalid hash format: " ++ value
  | lengthMismatch column => columnText column ++ " length mismatch"
  | unknownLevel value => "Invalid modification level: " ++ value
  | malformedLink link value => "Invalid " ++ linkText link ++ " format: " ++ value
  | repeatedHash => "Duplicate hashes within transaction"
  | alreadyOnChain hashes =>
    "Duplicate hash(es) already on blockchain: " ++ Text.join ", " hashes
  | timeless value => "Invalid timestamp: " ++ value
  | inFuture value => "Timestamp in future: " ++ value
  | tooOld value => "Timestamp too old: " ++ value
  | tooSmall count least => s!"Batch too small: {count} < " ++ least.toText
  | tooLarge count most => s!"Batch too large: {count} > " ++ most.toText

end Violation

/-- A batch whose cells have not been looked at yet. -/
structure ReceivedBatch where
  imageHashes : List Json
  timestamps : List Json
  submitterId : String
  modificationLevels : Option (List Json)
  parentImageHashes : Option (List Json)
  gpsHashes : Option (List Json)
  ownerHashes : Option (List Json)

/-- An entry whose fields have not been looked at yet. -/
structure ReceivedEntry where
  imageHash : Option Json
  timestamp : Option Json
  modificationLevel : Option Json
  parentImageHash : Option Json
  gpsHash : Option Json
  ownerHash : Option Json

def numberCell : Option Number → Json
  | some x => .number x
  | none => .null

def textCell : Option String → Json
  | some s => .text s
  | none => .null

def BatchTransaction.received (tx : BatchTransaction) : ReceivedBatch where
  imageHashes := tx.imageHashes.map .text
  timestamps := tx.timestamps.map .number
  submitterId := tx.submitterId
  modificationLevels := tx.modificationLevels.map (·.map numberCell)
  parentImageHashes := tx.parentImageHashes.map (·.map textCell)
  gpsHashes := tx.gpsHashes.map (·.map textCell)
  ownerHashes := tx.ownerHashes.map (·.map textCell)

def BatchEntry.received (e : BatchEntry) : ReceivedEntry where
  imageHash := some (.text e.imageHash)
  timestamp := some (.number e.timestamp)
  modificationLevel := some (.number e.modificationLevel)
  parentImageHash := some (textCell e.parentImageHash)
  gpsHash := some (textCell e.gpsHash)
  ownerHash := some (textCell e.ownerHash)

namespace Rules

/-- The greatest age of an entry: a year of seconds. -/
def maxAge : Number := 31536000

/-- How far an entry's time may lie ahead. -/
def maxSkew : Number := 300

/-- What a validator is set up with; without a list every submitter is accepted. -/
structure Options where
  authorizedSubmitters : Option (List String)
  batchSizeMin : Number
  batchSizeMax : Number

/-- A time must be finite and lie between a year ago and five minutes ahead. -/
def checkTimestamp (now : Number) (timestamp : Option Json) : Option Violation :=
  match timestamp with
  | some (.number t) =>
    if !t.isFinite then some (.timeless t.toText)
    else if Number.lt (Number.add now maxSkew) t then some (.inFuture t.toText)
    else if Number.lt t (Number.sub now maxAge) then some (.tooOld t.toText)
    else none
  | other => some (.timeless (Json.displayOption other))

/-- A link may be missing, and must be a well-formed hash otherwise. -/
def checkLink (link : Link) : Option Json → Option Violation
  | none => none
  | some .null => none
  | some v =>
    if (HashText.ofJson? (some v)).isSome then none else some (.malformedLink link v.display)

/-- Levels are zero, one and two. -/
def isLevel : Json → Bool
  | .number x => x = 0 || x = 1 || x = 2
  | _ => false

def checkLevel (level : Option Json) : Option Violation :=
  match level with
  | some v => if isLevel v then none else some (.unknownLevel v.display)
  | none => some (.unknownLevel (Json.displayOption none))

def checkFields (e : ReceivedEntry) : Option Violation :=
  (checkLevel e.modificationLevel).or <|
    (checkLink .parent e.parentImageHash).or <|
      (checkLink .gps e.gpsHash).or (checkLink .owner e.ownerHash)

/-- The checks on one entry that need nothing else: its hash, its fields and its time. -/
def screenEntry (now : Number) (e : ReceivedEntry) : Option Violation :=
  if (HashText.ofJson? e.imageHash).isNone then
    some (.malformedHash (Json.displayOption e.imageHash))
  else (checkFields e).or (checkTimestamp now e.timestamp)

/-- The level of an entry in a batch: nothing counts as zero. -/
def levelCell (levels : Option (List Json)) (i : Nat) : Json :=
  match levels.bind (·[i]?) with
  | some .null => .number 0
  | some v => v
  | none => .number 0

def entryAt (tx : ReceivedBatch) (i : Nat) : ReceivedEntry where
  imageHash := tx.imageHashes[i]?
  timestamp := tx.timestamps[i]?
  modificationLevel := some (levelCell tx.modificationLevels i)
  parentImageHash := tx.parentImageHashes.bind (·[i]?)
  gpsHash := tx.gpsHashes.bind (·[i]?)
  ownerHash := tx.ownerHashes.bind (·[i]?)

def checkSubmitter (options : Options) (submitter : String) : Option Violation :=
  match options.authorizedSubmitters with
  | none => none
  | some allowed => if submitter ∈ allowed then none else some (.unauthorizedSubmitter submitter)

/-- The first image hash that is not well-formed. -/
def checkHashes (hashes : List Json) : Option Violation :=
  hashes.findSome? fun v =>
    if (HashText.ofJson? (some v)).isSome then none else some (.malformedHash v.display)

/-- The first column whose length differs from the number of image hashes. -/
def checkLengths (tx : ReceivedBatch) : Option Violation :=
  let count := tx.imageHashes.length
  [(Column.timestamps, some tx.timestamps), (.modificationLevels, tx.modificationLevels),
    (.parentHashes, tx.parentImageHashes), (.gpsHashes, tx.gpsHashes),
    (.ownerHashes, tx.ownerHashes)].findSome? fun
      | (column, some cells) => if cells.length = count then none else some (.lengthMismatch column)
      | (_, none) => none

def normalizedHashes (tx : ReceivedBatch) : List String :=
  tx.imageHashes.filterMap fun v => (HashText.ofJson? (some v)).map HashText.lower

def checkRepeats (hashes : List String) : Option Violation :=
  if (Text.distinct hashes).length = hashes.length then none else some .repeatedHash

def checkOnChain (existing : List String) : Option Violation :=
  if existing.isEmpty then none else some (.alreadyOnChain (Text.sort existing))

def checkSize (options : Options) (count : Nat) : Option Violation :=
  if Number.lt (Number.ofNat count) options.batchSizeMin then
    some (.tooSmall count options.batchSizeMin)
  else if Number.lt options.batchSizeMax (Number.ofNat count) then
    some (.tooLarge count options.batchSizeMax)
  else none

/-- The checks that come before the ledger is asked. -/
def checkForm (options : Options) (tx : ReceivedBatch) : Option Violation :=
  (checkSubmitter options tx.submitterId).or <|
    (checkHashes tx.imageHashes).or <|
      (checkLengths tx).or <|
        ((List.range tx.imageHashes.length).findSome? fun i => checkFields (entryAt tx i)).or <|
          checkRepeats (normalizedHashes tx)

/-- The checks that come after it. -/
def checkRanges (options : Options) (now : Number) (tx : ReceivedBatch) : Option Violation :=
  (tx.timestamps.findSome? fun t => checkTimestamp now (some t)).or
    (checkSize options tx.imageHashes.length)

/-- The first rule that a batch breaks, given the lookup of hashes on the ledger. -/
def validate (options : Options) (existing : List String → List String) (now : Number)
    (tx : ReceivedBatch) : Option Violation :=
  (checkForm options tx).or <|
    (checkOnChain (existing (normalizedHashes tx))).or (checkRanges options now tx)

end Rules

end ImageLedger
