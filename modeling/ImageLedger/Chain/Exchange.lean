import ImageLedger.Rules

namespace ImageLedger

namespace Exchange

def text? (j : Json) (name : String) : Option String := (j.field? name).bind Json.text?

def textOf (j : Json) (name : String) : String := (text? j name).getD ""

def number? (j : Json) (name : String) : Option Number := (j.field? name).bind Json.number?

/-- The number of a field, or no number. -/
def numberOf (j : Json) (name : String) : Number := (number? j name).getD .nan

def cells? (j : Json) (name : String) : Option (List Json) := (j.field? name).bind Json.items?

/-- The items of a field, none if it holds no list. -/
def cells (j : Json) (name : String) : List Json := (cells? j name).getD []

/-- An optional column as a field, which is left out with it. -/
def columnField (name : String) (encode : α → Json) (column : Option (List (Option α))) :
    List (String × Json) :=
  column.toList.map fun items => (name, .list (items.map (Json.ofOption encode)))

end Exchange

open Exchange

def ReceivedBatch.ofJson (j : Json) : ReceivedBatch where
  imageHashes := cells j "imageHashes"
  timestamps := cells j "timestamps"
  submitterId := Json.displayOption (j.field? "submitterId")
  modificationLevels := cells? j "modificationLevels"
  parentImageHashes := cells? j "parentImageHashes"
  gpsHashes := cells? j "gpsHashes"
  ownerHashes := cells? j "ownerHashes"

def ReceivedEntry.ofJson (j : Json) : ReceivedEntry where
  imageHash := j.field? "imageHash"
  timestamp := j.field? "timestamp"
  modificationLevel := j.field? "modificationLevel"
  parentImageHash := j.field? "parentImageHash"
  gpsHash := j.field? "gpsHash"
  ownerHash := j.field? "ownerHash"

def BatchTransaction.ofJson (j : Json) : BatchTransaction where
  imageHashes := (cells j "imageHashes").map Json.display
  timestamps := (cells j "timestamps").map fun t => t.number?.getD .nan
  submitterId := textOf j "submitterId"
  signature := textOf j "signature"
  modificationLevels := (cells? j "modificationLevels").map (·.map Json.number?)
  parentImageHashes := (cells? j "parentImageHashes").map (·.map Json.text?)
  gpsHashes := (cells? j "gpsHashes").map (·.map Json.text?)
  ownerHashes := (cells? j "ownerHashes").map (·.map Json.text?)

def BatchTransaction.toJson (tx : BatchTransaction) : Json := .object <|
  [("imageHashes", .list (tx.imageHashes.map .text)),
    ("timestamps", .list (tx.timestamps.map .number)),
    ("submitterId", .text tx.submitterId),
    ("signature", .text tx.signature)] ++
  columnField "modificationLevels" .number tx.modificationLevels ++
  columnField "parentImageHashes" .text tx.parentImageHashes ++
  columnField "gpsHashes" .text tx.gpsHashes ++
  columnField "ownerHashes" .text tx.ownerHashes

def Proposal.ofJson (j : Json) : Proposal where
  height := numberOf j "height"
  previousHash := textOf j "previousHash"
  timestamp := numberOf j "timestamp"
  validatorId := textOf j "validatorId"
  transactions := (cells j "transactions").map BatchTransaction.ofJson
  transactionHashes := (cells j "transactionHashes").map Json.display
  signature := textOf j "signature"

def Proposal.toJson (p : Proposal) : Json := .object [
  ("height", .number p.height),
  ("previousHash", .text p.previousHash),
  ("timestamp", .number p.timestamp),
  ("validatorId", .text p.validatorId),
  ("transactions", .list (p.transactions.map BatchTransaction.toJson)),
  ("transactionHashes", .list (p.transactionHashes.map .text)),
  ("signature", .text p.signature)]

end ImageLedger
