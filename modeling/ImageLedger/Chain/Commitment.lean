import ImageLedger.Chain.Basic
import ImageLedger.Json.Writer

namespace ImageLedger

/-- The time at the start of its minute, toward zero. -/
def roundToMinute (timestamp : Number) : Number := Number.sub timestamp (Number.rem timestamp 60)

/-- The text whose digest is a block's hash; the order of transaction hashes does not count. -/
def blockText (height : Number) (previousHash : String) (timestamp : Number)
    (transactionHashes : List String) (validatorId : String) : String :=
  Json.canonical (.object [
    ("block_height", .number height),
    ("previous_hash", .text previousHash),
    ("timestamp", .number timestamp),
    ("transaction_hashes", .list ((Text.sort transactionHashes).map .text)),
    ("validator_id", .text validatorId)])

def blockHash (height : Number) (previousHash : String) (timestamp : Number)
    (transactionHashes : List String) (validatorId : String) : String :=
  hashText (blockText height previousHash timestamp transactionHashes validatorId)

/-- The text whose digest is a transaction's hash; timestamps keep their order. -/
def transactionText (imageHashes : List String) (timestamps : List Number) (submitterId : String) :
    String :=
  Json.canonical (.object [
    ("image_hashes", .list ((Text.sort imageHashes).map .text)),
    ("timestamps", .list (timestamps.map .number)),
    ("aggregator_id", .text submitterId)])

def transactionHash (imageHashes : List String) (timestamps : List Number) (submitterId : String) :
    String :=
  hashText (transactionText imageHashes timestamps submitterId)

/-- The text that a validator signs for a block; transaction hashes keep their order. -/
def signingPayload (height : Number) (previousHash : String) (timestamp : Number)
    (transactionHashes : List String) (validatorId : String) : String :=
  height.toText ++ previousHash ++ timestamp.toText ++ Text.join "," transactionHashes ++
    validatorId

def batchPayload (imageHashes : List String) : String := Text.join "," (Text.sort imageHashes)

end ImageLedger
