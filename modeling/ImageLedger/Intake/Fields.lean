import ImageLedger.Digest.HashText

namespace ImageLedger

inductive FieldError where
  | notAnObject (field : Option String)
  | missing (field : String)
  | malformed (field : String)
  | notAnInteger (field : String)
  | belowLeast (field : String) (least : Number)
  | aboveMost (field : String) (most : Number)
  | notAHeight (field : String)
  | heightTooLarge (field : String)
  | malformedBlockHash
  | malformedImageHash
deriving DecidableEq

namespace Fields

/-- The greatest height that blocks are stored under. -/
def maxHeight : Nat := 2147483647

end Fields

namespace FieldError

def message : FieldError → String
  | notAnObject none => "Request body must be a JSON object"
  | notAnObject (some field) =>
    if field = "" then "Request body must be a JSON object" else field ++ " must be an object"
  | missing field => field ++ " is required"
  | malformed field => "Invalid " ++ field ++ " format"
  | notAnInteger field => field ++ " must be an integer"
  | belowLeast field least => field ++ " must be at least " ++ least.toText
  | aboveMost field most => field ++ " must be at most " ++ most.toText
  | notAHeight field => field ++ " must be a non-negative integer"
  | heightTooLarge field => s!"{field} must not exceed {Fields.maxHeight}"
  | malformedBlockHash => "Invalid block hash format"
  | malformedImageHash => "Invalid SHA256 hash format"

def field : FieldError → Option String
  | notAnObject field => field
  | missing field => some field
  | malformed field => some field
  | notAnInteger field => some field
  | belowLeast field _ => some field
  | aboveMost field _ => some field
  | notAHeight field => some field
  | heightTooLarge field => some field
  | malformedBlockHash => some "blockHash"
  | malformedImageHash => some "imageHash"

end FieldError

namespace Fields

/-- A request's fields are those of a JSON object. -/
abbrev Members := List (String × Json)

/-- The least and the greatest value that a number may have. -/
structure Range where
  least : Option Number
  most : Option Number

def Range.any : Range := ⟨none, none⟩

def Range.atLeast (least : Number) : Range := ⟨some least, none⟩

def Range.between (least most : Number) : Range := ⟨some least, some most⟩

/-- The fields of an object; nothing else has fields. -/
def ofValue (value : Option Json) (field : Option String) : Except FieldError Members :=
  match value with
  | some (.object fields) => .ok fields
  | _ => .error (.notAnObject field)

def requireText (fields : Members) (field : String) : Except FieldError String :=
  match fields.lookup field with
  | some (.text s) => if Text.isBlankText s then .error (.missing field) else .ok s
  | _ => .error (.missing field)

def requireHash (fields : Members) (field : String) : Except FieldError String :=
  match fields.lookup field with
  | none => .error (.missing field)
  | some .null => .error (.missing field)
  | some (.text s) =>
    if s = "" then .error (.missing field)
    else match HashText.normalize? s with
      | some hash => .ok hash
      | none => .error (.malformed field)
  | some _ => .error (.malformed field)

/-- A hash in its lowercase form, or nothing. -/
def optionalHash (fields : Members) (field : String) : Except FieldError (Option String) :=
  match fields.lookup field with
  | none => .ok none
  | some .null => .ok none
  | some (.text s) =>
    match HashText.normalize? s with
    | some hash => .ok (some hash)
    | none => .error (.malformed field)
  | some _ => .error (.malformed field)

def requireInteger (fields : Members) (field : String) (range : Range) : Except FieldError Number :=
  match fields.lookup field with
  | some (.number x) =>
    if !x.isInteger then .error (.notAnInteger field)
    else match range.least.filter (Number.lt x), range.most.filter (Number.lt · x) with
      | some least, _ => .error (.belowLeast field least)
      | none, some most => .error (.aboveMost field most)
      | none, none => .ok x
  | _ => .error (.notAnInteger field)

/-- A whole number within the range, or the fallback when the field is absent. -/
def optionalInteger (fields : Members) (field : String) (fallback : Number) (range : Range) :
    Except FieldError Number :=
  if (fields.lookup field).isNone then .ok fallback else requireInteger fields field range

/-- A block's height from its decimal digits. The digits are read as a number before it is compared
with the greatest height. -/
def parseHeight (value : Option String) (field : String) : Except FieldError Number :=
  match value with
  | none => .error (.notAHeight field)
  | some s =>
    let cs := s.toList
    if cs.isEmpty || !cs.all (fun c => '0' ≤ c && c ≤ '9') then .error (.notAHeight field)
    else
      let height := Number.ofNat (cs.foldl (fun n c => n * 10 + (c.toNat - '0'.toNat)) 0)
      if !height.isSafe || Number.lt (Number.ofNat maxHeight) height then
        .error (.heightTooLarge field)
      else .ok height

end Fields

end ImageLedger
