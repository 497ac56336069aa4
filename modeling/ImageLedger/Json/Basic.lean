import ImageLedger.Number.Decimal
import ImageLedger.Text.Order

namespace ImageLedger

inductive Json where
  | null
  | bool (value : Bool)
  | number (value : Number)
  | text (value : String)
  | list (items : List Json)
  | object (fields : List (String × Json))

namespace Json

instance : Inhabited Json := ⟨null⟩

mutual

/-- Whether two values are the same, fields in the same order. -/
def same : Json → Json → Bool
  | null, null => true
  | bool a, bool b => a = b
  | number a, number b => a = b
  | text a, text b => a = b
  | list a, list b => sameItems a b
  | object a, object b => sameFields a b
  | _, _ => false

def sameItems : List Json → List Json → Bool
  | [], [] => true
  | a :: as, b :: bs => same a b && sameItems as bs
  | _, _ => false

def sameFields : List (String × Json) → List (String × Json) → Bool
  | [], [] => true
  | (k, a) :: as, (l, b) :: bs => k = l && same a b && sameFields as bs
  | _, _ => false

end

instance : BEq Json := ⟨same⟩

/-- The field of an object, absent when there is none or the value is no object. -/
def field? (name : String) : Json → Option Json
  | object fields => fields.lookup name
  | _ => none

/-- The items of a list, if the value is one. -/
def items? : Json → Option (List Json)
  | list items => some items
  | _ => none

def text? : Json → Option String
  | text s => some s
  | _ => none

def number? : Json → Option Number
  | number x => some x
  | _ => none

def ofNat (n : Nat) : Json := number (Number.ofNat n)

def ofOption (encode : α → Json) : Option α → Json
  | some a => encode a
  | none => null

mutual

/-- The value as part of a message: texts as they are, lists joined by commas. -/
def display : Json → String
  | null => "null"
  | bool b => if b then "true" else "false"
  | number x => x.toText
  | text s => s
  | list items => Text.join "," (displayItems items)
  | object _ => "[object Object]"

/-- The texts of list items; nothing stands for `null`. -/
def displayItems : List Json → List String
  | [] => []
  | null :: rest => "" :: displayItems rest
  | item :: rest => display item :: displayItems rest

end

/-- The text of a value that may be absent. -/
def displayOption : Option Json → String
  | none => "undefined"
  | some v => v.display

end Json

end ImageLedger
