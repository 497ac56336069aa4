import ImageLedger.Json.Basic
import ImageLedger.Text.Hex

namespace ImageLedger.Json

def isSpace (c : Char) : Bool := c = ' ' || c = '\n' || c = '\r' || c = '\t'

def skipSpace (cs : List Char) : List Char := cs.dropWhile isSpace

def unit? (a b c d : Char) : Option Nat :=
  match Hex.value? a, Hex.value? b, Hex.value? c, Hex.value? d with
  | some a, some b, some c, some d => some (a * 4096 + b * 256 + c * 16 + d)
  | _, _, _, _ => none

def isHighSurrogate (n : Nat) : Bool := 0xD800 ≤ n && n < 0xDC00

def isLowSurrogate (n : Nat) : Bool := 0xDC00 ≤ n && n < 0xE000

/-- The character of a code point; a surrogate standing alone gives the replacement character. -/
def charOf (n : Nat) : Char :=
  if isHighSurrogate n || isLowSurrogate n then '\uFFFD' else Char.ofNat n

/-- Characters from code units and code points, a high and a low surrogate making one. -/
def combine : List Nat → List Char
  | [] => []
  | [n] => [charOf n]
  | m :: n :: rest =>
    if isHighSurrogate m && isLowSurrogate n then
      Char.ofNat (0x10000 + (m - 0xD800) * 0x400 + (n - 0xDC00)) :: combine rest
    else charOf m :: combine (n :: rest)

def escaped? (c : Char) : Option Nat :=
  if c = '"' ∨ c = '\\' ∨ c = '/' then some c.toNat
  else if c = 'b' then some 8
  else if c = 'f' then some 12
  else if c = 'n' then some 10
  else if c = 'r' then some 13
  else if c = 't' then some 9
  else none

/-- The code units up to the closing quote, with the characters after it. The units read so far
are given last first. -/
def readUnits : List Char → List Nat → Option (List Nat × List Char)
  | [], _ => none
  | '"' :: rest, read => some (read.reverse, rest)
  | '\\' :: 'u' :: a :: b :: c :: d :: rest, read =>
    match unit? a b c d with
    | some n => readUnits rest (n :: read)
    | none => none
  | '\\' :: c :: rest, read =>
    match escaped? c with
    | some n => readUnits rest (n :: read)
    | none => none
  | c :: rest, read => if c.toNat < 32 then none else readUnits rest (c.toNat :: read)

def readText (cs : List Char) : Option (String × List Char) :=
  (readUnits cs []).map fun (units, rest) => (String.ofList (combine units), rest)

def isDigit (c : Char) : Bool := '0' ≤ c && c ≤ '9'

def digitValue (c : Char) : Nat := c.toNat - '0'.toNat

def digitsValue (cs : List Char) : Nat := cs.foldl (fun n c => n * 10 + digitValue c) 0

/-- The digits at the front and what follows them; `none` without a digit. -/
def readDigits (cs : List Char) : Option (List Char × List Char) :=
  let digits := cs.takeWhile isDigit
  if digits.isEmpty then none else some (digits, cs.dropWhile isDigit)

/-- The digits after a point, if there is one. -/
def readFraction : List Char → Option (List Char × List Char)
  | '.' :: rest => readDigits rest
  | cs => some ([], cs)

/-- The power of ten after an exponent mark, if there is one. -/
def readExponent : List Char → Option (Int × List Char)
  | [] => some (0, [])
  | c :: rest =>
    if c = 'e' ∨ c = 'E' then
      match rest with
      | '-' :: cs => (readDigits cs).map fun (digits, rest) => (-(digitsValue digits : Int), rest)
      | '+' :: cs => (readDigits cs).map fun (digits, rest) => ((digitsValue digits : Int), rest)
      | cs => (readDigits cs).map fun (digits, rest) => ((digitsValue digits : Int), rest)
    else some (0, c :: rest)

/-- Whole digits without a needless zero in front. -/
def readWhole (cs : List Char) : Option (List Char × List Char) :=
  match readDigits cs with
  | some ('0' :: _ :: _, _) => none
  | other => other

/-- A number without its sign. -/
def readMagnitude (cs : List Char) : Option (Number × List Char) := do
  let (whole, rest) ← readWhole cs
  let (fraction, rest) ← readFraction rest
  let (exponent, rest) ← readExponent rest
  return (Number.ofDecimal (digitsValue (whole ++ fraction)) (exponent - fraction.length), rest)

def readNumber : List Char → Option (Number × List Char)
  | '-' :: rest => (readMagnitude rest).map fun (x, rest) => (x.neg, rest)
  | cs => readMagnitude cs

def afterWord : List Char → List Char → Option (List Char)
  | [], cs => some cs
  | w :: word, c :: cs => if w = c then afterWord word cs else none
  | _ :: _, [] => none

/-- The fields with one set: in its place if the key is there, else in front. -/
def setField (name : String) (value : Json) : List (String × Json) → List (String × Json)
  | fields =>
    if fields.any (·.1 = name) then fields.map fun f => if f.1 = name then (name, value) else f
    else (name, value) :: fields

mutual

def readValue : Nat → List Char → Option (Json × List Char)
  | 0, _ => none
  | fuel + 1, cs =>
    match skipSpace cs with
    | '"' :: rest => (readText rest).map fun (s, rest) => (text s, rest)
    | '[' :: rest =>
      match skipSpace rest with
      | ']' :: rest => some (list [], rest)
      | rest => readItems fuel rest []
    | '\x7b' :: rest =>
      match skipSpace rest with
      | '\x7d' :: rest => some (object [], rest)
      | rest => readFields fuel rest []
    | 't' :: rest => (afterWord "rue".toList rest).map fun rest => (bool true, rest)
    | 'f' :: rest => (afterWord "alse".toList rest).map fun rest => (bool false, rest)
    | 'n' :: rest => (afterWord "ull".toList rest).map fun rest => (null, rest)
    | cs => (readNumber cs).map fun (x, rest) => (number x, rest)

/-- The items of a list up to its end; those read so far are given last first. -/
def readItems : Nat → List Char → List Json → Option (Json × List Char)
  | 0, _, _ => none
  | fuel + 1, cs, read =>
    match readValue fuel cs with
    | none => none
    | some (v, rest) =>
      match skipSpace rest with
      | ',' :: rest => readItems fuel rest (v :: read)
      | ']' :: rest => some (list (v :: read).reverse, rest)
      | _ => none

/-- The fields of an object up to its end; those read so far are given last first. -/
def readFields : Nat → List Char → List (String × Json) → Option (Json × List Char)
  | 0, _, _ => none
  | fuel + 1, cs, read =>
    match skipSpace cs with
    | '"' :: rest =>
      match readText rest with
      | none => none
      | some (name, rest) =>
        match skipSpace rest with
        | ':' :: rest =>
          match readValue fuel rest with
          | none => none
          | some (v, rest) =>
            match skipSpace rest with
            | ',' :: rest => readFields fuel rest (setField name v read)
            | '\x7d' :: rest => some (object (setField name v read).reverse, rest)
            | _ => none
        | _ => none
    | _ => none

end

/-- The value that characters stand for, with blanks around it and nothing else. Of repeated keys
the last one counts. -/
def parseChars (cs : List Char) : Option Json :=
  match readValue (2 * cs.length + 2) cs with
  | some (v, rest) => if (skipSpace rest).isEmpty then some v else none
  | none => none

def parse? (s : String) : Option Json := parseChars s.toList

end ImageLedger.Json
