import ImageLedger.Digest.Sha256
import ImageLedger.Keys.Key

namespace ImageLedger.Keys.Signature

def digestNumber (message : List UInt8) : Nat := Der.natOf (Sha256.hash message).bytes

/-- The two numbers of a signature in its distinguished encoding, with nothing after it. -/
def ofDer? (bytes : List UInt8) : Option (Nat × Nat) := do
  let (fields, rest) ← Der.expect Der.sequenceTag bytes
  let (r, fields) ← Der.expect Der.integerTag fields
  let (s, fields) ← Der.expect Der.integerTag fields
  let r ← Der.natural? r
  let s ← Der.natural? s
  if rest.isEmpty ∧ fields.isEmpty then some (r, s) else none

def toDer (r s : Nat) : List UInt8 :=
  Der.write Der.sequenceTag
    (Der.write Der.integerTag (Der.naturalContent r) ++
      Der.write Der.integerTag (Der.naturalContent s))

def checks (q : Affine) (z r s : Nat) : Bool :=
  let n := Curve.order
  if r = 0 ∨ n ≤ r ∨ s = 0 ∨ n ≤ s then false
  else
    let w := Field.invMod n s
    let u := Curve.multiple (z * w % n) (Curve.ofAffine Curve.generator)
    let v := Curve.multiple (r * w % n) (Curve.ofAffine q)
    match Curve.toAffine? (Curve.sum u v) with
    | some point => point.x % n = r
    | none => false

/-- Whether base64 text is a signature of a message under the key in a PEM text. Malformed keys
and signatures sign nothing. -/
def verify (message : List UInt8) (signature : String) (publicKey : String) : Bool :=
  match Key.publicPoint? publicKey, ofDer? (Base64.decodeLenient signature.toList) with
  | some q, some (r, s) => checks q (digestNumber message) r s
  | _, _ => false

/-- The secret number of a signature: a digest of the key and the message, so that no two messages
share one. -/
def nonce (k : PrivateKey) (message : List UInt8) (attempt : Nat) : Nat :=
  let digest := Sha256.hash
    (Der.bytesOf 32 k.scalar ++ (Sha256.hash message).bytes ++ Der.bytesOf 4 attempt)
  Der.natOf digest.bytes % (Curve.order - 1) + 1

/-- A signature with the first nonce that gives one. -/
def signFrom (k : PrivateKey) (message : List UInt8) : Nat → Nat → List UInt8
  | 0, _ => []
  | tries + 1, attempt =>
    let n := Curve.order
    let secret := nonce k message attempt
    let r := match Curve.toAffine? (Curve.multiple secret (Curve.ofAffine Curve.generator)) with
      | some point => point.x % n
      | none => 0
    let s := Field.invMod n secret * (digestNumber message + r * k.scalar) % n
    if r = 0 ∨ s = 0 then signFrom k message tries (attempt + 1) else toDer r s

def sign (k : PrivateKey) (message : List UInt8) : List UInt8 := signFrom k message 4 0

def signText (k : PrivateKey) (text : String) : String :=
  String.ofList (Base64.encode (sign k (utf8 text)))

end ImageLedger.Keys.Signature
