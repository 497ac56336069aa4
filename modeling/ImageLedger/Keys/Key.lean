import ImageLedger.Keys.Curve
import ImageLedger.Keys.Der
import ImageLedger.Keys.Pem

namespace ImageLedger.Keys

inductive KeyError where
  | notPrivate
  | wrongAlgorithm (name : String)
  | wrongCurve (name : String)
  | unreadable (path : String)
deriving DecidableEq

def KeyError.message : KeyError → String
  | notPrivate => "Not a PEM private key"
  | wrongAlgorithm name => "Key must be ECDSA, got " ++ name
  | wrongCurve name => "Key must use P-256, got " ++ name
  | unreadable path => "Cannot read validator key at " ++ path

structure PrivateKey where
  scalar : Nat
  point : Affine
deriving DecidableEq

namespace Key

def ellipticId : List UInt8 := [0x2a, 0x86, 0x48, 0xce, 0x3d, 0x02, 0x01]

def curveId : List UInt8 := [0x2a, 0x86, 0x48, 0xce, 0x3d, 0x03, 0x01, 0x07]

/-- Algorithms other than elliptic curve signatures, by their identifiers. -/
def algorithms : List (List UInt8 × String) := [
  ([0x2a, 0x86, 0x48, 0x86, 0xf7, 0x0d, 0x01, 0x01, 0x01], "rsa"),
  ([0x2a, 0x86, 0x48, 0x86, 0xf7, 0x0d, 0x01, 0x01, 0x0a], "rsa-pss"),
  ([0x2a, 0x86, 0x48, 0x86, 0xf7, 0x0d, 0x01, 0x03, 0x01], "dh"),
  ([0x2a, 0x86, 0x48, 0xce, 0x38, 0x04, 0x01], "dsa"),
  ([0x2b, 0x65, 0x6e], "x25519"),
  ([0x2b, 0x65, 0x6f], "x448"),
  ([0x2b, 0x65, 0x70], "ed25519"),
  ([0x2b, 0x65, 0x71], "ed448")]

def curves : List (List UInt8 × String) := [
  ([0x2a, 0x86, 0x48, 0xce, 0x3d, 0x03, 0x01, 0x01], "prime192v1"),
  ([0x2a, 0x86, 0x48, 0xce, 0x3d, 0x03, 0x01, 0x02], "prime192v2"),
  ([0x2a, 0x86, 0x48, 0xce, 0x3d, 0x03, 0x01, 0x03], "prime192v3"),
  ([0x2a, 0x86, 0x48, 0xce, 0x3d, 0x03, 0x01, 0x04], "prime239v1"),
  ([0x2a, 0x86, 0x48, 0xce, 0x3d, 0x03, 0x01, 0x05], "prime239v2"),
  ([0x2a, 0x86, 0x48, 0xce, 0x3d, 0x03, 0x01, 0x06], "prime239v3"),
  ([0x2b, 0x81, 0x04, 0x00, 0x08], "secp160r1"),
  ([0x2b, 0x81, 0x04, 0x00, 0x09], "secp160k1"),
  ([0x2b, 0x81, 0x04, 0x00, 0x1e], "secp160r2"),
  ([0x2b, 0x81, 0x04, 0x00, 0x1f], "secp192k1"),
  ([0x2b, 0x81, 0x04, 0x00, 0x20], "secp224k1"),
  ([0x2b, 0x81, 0x04, 0x00, 0x21], "secp224r1"),
  ([0x2b, 0x81, 0x04, 0x00, 0x0a], "secp256k1"),
  ([0x2b, 0x81, 0x04, 0x00, 0x22], "secp384r1"),
  ([0x2b, 0x81, 0x04, 0x00, 0x23], "secp521r1"),
  ([0x2b, 0x24, 0x03, 0x03, 0x02, 0x08, 0x01, 0x01, 0x07], "brainpoolP256r1"),
  ([0x2b, 0x24, 0x03, 0x03, 0x02, 0x08, 0x01, 0x01, 0x08], "brainpoolP256t1"),
  ([0x2b, 0x24, 0x03, 0x03, 0x02, 0x08, 0x01, 0x01, 0x09], "brainpoolP320r1"),
  ([0x2b, 0x24, 0x03, 0x03, 0x02, 0x08, 0x01, 0x01, 0x0b], "brainpoolP384r1"),
  ([0x2b, 0x24, 0x03, 0x03, 0x02, 0x08, 0x01, 0x01, 0x0d], "brainpoolP512r1")]

def pointBytes (q : Affine) : List UInt8 := 0x04 :: Der.bytesOf 32 q.x ++ Der.bytesOf 32 q.y

/-- The point that bytes write: both coordinates, or the first one and the parity of the other. -/
def point? : List UInt8 → Option Affine
  | [] => none
  | form :: coordinates =>
    let x := Der.natOf (coordinates.take 32)
    let y := Der.natOf (coordinates.drop 32)
    if form = 0x04 ∨ form = 0x06 ∨ form = 0x07 then
      if coordinates.length = 64 ∧ Curve.onCurve ⟨x, y⟩ ∧
          (form = 0x04 ∨ y % 2 = form.toNat % 2) then some ⟨x, y⟩
      else none
    else if (form = 0x02 ∨ form = 0x03) ∧ coordinates.length = 32 ∧ x < Field.p then
      (Field.sqrt? (Curve.cubic x)).map fun root =>
        ⟨x, if root % 2 = form.toNat % 2 then root else Field.sub 0 root⟩
    else none

def wholeBits? : List UInt8 → Option (List UInt8)
  | 0 :: bytes => some bytes
  | _ => none

/-- Whether a named curve is P-256; otherwise the error that names it. -/
def checkCurve (parameters : List UInt8) : Except KeyError Unit :=
  match Der.expect Der.objectIdTag parameters with
  | some (id, _) =>
    if id = curveId then .ok ()
    else match curves.lookup id with
      | some name => .error (.wrongCurve name)
      | none => .error .notPrivate
  | none =>
    if (Der.expect Der.sequenceTag parameters).isSome then .error (.wrongCurve "unknown curve")
    else .error .notPrivate

/-- The key of a scalar, with the given point or the one it belongs to. -/
def ofScalar (scalar : Nat) (given : Option Affine) : Except KeyError PrivateKey :=
  if scalar = 0 ∨ Curve.order ≤ scalar then .error .notPrivate
  else match given with
    | some point => .ok ⟨scalar, point⟩
    | none =>
      match Curve.toAffine? (Curve.multiple scalar (Curve.ofAffine Curve.generator)) with
      | some point => .ok ⟨scalar, point⟩
      | none => .error .notPrivate

/-- The optional field with the given tag at the front of bytes, with what follows. -/
def optionalField (tag : Nat) (bytes : List UInt8) : Option (List UInt8) × List UInt8 :=
  match Der.expect tag bytes with
  | some (content, rest) => (some content, rest)
  | none => (none, bytes)

/-- A key in the form of elliptic curves: the scalar, perhaps the curve, perhaps the point. The
curve must be named here when it is not known from outside. -/
def readElliptic (curveKnown : Bool) (bytes : List UInt8) : Except KeyError PrivateKey :=
  let parts := do
    let (fields, _) ← Der.expect Der.sequenceTag bytes
    let (version, fields) ← Der.expect Der.integerTag fields
    if version = [1] then pure () else none
    let (scalar, fields) ← Der.expect Der.octetStringTag fields
    let (curve, fields) := optionalField 0xa0 fields
    let (bits, _) := optionalField 0xa1 fields
    return (scalar, curve, bits)
  match parts with
  | none => .error .notPrivate
  | some (scalar, curve, bits) => do
    match curve with
    | some parameters => checkCurve parameters
    | none => if curveKnown then pure () else .error .notPrivate
    match bits with
    | none => ofScalar (Der.natOf scalar) none
    | some bits =>
      match (Der.expect Der.bitStringTag bits).bind fun (content, _) =>
          (wholeBits? content).bind point? with
      | some point => ofScalar (Der.natOf scalar) (some point)
      | none => .error .notPrivate

/-- A key in the general form: the algorithm with its parameters, and the key inside. -/
def readGeneral (bytes : List UInt8) : Except KeyError PrivateKey :=
  let parts := do
    let (fields, _) ← Der.expect Der.sequenceTag bytes
    let (version, fields) ← Der.expect Der.integerTag fields
    if version = [0] ∨ version = [1] then pure () else none
    let (algorithm, fields) ← Der.expect Der.sequenceTag fields
    let (id, parameters) ← Der.expect Der.objectIdTag algorithm
    let (key, _) ← Der.expect Der.octetStringTag fields
    return (id, parameters, key)
  match parts with
  | none => .error .notPrivate
  | some (id, parameters, key) =>
    if id = ellipticId then do
      checkCurve parameters
      readElliptic true key
    else match algorithms.lookup id with
      | some name =>
        if (Der.read key).isSome then .error (.wrongAlgorithm name) else .error .notPrivate
      | none => .error .notPrivate

def readOther (name : String) (bytes : List UInt8) : Except KeyError PrivateKey :=
  if (Der.expect Der.sequenceTag bytes).isSome then .error (.wrongAlgorithm name)
  else .error .notPrivate

def generalLabel : List Char := "PRIVATE KEY".toList

def ellipticLabel : List Char := "EC PRIVATE KEY".toList

def rsaLabel : List Char := "RSA PRIVATE KEY".toList

def dsaLabel : List Char := "DSA PRIVATE KEY".toList

def encryptedLabel : List Char := "ENCRYPTED PRIVATE KEY".toList

/-- The private key in the first block that holds one. -/
def ofPem (s : String) : Except KeyError PrivateKey :=
  match Pem.find? [generalLabel, ellipticLabel, rsaLabel, dsaLabel, encryptedLabel] s with
  | some ⟨label, some bytes⟩ =>
    if label = generalLabel then readGeneral bytes
    else if label = ellipticLabel then readElliptic false bytes
    else if label = rsaLabel then readOther "rsa" bytes
    else if label = dsaLabel then readOther "dsa" bytes
    else .error .notPrivate
  | _ => .error .notPrivate

def algorithmBytes : List UInt8 :=
  Der.write Der.sequenceTag
    (Der.write Der.objectIdTag ellipticId ++ Der.write Der.objectIdTag curveId)

def publicPem (q : Affine) : String :=
  Pem.write "PUBLIC KEY" (Der.write Der.sequenceTag
    (algorithmBytes ++ Der.write Der.bitStringTag (0 :: pointBytes q)))

def privatePem (k : PrivateKey) : String :=
  let key := Der.write Der.sequenceTag
    (Der.write Der.integerTag [1] ++ Der.write Der.octetStringTag (Der.bytesOf 32 k.scalar) ++
      Der.write 0xa1 (Der.write Der.bitStringTag (0 :: pointBytes k.point)))
  Pem.write "PRIVATE KEY" (Der.write Der.sequenceTag
    (Der.write Der.integerTag [0] ++ algorithmBytes ++ Der.write Der.octetStringTag key))

def readPublic (bytes : List UInt8) : Option Affine := do
  let (fields, _) ← Der.expect Der.sequenceTag bytes
  let (algorithm, fields) ← Der.expect Der.sequenceTag fields
  let (id, parameters) ← Der.expect Der.objectIdTag algorithm
  let (curve, _) ← Der.expect Der.objectIdTag parameters
  let (content, _) ← Der.expect Der.bitStringTag fields
  let bits ← wholeBits? content
  if id = ellipticId ∧ curve = curveId then point? bits else none

/-- The public point in a text: that of a public key, or else that of a private one. -/
def publicPoint? (s : String) : Option Affine :=
  match Pem.find? ["PUBLIC KEY".toList] s with
  | some ⟨_, some bytes⟩ => readPublic bytes
  | some ⟨_, none⟩ => none
  | none =>
    match ofPem s with
    | .ok k => some k.point
    | .error _ => none

end Key

end ImageLedger.Keys
