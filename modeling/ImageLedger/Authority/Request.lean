import ImageLedger.Digest.Sha256
import ImageLedger.Json.Basic

namespace ImageLedger.Authority

/-- The encrypted material of a camera, to be checked by an authority. -/
structure TokenRequest where
  ciphertext : String
  authTag : String
  nonce : String
  tableId : Number
  keyIndex : Number
  authorityId : String
deriving DecidableEq

/-- A device certificate and the signature over the image's fields. The GPS hash may be given as
nothing, or not be given at all. -/
structure CertificateRequest where
  cameraCert : String
  bundleSignature : String
  imageHash : String
  timestamp : Number
  gpsHash : Option (Option String)
  authorityId : String
deriving DecidableEq

inductive Request where
  | token (request : TokenRequest)
  | certificate (request : CertificateRequest)
deriving DecidableEq

/-- The text whose digest is the key of a token question. No part of it belongs to the image. -/
def TokenRequest.keyText (r : TokenRequest) : String :=
  Text.join ":" [r.ciphertext, r.authTag, r.nonce, r.tableId.toText, r.keyIndex.toText,
    r.authorityId]

/-- The text whose digest is the key of a certificate question. -/
def CertificateRequest.keyText (r : CertificateRequest) : String :=
  Text.join ":" ["cert", r.cameraCert, r.imageHash, r.timestamp.toText,
    (r.gpsHash.join).getD "", r.bundleSignature, r.authorityId]

namespace Request

def keyText : Request → String
  | token r => r.keyText
  | certificate r => r.keyText

def key (r : Request) : String := hashText r.keyText

/-- What a question is about, as the default message of a verdict says it. -/
def subject : Request → String
  | token _ => "Token"
  | certificate _ => "Certificate"

def body : Request → Json
  | token r => .object [
      ("camera_token", .object [
        ("ciphertext", .text r.ciphertext),
        ("auth_tag", .text r.authTag),
        ("nonce", .text r.nonce),
        ("table_id", .number r.tableId),
        ("key_index", .number r.keyIndex)]),
      ("manufacturer_authority_id", .text r.authorityId)]
  | certificate r => .object <|
      [("camera_cert", .text r.cameraCert),
        ("image_hash", .text r.imageHash),
        ("timestamp", .number r.timestamp)] ++
      (match r.gpsHash with
        | none => []
        | some gps => [("gps_hash", Json.ofOption .text gps)]) ++
      [("bundle_signature", .text r.bundleSignature)]

end Request

end ImageLedger.Authority
