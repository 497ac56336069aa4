import ImageLedger.Keys.Signature

namespace ImageLedger.Keys

abbrev Files := List (String × String)

namespace Files

/-- The rights of a key file: the owner reads and writes. -/
def mode : String := "600"

def write (files : Files) (path content : String) : Files :=
  (path, content) :: files.filter (·.1 ≠ path)

def load (files : Files) (path : String) : Except KeyError PrivateKey :=
  match files.lookup path with
  | some content => Key.ofPem content
  | none => .error (.unreadable path)

def save (files : Files) (path : String) (key : PrivateKey) : Files :=
  files.write path (Key.privatePem key)

def generate (seed : List UInt8) : Except KeyError PrivateKey :=
  Key.ofScalar (Der.natOf (Sha256.hash seed).bytes % (Curve.order - 1) + 1) none

/-- The key under a path, where a new one is saved if there is no file. -/
def loadOrCreate (files : Files) (path : String) (seed : List UInt8) :
    Except KeyError PrivateKey × Files :=
  if (files.lookup path).isSome then (files.load path, files)
  else match generate seed with
    | .ok key => (.ok key, files.save path key)
    | .error e => (.error e, files)

end Files

end ImageLedger.Keys
