import ImageLedger.Number.Decimal

namespace ImageLedger.Authority

structure CacheEntry where
  key : String
  valid : Bool
  message : String
  /-- When the verdict was put, in milliseconds. -/
  cachedAt : Int
  /-- How often the question was asked, the first time included. -/
  requestCount : Nat
deriving DecidableEq

/-- The entries, least recently used first, with the counts of lookups. -/
structure Cache where
  maxSize : Number
  ttlSeconds : Number
  entries : List CacheEntry
  hits : Nat
  misses : Nat
deriving DecidableEq

structure CacheStatistics where
  size : Nat
  maxSize : Number
  hits : Nat
  misses : Nat
  hitRate : String
  ttlSeconds : Number

namespace Cache

/-- Whether a limit is a positive whole number, or zero for no limit. -/
def isLimit (x : Number) : Bool := x = 0 || (x.isInteger && Number.lt 0 x)

/-- The time to live in milliseconds. -/
def ttl (ttlSeconds : Number) : Number := Number.mul ttlSeconds 1000

/-- An empty cache; there must be at least one limit, and each must be whole. -/
def create? (maxSize ttlSeconds : Number) : Option Cache :=
  if isLimit maxSize && isLimit (ttl ttlSeconds) && !(maxSize = 0 && ttl ttlSeconds = 0) then
    some ⟨maxSize, ttlSeconds, [], 0, 0⟩
  else none

def expired (c : Cache) (now : Int) (e : CacheEntry) : Bool :=
  ttl c.ttlSeconds ≠ 0 && Number.lt (ttl c.ttlSeconds) (Number.ofInt (now - e.cachedAt))

def size (c : Cache) : Nat := c.entries.length

def find? (c : Cache) (key : String) : Option CacheEntry := c.entries.find? (·.key = key)

def others (c : Cache) (key : String) : List CacheEntry := c.entries.filter (·.key ≠ key)

/-- The entry of a key unless it has expired. A hit is counted on the entry and makes it the most
recent one; an expired entry is removed. -/
def lookup (c : Cache) (now : Int) (key : String) : Option CacheEntry × Cache :=
  match c.find? key with
  | none => (none, { c with misses := c.misses + 1 })
  | some e =>
    if c.expired now e then (none, { c with entries := c.others key, misses := c.misses + 1 })
    else
      let e := { e with requestCount := e.requestCount + 1 }
      (some e, { c with entries := c.others key ++ [e], hits := c.hits + 1 })

/-- Drops the least recent entry when there is no room for another. -/
def makeRoom (c : Cache) : List CacheEntry :=
  if c.maxSize ≠ 0 && Number.le c.maxSize (Number.ofNat c.entries.length) then c.entries.drop 1
  else c.entries

/-- Keeps a fresh verdict as the most recent entry. -/
def put (c : Cache) (now : Int) (key : String) (valid : Bool) (message : String) : Cache :=
  let e : CacheEntry := ⟨key, valid, message, now, 1⟩
  if (c.find? key).isSome then { c with entries := c.others key ++ [e] }
  else { c with entries := c.makeRoom ++ [e] }

def clear (c : Cache) : Cache := { c with entries := [], hits := 0, misses := 0 }

def cleanup (c : Cache) (now : Int) : Nat × Cache :=
  let kept := c.entries.filter fun e => !c.expired now e
  (c.entries.length - kept.length, { c with entries := kept })

def statistics (c : Cache) : CacheStatistics :=
  let total := c.hits + c.misses
  let rate := if total = 0 then 0
    else Number.mul (Number.div (Number.ofNat c.hits) (Number.ofNat total)) 100
  ⟨c.size, c.maxSize, c.hits, c.misses, rate.oneDecimal ++ "%", c.ttlSeconds⟩

end Cache

end ImageLedger.Authority
