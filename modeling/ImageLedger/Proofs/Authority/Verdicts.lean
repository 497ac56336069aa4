import ImageLedger.Proofs.Authority.History

namespace ImageLedger.Authority

/-- Whether a reply is a success whose body is an object that affirms. -/
def Reply.Affirms (reply : Reply) : Prop :=
  ∃ (status : Nat) (text : String) (fields : List (String × Json)),
    reply = .response status (some text) ∧ 200 ≤ status ∧ status < 300 ∧
    Json.parse? (bodyText text) = some (.object fields) ∧
    fields.lookup "valid" = some (.bool true)

/-- Whether a call was rejected, or the authority has trouble of its own. -/
def Reply.Transient : Reply → Prop
  | .response status _ => 500 ≤ status
  | .timedOut => True
  | .failed _ => True
  | .nothing => False

/-- Asks a question like `ask`, where the call takes some time: a verdict is kept at its end. -/
def inquire (endpoints : Endpoints) (cache : Cache) (now : Int) (took : Nat) (reply : Reply)
    (r : Request) : Outcome :=
  match remembered cache now r with
  | (some v, cache) => ⟨some v, cache, none⟩
  | (none, cache) =>
    match verdictOf r.subject reply with
    | some v => ⟨some v, keep cache (now + took) r v, some (endpoints.callOf r)⟩
    | none => ⟨none, cache, some (endpoints.callOf r)⟩

section Verdict

variable {reply : Reply}

/-- The verdict of a body affirms just when the body is an object that does. -/
theorem valid_verdictOfJson (subject : String) (data : Json) :
    (verdictOfJson subject data).valid = true ↔
      ∃ fields, data = .object fields ∧ fields.lookup "valid" = some (.bool true) := by
  rw [verdictOfJson]
  constructor
  · intro h
    split at h
    next valid hfield =>
      obtain rfl : valid = true := h
      cases data with
      | object fields => exact ⟨fields, rfl, hfield⟩
      | _ => cases hfield
    next => cases h
  · rintro ⟨fields, rfl, hfield⟩
    have hfield : (Json.object fields).field? "valid" = some (.bool true) := hfield
    rw [hfield]

theorem retryable_verdictOfJson (subject : String) (data : Json) :
    (verdictOfJson subject data).retryable = false := by
  rw [verdictOfJson]
  split
  · rfl
  · rfl

theorem affirms_response {status : Nat} {body : Option String} :
    (Reply.response status body).Affirms ↔ (200 ≤ status ∧ status < 300) ∧
      ∃ fields, (body.bind fun s => Json.parse? (bodyText s)) = some (.object fields) ∧
        fields.lookup "valid" = some (.bool true) := by
  constructor
  · rintro ⟨_, text, fields, hreply, hlow, hhigh, hparse, hfield⟩
    cases hreply
    exact ⟨⟨hlow, hhigh⟩, fields, hparse, hfield⟩
  · rintro ⟨⟨hlow, hhigh⟩, fields, hdata, hfield⟩
    obtain ⟨text, rfl, hparse⟩ := Option.bind_eq_some_iff.mp hdata
    exact ⟨status, text, fields, rfl, hlow, hhigh, hparse, hfield⟩

/-- A response has a verdict: what its body says if it is a success, and a failure otherwise. -/
theorem exists_verdictOf_response (subject : String) (status : Nat) (body : Option String) :
    ∃ v, verdictOf subject (.response status body) = some v ∧
      (v.valid = true ↔ (Reply.response status body).Affirms) ∧
      (v.retryable = true ↔ (Reply.response status body).Transient) := by
  rw [affirms_response]
  by_cases hok : 200 ≤ status ∧ status < 300
  · have hcalm : ¬ (Reply.response status body).Transient := Nat.not_le.mpr (by omega)
    cases hdata : body.bind fun s => Json.parse? (bodyText s) with
    | none =>
      refine ⟨malformed, ?_, iff_of_false nofun ?_, iff_of_false nofun hcalm⟩
      · rw [verdictOf, if_pos hok, hdata]
      · rintro ⟨-, fields, hnone, -⟩
        cases hnone
    | some data =>
      refine ⟨verdictOfJson subject data, ?_, ?_, iff_of_false ?_ hcalm⟩
      · rw [verdictOf, if_pos hok, hdata]
      · rw [valid_verdictOfJson, and_iff_right hok]
        simp only [Option.some.injEq]
      · rw [retryable_verdictOfJson]
        exact Bool.false_ne_true
  · refine ⟨⟨false, s!"Authority HTTP error: {status}", 500 ≤ status⟩, ?_, ?_, ?_⟩
    · rw [verdictOf, if_neg hok]
    · exact iff_of_false nofun fun h => hok h.1
    · exact decide_eq_true_iff

/-- A call that comes back has a verdict, which the reply decides. -/
theorem exists_verdictOf (subject : String) (h : reply ≠ .nothing) :
    ∃ v, verdictOf subject reply = some v ∧ (v.valid = true ↔ reply.Affirms) ∧
      (v.retryable = true ↔ reply.Transient) := by
  cases reply with
  | nothing => exact absurd rfl h
  | timedOut =>
    refine ⟨_, rfl, iff_of_false nofun ?_, iff_of_true rfl trivial⟩
    rintro ⟨status, text, fields, hreply, -⟩
    cases hreply
  | failed message =>
    refine ⟨_, rfl, iff_of_false nofun ?_, iff_of_true rfl trivial⟩
    rintro ⟨status, text, fields, hreply, -⟩
    cases hreply
  | response status body => exact exists_verdictOf_response subject status body

end Verdict

/-- The verdict that a question gets from an entry. -/
def CacheEntry.verdict (e : CacheEntry) : Verdict := ⟨e.valid, e.message, false⟩

/-- What a question is answered: a kept verdict without a call, or else the one that the reply
decides, which is kept in turn unless a later attempt may change it. -/
structure Answered (endpoints : Endpoints) (c : Cache) (now : Int) (took : Nat) (reply : Reply)
    (r : Request) (v : Verdict) : Prop where
  verdict : (inquire endpoints c now took reply r).verdict = some v
  valid : v.valid = true ↔ (∃ e, (c.lookup now r.key).1 = some e ∧ e.valid = true) ∨
    (c.lookup now r.key).1 = none ∧ reply.Affirms
  retryable : v.retryable = true ↔ (c.lookup now r.key).1 = none ∧ reply.Transient
  call : (inquire endpoints c now took reply r).call =
    if (c.lookup now r.key).1.isSome then none else some (endpoints.callOf r)
  cache : (inquire endpoints c now took reply r).cache =
    if (c.lookup now r.key).1 = none ∧ v.retryable = false then
      (c.lookup now r.key).2.put (now + took) r.key v.valid v.message
    else (c.lookup now r.key).2

section Answered

variable {endpoints : Endpoints} {c : Cache} {now : Int} {took : Nat} {reply : Reply} {r : Request}

theorem inquire_of_hit (endpoints : Endpoints) (took : Nat) (reply : Reply) {e : CacheEntry}
    (h : (c.lookup now r.key).1 = some e) :
    inquire endpoints c now took reply r =
      ⟨some e.verdict, (c.lookup now r.key).2, none⟩ := by
  rw [inquire, remembered_eq, h]
  rfl

theorem exists_answered (endpoints : Endpoints) (c : Cache) (now : Int) (took : Nat) (r : Request)
    (h : reply ≠ .nothing) : ∃ v, Answered endpoints c now took reply r v := by
  cases hfound : (c.lookup now r.key).1 with
  | some e =>
    have hinquire := inquire_of_hit endpoints took reply hfound
    refine ⟨e.verdict, ?_, ?_, ?_, ?_, ?_⟩
    · rw [hinquire]
    · simp [hfound, CacheEntry.verdict]
    · simp [hfound, CacheEntry.verdict]
    · rw [hinquire, hfound]
      rfl
    · rw [hinquire, if_neg (by simp [hfound])]
  | none =>
    obtain ⟨v, hv, hvalid, hretryable⟩ := exists_verdictOf r.subject h
    have hinquire : inquire endpoints c now took reply r =
        ⟨some v, keep (c.lookup now r.key).2 (now + took) r v, some (endpoints.callOf r)⟩ := by
      rw [inquire, remembered_eq, hfound, hv]
      rfl
    refine ⟨v, ?_, ?_, ?_, ?_, ?_⟩
    · rw [hinquire]
    · simpa [hfound] using hvalid
    · simpa [hfound] using hretryable
    · rw [hinquire, hfound]
      rfl
    · simp only [hinquire, keep, hfound, true_and]
      cases v.retryable <;> rfl

end Answered

namespace Cache

variable {c : Cache} {now : Int} {key other : String}

/-- Whether the entry of a key makes room for a new one. -/
def Yields (c : Cache) (key : String) : Prop :=
  c.isFull = true ∧ ∃ e, c.entries.head? = some e ∧ e.key = key

theorem find?_others_of_ne (c : Cache) (hne : key ≠ other) :
    (c.others other).find? (·.key = key) = c.find? key := by
  rw [others, List.find?_filter, find?]
  congr 1
  funext e
  by_cases hkey : e.key = key
  · simp [hkey, hne]
  · simp [hkey]

theorem find?_append_of_ne {entries : List CacheEntry} {e : CacheEntry} (hkey : e.key = other)
    (hne : key ≠ other) : (entries ++ [e]).find? (·.key = key) = entries.find? (·.key = key) := by
  have hother : ¬ e.key = key := fun h => hne (h.symm.trans hkey)
  rw [List.find?_append]
  simp [hother]

theorem find?_append_self {entries : List CacheEntry} {e : CacheEntry}
    (h : ∀ f ∈ entries, f.key ≠ key) (hkey : e.key = key) :
    (entries ++ [e]).find? (·.key = key) = some e := by
  have hnone : entries.find? (·.key = key) = none :=
    List.find?_eq_none.mpr fun f hf hsame => h f hf (of_decide_eq_true hsame)
  rw [List.find?_append, hnone, Option.none_or]
  exact List.find?_cons_of_pos (decide_eq_true hkey)

theorem find?_put_self (c : Cache) (now : Int) (key : String) (valid : Bool) (message : String) :
    (c.put now key valid message).find? key = some ⟨key, valid, message, now, 1⟩ := by
  obtain ⟨rest, hentries, hrest⟩ := put_entries c now key valid message
  rw [find?, hentries]
  exact find?_append_self hrest rfl

/-- A lookup leaves the entries of other keys alone. -/
theorem find?_lookup_of_ne (c : Cache) (now : Int) (hne : key ≠ other) :
    (c.lookup now other).2.find? key = c.find? key := by
  rcases lookup_eq c now other with ⟨e, hfind, -, hlookup⟩ | ⟨-, hlookup⟩
  · rw [hlookup]
    refine (find?_append_of_ne ?_ hne).trans (find?_others_of_ne c hne)
    exact (mem_of_find? hfind).2
  · rw [hlookup]
    exact find?_others_of_ne c hne

/-- A verdict that is put leaves the entries of other keys alone, but for one that makes room. -/
theorem find?_put_of_ne (c : Cache) (now : Int) (valid : Bool) (message : String)
    (hne : key ≠ other) (hstays : ¬ c.Yields key) :
    (c.put now other valid message).find? key = c.find? key := by
  obtain ⟨rest, hput, hcase⟩ := put_eq c now other valid message
  rw [hput]
  refine (find?_append_of_ne rfl hne).trans ?_
  rcases hcase with ⟨-, rfl⟩ | ⟨-, ⟨-, rfl⟩ | ⟨hfull, rfl⟩⟩
  · exact find?_others_of_ne c hne
  · rfl
  · cases hentries : c.entries with
    | nil => rw [find?, hentries, List.drop_nil]
    | cons d rest =>
      have hother : ¬ d.key = key := fun hkey => hstays ⟨hfull, d, by rw [hentries]; rfl, hkey⟩
      rw [find?, hentries, List.find?_cons_of_neg (by simpa using hother)]
      rfl

/-- Cleaning up leaves an entry that has not expired. -/
theorem find?_cleanup (h : ∀ e, c.find? key = some e → c.expired now e = false) :
    (c.cleanup now).2.find? key = c.find? key := by
  cases hfind : c.find? key with
  | none =>
    refine find?_eq_none.mpr fun e he => ?_
    exact find?_eq_none.mp hfind e (List.mem_filter.mp he).1
  | some e =>
    obtain ⟨hkey, before, after, hentries, hbefore⟩ := List.find?_eq_some_iff_append.mp hfind
    have hfresh := h e hfind
    have hkept : (c.cleanup now).2.entries = before.filter (fun f => !c.expired now f) ++
        e :: after.filter (fun f => !c.expired now f) := by
      rw [cleanup, hentries, List.filter_append, List.filter_cons_of_pos (by rw [hfresh]; rfl)]
    rw [find?, hkept]
    refine List.find?_eq_some_iff_append.mpr ⟨hkey, _, _, rfl, fun f hf => ?_⟩
    exact hbefore f (List.mem_filter.mp hf).1

end Cache

/-- A cache with the time of day. -/
structure Desk where
  cache : Cache
  clock : Int

namespace Desk

inductive Event where
  | asked (r : Request) (reply : Reply) (took : Nat)
  | waited (milliseconds : Nat)
  | cleaned
  | cleared

/-- The key of the question that an event asks. -/
def Event.key? : Event → Option String
  | asked r _ _ => some r.key
  | _ => none

section Events

variable (endpoints : Endpoints)

def inquire (d : Desk) (r : Request) (reply : Reply) (took : Nat) : Outcome :=
  Authority.inquire endpoints d.cache d.clock took reply r

def after (d : Desk) : Event → Desk
  | .asked r reply took => ⟨(d.inquire endpoints r reply took).cache, d.clock + took⟩
  | .waited milliseconds => { d with clock := d.clock + milliseconds }
  | .cleaned => { d with cache := (d.cache.cleanup d.clock).2 }
  | .cleared => { d with cache := d.cache.clear }

def run (d : Desk) (events : List Event) : Desk := events.foldl (after endpoints) d

/-- Whether an event takes out the entry of a key before its time: all is cleared, or the entry
makes room for the verdict on another question. -/
def Evicts (d : Desk) (key : String) : Event → Prop
  | .asked r reply _ => (d.cache.lookup d.clock r.key).1 = none ∧
      (∃ v, verdictOf r.subject reply = some v ∧ v.retryable = false) ∧ r.key ≠ key ∧
      (d.cache.lookup d.clock r.key).2.Yields key
  | .waited _ => False
  | .cleaned => False
  | .cleared => True

/-- Whether none of some events takes out the entry of a key before its time. -/
def Spares (key : String) : Desk → List Event → Prop
  | _, [] => True
  | d, event :: rest => ¬ d.Evicts key event ∧ Spares key (d.after endpoints event) rest

end Events

variable {endpoints : Endpoints} {d : Desk} {event : Event} {events : List Event} {key : String}
  {r : Request} {reply : Reply} {took : Nat}

theorem clock_le_after (d : Desk) (event : Event) : d.clock ≤ (d.after endpoints event).clock := by
  cases event with
  | asked r reply took => exact Int.le_add_of_nonneg_right (Int.natCast_nonneg took)
  | waited milliseconds => exact Int.le_add_of_nonneg_right (Int.natCast_nonneg milliseconds)
  | cleaned => exact Int.le_refl _
  | cleared => exact Int.le_refl _

theorem clock_le_run (d : Desk) (events : List Event) :
    d.clock ≤ (d.run endpoints events).clock := by
  induction events generalizing d with
  | nil => exact Int.le_refl _
  | cons event rest ih => exact (clock_le_after d event).trans (ih _)

/-- A question leaves the cache as its lookup did, or keeps its verdict there. -/
theorem cache_inquire (endpoints : Endpoints) (d : Desk) (r : Request) (reply : Reply)
    (took : Nat) :
    (d.inquire endpoints r reply took).cache = (d.cache.lookup d.clock r.key).2 ∨
      ∃ v, verdictOf r.subject reply = some v ∧ v.retryable = false ∧
        (d.cache.lookup d.clock r.key).1 = none ∧
        (d.inquire endpoints r reply took).cache =
          (d.cache.lookup d.clock r.key).2.put (d.clock + took) r.key v.valid v.message := by
  rw [inquire, Authority.inquire, remembered_eq]
  cases (d.cache.lookup d.clock r.key).1 with
  | some e => exact Or.inl rfl
  | none =>
    simp only [Option.map_none]
    cases hv : verdictOf r.subject reply with
    | none => exact Or.inl rfl
    | some v =>
      simp only [keep]
      cases hretryable : v.retryable with
      | true => exact Or.inl rfl
      | false => exact Or.inr ⟨v, rfl, hretryable, trivial, rfl⟩

/-- An event leaves the entry of a key that it does not ask for, unless it takes it out. -/
theorem find?_after (hother : event.key? ≠ some key) (hspared : ¬ d.Evicts key event)
    (hfresh : ∀ e, d.cache.find? key = some e → d.cache.expired d.clock e = false) :
    (d.after endpoints event).cache.find? key = d.cache.find? key := by
  cases event with
  | asked r reply took =>
    have hne : key ≠ r.key := fun h => hother (congrArg some h.symm)
    have hlooked := Cache.find?_lookup_of_ne d.cache d.clock hne
    change (d.inquire endpoints r reply took).cache.find? key = d.cache.find? key
    rcases cache_inquire endpoints d r reply took with hcache | ⟨v, hv, hkept, hmissed, hcache⟩
    · rw [hcache, hlooked]
    · have hstays : ¬ (d.cache.lookup d.clock r.key).2.Yields key :=
        fun hyields => hspared ⟨hmissed, ⟨v, hv, hkept⟩, hne.symm, hyields⟩
      rw [hcache, Cache.find?_put_of_ne _ _ _ _ hne hstays, hlooked]
  | waited milliseconds => rfl
  | cleaned => exact Cache.find?_cleanup hfresh
  | cleared => exact absurd trivial hspared

theorem ttlSeconds_after (d : Desk) (event : Event) :
    (d.after endpoints event).cache.ttlSeconds = d.cache.ttlSeconds := by
  cases event with
  | asked r reply took =>
    change (d.inquire endpoints r reply took).cache.ttlSeconds = d.cache.ttlSeconds
    rcases cache_inquire endpoints d r reply took with hcache | ⟨v, -, -, -, hcache⟩
    · rw [hcache, Cache.ttlSeconds_lookup]
    · rw [hcache, Cache.ttlSeconds_put, Cache.ttlSeconds_lookup]
  | _ => rfl

theorem ttlSeconds_run (d : Desk) (events : List Event) :
    (d.run endpoints events).cache.ttlSeconds = d.cache.ttlSeconds := by
  induction events generalizing d with
  | nil => rfl
  | cons event rest ih => exact (ih _).trans (ttlSeconds_after d event)

/-- What has not expired in the end had not expired before. -/
theorem fresh_of_run {e : CacheEntry}
    (h : (d.run endpoints events).cache.expired (d.run endpoints events).clock e = false) :
    d.cache.expired d.clock e = false := by
  by_contra hold
  rw [Bool.not_eq_false, Cache.expired, Bool.and_eq_true] at hold
  have hlater :
      Cache.outlived d.cache.ttlSeconds e.cachedAt (d.run endpoints events).clock = true :=
    Cache.outlived_of_le hold.2 (clock_le_run d events)
  rw [Cache.expired, ttlSeconds_run, hold.1, Bool.true_and] at h
  exact absurd hlater (Bool.eq_false_iff.mp h)

/-- A question about an entry that has not expired gets its verdict without a call, and the entry
stays. -/
theorem inquire_of_find? {e : CacheEntry} (h : d.cache.find? r.key = some e)
    (hfresh : d.cache.expired d.clock e = false) (endpoints : Endpoints) (reply : Reply)
    (took : Nat) :
    (d.inquire endpoints r reply took).verdict = some e.verdict ∧
      (d.inquire endpoints r reply took).call = none ∧
      (d.inquire endpoints r reply took).cache.find? r.key =
        some { e with requestCount := e.requestCount + 1 } := by
  have hlookup := Cache.lookup_of_find? h hfresh
  rw [inquire, inquire_of_hit endpoints took reply (congrArg Prod.fst hlookup), hlookup]
  refine ⟨rfl, rfl, ?_⟩
  exact Cache.find?_append_self (fun f hf => Cache.key_ne_of_mem_others hf) (Cache.mem_of_find? h).2

/-- Whether a key has an entry with the same verdict, kept at the same time. -/
def Serves (d : Desk) (key : String) (e : CacheEntry) : Prop :=
  ∃ f, d.cache.find? key = some f ∧ f.verdict = e.verdict ∧ f.cachedAt = e.cachedAt

section Serves

variable {e : CacheEntry}

theorem expired_congr {f : CacheEntry} (h : f.cachedAt = e.cachedAt) (c : Cache) (now : Int) :
    c.expired now f = c.expired now e := by
  rw [Cache.expired, h]
  rfl

theorem serves_after (h : d.Serves key e) (hspared : ¬ d.Evicts key event)
    (hfresh : d.cache.expired d.clock e = false) : (d.after endpoints event).Serves key e := by
  obtain ⟨f, hfind, hverdict, htime⟩ := h
  rw [← expired_congr htime] at hfresh
  by_cases hasked : event.key? = some key
  · cases event with
    | asked r reply took =>
      obtain rfl := Option.some.inj hasked
      obtain ⟨-, -, hstays⟩ := inquire_of_find? hfind hfresh endpoints reply took
      exact ⟨_, hstays, hverdict, htime⟩
    | _ => cases hasked
  · refine ⟨f, ?_, hverdict, htime⟩
    rw [find?_after hasked hspared, hfind]
    intro g hg
    obtain rfl := Option.some.inj (hfind.symm.trans hg)
    exact hfresh

theorem serves_run (h : d.Serves key e) (hspared : Spares endpoints key d events)
    (hfresh : (d.run endpoints events).cache.expired (d.run endpoints events).clock e = false) :
    (d.run endpoints events).Serves key e := by
  induction events generalizing d with
  | nil => exact h
  | cons event rest ih =>
    have hnow : d.cache.expired d.clock e = false := fresh_of_run hfresh
    exact ih (serves_after h hspared.1 hnow) hspared.2 hfresh

end Serves

/-- Without a question that is answered for good no entry comes. -/
theorem absent_after (h : d.cache.find? key = none) (hother : event.key? ≠ some key) :
    (d.after endpoints event).cache.find? key = none := by
  by_cases hevicts : d.Evicts key event
  · cases event with
    | asked r reply took =>
      obtain ⟨-, -, hne, -, e, hhead, hkey⟩ := hevicts
      have hnone := (Cache.find?_lookup_of_ne d.cache d.clock hne.symm).trans h
      exact absurd hkey (Cache.find?_eq_none.mp hnone e (List.mem_of_mem_head? hhead))
    | waited milliseconds => exact h
    | cleaned => exact hevicts.elim
    | cleared => rfl
  · rw [find?_after hother hevicts, h]
    rw [h]
    nofun

theorem absent_run (endpoints : Endpoints) (h : d.cache.find? key = none)
    (hother : ∀ event ∈ events, event.key? ≠ some key) :
    (d.run endpoints events).cache.find? key = none := by
  induction events generalizing d with
  | nil => exact h
  | cons event rest ih =>
    rw [List.forall_mem_cons] at hother
    exact ih (absent_after h hother.1) hother.2

/-- Whether a question keeps getting a verdict without a call, until the entry of the verdict
expires or is taken out. -/
def AnswersUntilLost (endpoints : Endpoints) (d : Desk) (r : Request) (v : Verdict) : Prop :=
  ∃ e, d.cache.find? r.key = some e ∧ ∀ events, Spares endpoints r.key d events →
    (d.run endpoints events).cache.expired (d.run endpoints events).clock e = false →
    ∀ (s : Request) (reply : Reply) (took : Nat), s.key = r.key →
      ((d.run endpoints events).inquire endpoints s reply took).verdict = some v ∧
      ((d.run endpoints events).inquire endpoints s reply took).call = none

/-- Whether the next question with the same key is put to the authority, whatever is done before. -/
def CallsNext (endpoints : Endpoints) (d : Desk) (r : Request) : Prop :=
  ∀ events : List Event, (∀ event ∈ events, event.key? ≠ some r.key) →
    ∀ (s : Request) (reply : Reply) (took : Nat), s.key = r.key →
      ((d.run endpoints events).inquire endpoints s reply took).call = some (endpoints.callOf s)

/-- A verdict for good is in the cache once it is given. -/
theorem exists_entry {v : Verdict} (h : Answered endpoints d.cache d.clock took reply r v)
    (hgood : v.retryable = false) :
    ∃ e, (d.after endpoints (.asked r reply took)).cache.find? r.key = some e ∧ e.verdict = v := by
  rcases Cache.lookup_eq d.cache d.clock r.key with ⟨e, hfind, hfresh, -⟩ | ⟨-, hlookup⟩
  · obtain ⟨hverdict, -, hstays⟩ := inquire_of_find? hfind hfresh endpoints reply took
    exact ⟨_, hstays, Option.some.inj (hverdict.symm.trans h.verdict)⟩
  · have hcache := h.cache
    rw [if_pos ⟨congrArg Prod.fst hlookup, hgood⟩] at hcache
    refine ⟨⟨r.key, v.valid, v.message, d.clock + took, 1⟩, ?_, ?_⟩
    · exact (congrArg (Cache.find? · r.key) hcache).trans (Cache.find?_put_self ..)
    · rw [CacheEntry.verdict, ← hgood]

/-- A verdict that may change is not in the cache, nor is an older one. -/
theorem no_entry {v : Verdict} (h : Answered endpoints d.cache d.clock took reply r v)
    (hretryable : v.retryable = true) :
    (d.after endpoints (.asked r reply took)).cache.find? r.key = none := by
  obtain ⟨hmissed, -⟩ := h.retryable.mp hretryable
  have hcache := h.cache
  rw [if_neg (by simp [hretryable])] at hcache
  refine (congrArg (Cache.find? · r.key) hcache).trans ?_
  rcases Cache.lookup_eq d.cache d.clock r.key with ⟨e, -, -, hlookup⟩ | ⟨-, hlookup⟩
  · cases (congrArg Prod.fst hlookup).symm.trans hmissed
  · rw [hlookup]
    exact Cache.find?_eq_none.mpr fun e he => Cache.key_ne_of_mem_others he

theorem call_of_absent (h : d.cache.find? r.key = none) (endpoints : Endpoints) (reply : Reply)
    (took : Nat) : (d.inquire endpoints r reply took).call = some (endpoints.callOf r) := by
  have hmissed : (d.cache.lookup d.clock r.key).1 = none := by rw [Cache.lookup, h]
  rw [inquire, Authority.inquire, remembered_eq, hmissed]
  simp only [Option.map_none]
  split
  · rfl
  · rfl

/-- Every question that comes back is answered, by the kept verdict or by what the reply says. A
verdict for good is given again until it is lost, and after any other the authority is called. -/
theorem answered_until_lost (endpoints : Endpoints) (d : Desk) (r : Request) (reply : Reply)
    (took : Nat) (h : reply ≠ .nothing) :
    ∃ v, Answered endpoints d.cache d.clock took reply r v ∧
      (v.retryable = false →
        AnswersUntilLost endpoints (d.after endpoints (.asked r reply took)) r v) ∧
      (v.retryable = true → CallsNext endpoints (d.after endpoints (.asked r reply took)) r) := by
  obtain ⟨v, hv⟩ := exists_answered endpoints d.cache d.clock took r h
  refine ⟨v, hv, fun hgood => ?_, fun hretryable events hother s later span hs => ?_⟩
  · obtain ⟨e, hfind, rfl⟩ := exists_entry hv hgood
    refine ⟨e, hfind, fun events hspared hfresh s later span hs => ?_⟩
    obtain ⟨f, hlater, hverdict, htime⟩ := serves_run ⟨e, hfind, rfl, rfl⟩ hspared hfresh
    rw [← expired_congr htime] at hfresh
    rw [← hs] at hlater
    obtain ⟨hanswer, hcall, -⟩ := inquire_of_find? hlater hfresh endpoints later span
    exact ⟨hverdict ▸ hanswer, hcall⟩
  · have hlater := absent_run endpoints (no_entry hv hretryable) hother
    rw [← hs] at hlater
    exact call_of_absent hlater endpoints later span

/-- A refusal is given again until its hour is over; after a timeout the authority is called. -/
theorem answered_until_lost_samples :
    let r := Request.token ⟨"c", "t", "n", 3, 7, "authority_1"⟩
    let d : Desk := ⟨⟨10, 3600, [], 0, 0⟩, 0⟩
    let refused := d.run ⟨"a", "b"⟩ [.asked r (.response 404 none) 25, .waited 3600000]
    let delayed := d.run ⟨"a", "b"⟩ [.asked r .timedOut 5000, .cleaned]
    (refused.inquire ⟨"a", "b"⟩ r .timedOut 0).verdict =
        some ⟨false, "Authority HTTP error: 404", false⟩ ∧
      (refused.inquire ⟨"a", "b"⟩ r .timedOut 0).call = none ∧
      (delayed.inquire ⟨"a", "b"⟩ r .timedOut 0).call = some ⟨"a", r.body⟩ := by
  intro r d
  obtain ⟨v, hv, hgood, -⟩ := answered_until_lost ⟨"a", "b"⟩ d r (.response 404 none) 25 nofun
  obtain ⟨w, hw, -, hcall⟩ := answered_until_lost ⟨"a", "b"⟩ d r .timedOut 5000 nofun
  obtain rfl : ⟨false, "Authority HTTP error: 404", false⟩ = v := Option.some.inj hv.verdict
  obtain rfl : ⟨false, "Authority validation timeout", true⟩ = w := Option.some.inj hw.verdict
  obtain ⟨e, he, hanswers⟩ := hgood rfl
  obtain rfl : ⟨r.key, false, "Authority HTTP error: 404", 25, 1⟩ = e :=
    Option.some.inj ((Cache.find?_put_self ⟨10, 3600, [], 0, 1⟩ ..).symm.trans he)
  obtain ⟨hverdict, hnone⟩ := hanswers [.waited 3600000] ⟨not_false, trivial⟩ (by decide +kernel) r
    .timedOut 0 rfl
  refine ⟨hverdict, hnone, ?_⟩
  exact hcall rfl [.cleaned] (by simp [Event.key?]) r .timedOut 0 rfl

end Desk

end ImageLedger.Authority
