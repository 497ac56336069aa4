import ImageLedger.Proofs.Authority.KeptVerdicts
import ImageLedger.Proofs.Number.Rounding
import ImageLedger.Proofs.Text.Distinct

namespace ImageLedger.Authority.Cache

/-- A use of a cache on which later answers depend. -/
inductive Use where
  | looked (key : String) (found : Bool)
  | put (key : String) (valid : Bool) (message : String) (time : Int)
  | cleared

/-- The caches that come of any use while time goes on, with the uses so far, the last one first. -/
inductive Used (maxSize ttlSeconds : Number) : List Use → Int → Cache → Prop where
  | created {c : Cache} (clock : Int) (h : create? maxSize ttlSeconds = some c) :
      Used maxSize ttlSeconds [] clock c
  | waited {uses : List Use} {clock : Int} {c : Cache} (h : Used maxSize ttlSeconds uses clock c)
      (milliseconds : Nat) : Used maxSize ttlSeconds uses (clock + milliseconds) c
  | looked {uses : List Use} {clock : Int} {c : Cache} (h : Used maxSize ttlSeconds uses clock c)
      (r : Request) :
      Used maxSize ttlSeconds (.looked r.key (c.lookup clock r.key).1.isSome :: uses) clock
        (c.lookup clock r.key).2
  | put {uses : List Use} {clock : Int} {c : Cache} (h : Used maxSize ttlSeconds uses clock c)
      (r : Request) (valid : Bool) (message : String) :
      Used maxSize ttlSeconds (.put r.key valid message clock :: uses) clock
        (c.put clock r.key valid message)
  | cleaned {uses : List Use} {clock : Int} {c : Cache} (h : Used maxSize ttlSeconds uses clock c) :
      Used maxSize ttlSeconds uses clock (c.cleanup clock).2
  | cleared {uses : List Use} {clock : Int} {c : Cache} (h : Used maxSize ttlSeconds uses clock c) :
      Used maxSize ttlSeconds (.cleared :: uses) clock c.clear

/-- How often a cache was asked since all was cleared. -/
def lookups : List Use → Nat
  | [] => 0
  | .looked _ _ :: rest => lookups rest + 1
  | .put _ _ _ _ :: rest => lookups rest
  | .cleared :: _ => 0

/-- A verdict that was put, with the number of times it was found since. -/
structure Given where
  valid : Bool
  message : String
  time : Int
  found : Nat

/-- The verdict that was put last under a key, unless all was cleared since. -/
def latest? (key : String) : List Use → Option Given
  | [] => none
  | .looked k found :: rest =>
    if k = key ∧ found = true then
      (latest? key rest).map fun g => { g with found := g.found + 1 }
    else latest? key rest
  | .put k valid message time :: rest =>
    if k = key then some ⟨valid, message, time, 0⟩ else latest? key rest
  | .cleared :: _ => none

/-- The key that a use makes the most recent one. -/
def Use.renewed? : Use → Option String
  | looked key found => if found then some key else none
  | put key _ _ _ => some key
  | cleared => none

/-- The keys that were put or found since one was itself, the last one first. -/
def othersSince (key : String) (uses : List Use) : List String :=
  (uses.filterMap Use.renewed?).takeWhile (· ≠ key)

/-- Whether a verdict that was put at one time is older than the time to live at another. -/
def outlived (ttlSeconds : Number) (time now : Int) : Bool :=
  Number.lt (ttl ttlSeconds) (Number.ofInt (now - time))

/-- The entry that a verdict has under a key; the first question counts beside those that found
it. -/
def Given.entry (g : Given) (key : String) : CacheEntry :=
  ⟨key, g.valid, g.message, g.time, g.found + 1⟩

section Uses

variable {key other : String} {u : Use} {uses : List Use}

theorem othersSince_renewed (h : u.renewed? = some key) (hne : key ≠ other) :
    othersSince other (u :: uses) = key :: othersSince other uses := by
  rw [othersSince, List.filterMap_cons_some h, List.takeWhile_cons_of_pos (by simpa using hne)]
  rfl

theorem othersSince_quiet (h : u.renewed? = none) (key : String) :
    othersSince key (u :: uses) = othersSince key uses := by
  rw [othersSince, List.filterMap_cons_none h]
  rfl

/-- A verdict that is found is the one that was put last, found once more. -/
theorem latest?_found {g : Given} (h : latest? key uses = some g) :
    latest? key (.looked key true :: uses) = some { g with found := g.found + 1 } := by
  rw [latest?, if_pos ⟨rfl, rfl⟩, h, Option.map_some]

/-- A key that is used drives no other one further to the front. -/
theorem length_distinct_othersSince_le (u : Use) (uses : List Use) (key : String)
    (hne : u.renewed? ≠ some key) :
    (Text.distinct (othersSince key uses)).length ≤
      (Text.distinct (othersSince key (u :: uses))).length := by
  have hsub : ∀ s ∈ Text.distinct (othersSince key uses),
      s ∈ Text.distinct (othersSince key (u :: uses)) := by
    intro s hs
    rw [Text.mem_distinct] at hs ⊢
    cases hu : u.renewed? with
    | none =>
      rw [othersSince_quiet hu]
      exact hs
    | some k =>
      rw [othersSince_renewed hu fun h => hne (hu.trans (congrArg some h))]
      exact List.mem_cons_of_mem k hs
  exact ((Text.nodup_distinct _).subperm hsub).length_le

end Uses

section Steps

variable {c : Cache} {now : Int} {key : String}

theorem key_ne_of_mem_others {e : CacheEntry} (h : e ∈ c.others key) : e.key ≠ key :=
  of_decide_eq_true (List.mem_filter.mp h).2

theorem mem_others_or {e : CacheEntry} (h : e ∈ c.entries) : e ∈ c.others key ∨ e.key = key := by
  by_cases hkey : e.key = key
  · exact Or.inr hkey
  · exact Or.inl (List.mem_filter.mpr ⟨h, decide_eq_true hkey⟩)

theorem mem_of_find? {e : CacheEntry} (h : c.find? key = some e) :
    e ∈ c.entries ∧ e.key = key := by
  have hkey := List.find?_some h
  exact ⟨List.mem_of_find?_eq_some h, of_decide_eq_true hkey⟩

theorem find?_eq_none : c.find? key = none ↔ ∀ e ∈ c.entries, e.key ≠ key := by
  rw [find?, List.find?_eq_none]
  simp

theorem lookup_of_find? {e : CacheEntry} (h : c.find? key = some e)
    (hfresh : c.expired now e = false) :
    c.lookup now key = (some { e with requestCount := e.requestCount + 1 },
      { c with
        entries := c.others key ++ [{ e with requestCount := e.requestCount + 1 }]
        hits := c.hits + 1 }) := by
  rw [lookup, h]
  exact if_neg (Bool.eq_false_iff.mp hfresh)

/-- A lookup finds an entry that has not expired and renews it, or leaves no entry of the key. -/
theorem lookup_eq (c : Cache) (now : Int) (key : String) :
    (∃ e, c.find? key = some e ∧ c.expired now e = false ∧
      c.lookup now key = (some { e with requestCount := e.requestCount + 1 },
        { c with
          entries := c.others key ++ [{ e with requestCount := e.requestCount + 1 }]
          hits := c.hits + 1 })) ∨
    ((∀ e, c.find? key = some e → c.expired now e = true) ∧
      c.lookup now key = (none, { c with entries := c.others key, misses := c.misses + 1 })) := by
  cases hfind : c.find? key with
  | none =>
    have hothers : c.others key = c.entries :=
      List.filter_eq_self.mpr fun e he => decide_eq_true (find?_eq_none.mp hfind e he)
    refine Or.inr ⟨nofun, ?_⟩
    rw [lookup, hfind, hothers]
  | some e =>
    by_cases hexpired : c.expired now e = true
    · refine Or.inr ⟨fun f hf => Option.some.inj hf ▸ hexpired, ?_⟩
      rw [lookup, hfind]
      exact if_pos hexpired
    · rw [Bool.not_eq_true] at hexpired
      exact Or.inl ⟨e, rfl, hexpired, lookup_of_find? hfind hexpired⟩

/-- Whether a new key takes the place of the least recent one. -/
def isFull (c : Cache) : Bool :=
  c.maxSize ≠ 0 && Number.le c.maxSize (Number.ofNat c.entries.length)

/-- A verdict that is put replaces the one of its key, or takes a place that is free or is made
free. -/
theorem put_eq (c : Cache) (now : Int) (key : String) (valid : Bool) (message : String) :
    ∃ rest : List CacheEntry,
      c.put now key valid message =
        { c with entries := rest ++ [⟨key, valid, message, now, 1⟩] } ∧
      ((∃ e ∈ c.entries, e.key = key) ∧ rest = c.others key ∨
        (∀ e ∈ c.entries, e.key ≠ key) ∧
          (c.isFull = false ∧ rest = c.entries ∨ c.isFull = true ∧ rest = c.entries.drop 1)) := by
  cases hfind : c.find? key with
  | some e =>
    refine ⟨c.others key, ?_, Or.inl ⟨⟨e, mem_of_find? hfind⟩, rfl⟩⟩
    rw [put, hfind]
    rfl
  | none =>
    refine ⟨c.makeRoom, ?_, Or.inr ⟨find?_eq_none.mp hfind, ?_⟩⟩
    · rw [put, hfind]
      rfl
    · cases hfull : c.isFull with
      | false => exact Or.inl ⟨rfl, if_neg (Bool.eq_false_iff.mp hfull)⟩
      | true => exact Or.inr ⟨rfl, if_pos hfull⟩

end Steps

/-- What the entries and counts of a cache have to do with its uses. Entries are in the order of
their last use, and a verdict is missing only when it has outlived its time or too many other keys
were used since. -/
structure InStep (most : Nat) (uses : List Use) (clock : Int) (c : Cache) : Prop where
  limit : c.maxSize = Number.ofNat most
  lasting : Number.lt 0 (ttl c.ttlSeconds) = true
  counted : c.hits + c.misses = lookups uses
  bounded : c.entries.length ≤ most
  nodup : (c.entries.map (·.key)).Nodup
  given : ∀ e ∈ c.entries, ∃ g, latest? e.key uses = some g ∧ e = g.entry e.key
  recent : c.entries.Pairwise fun e f => f.key ∈ othersSince e.key uses
  kept : ∀ key g, latest? key uses = some g → (∃ e ∈ c.entries, e.key = key) ∨
    outlived c.ttlSeconds g.time clock = true ∨
    Number.le c.maxSize (Number.ofNat (Text.distinct (othersSince key uses)).length) = true

section InStep

variable {most : Nat} {uses : List Use} {clock : Int} {c c' : Cache} {key : String} {g : Given}

theorem InStep.expired_eq (h : InStep most uses clock c) (now : Int) (e : CacheEntry) :
    c.expired now e = outlived c.ttlSeconds e.cachedAt now := by
  have hne : ttl c.ttlSeconds ≠ 0 := by
    intro hzero
    have hself := h.lasting
    rw [hzero] at hself
    exact absurd hself (by decide)
  rw [expired, decide_eq_true hne, Bool.true_and]
  rfl

/-- The entry of a key is the one of the verdict that was put last. -/
theorem InStep.exists_given (h : InStep most uses clock c) {e : CacheEntry} (he : e ∈ c.entries)
    (hkey : e.key = key) : ∃ g, latest? key uses = some g ∧ e = g.entry key := by
  rw [← hkey]
  exact h.given e he

theorem InStep.entry_eq (h : InStep most uses clock c) {e : CacheEntry} (he : e ∈ c.entries)
    (hkey : e.key = key) (hlatest : latest? key uses = some g) : e = g.entry key := by
  obtain ⟨g', hg', hentry⟩ := h.exists_given he hkey
  obtain rfl := Option.some.inj (hg'.symm.trans hlatest)
  exact hentry

theorem InStep.find?_eq (h : InStep most uses clock c) {e : CacheEntry} (he : e ∈ c.entries)
    (hkey : e.key = key) : c.find? key = some e := by
  cases hfind : c.find? key with
  | none => exact absurd hkey (find?_eq_none.mp hfind e he)
  | some f =>
    obtain ⟨hf, hfkey⟩ := mem_of_find? hfind
    obtain ⟨g, hg, hentry⟩ := h.exists_given he hkey
    rw [hentry, h.entry_eq hf hfkey hg]

/-- A verdict that has outlived its time stays so. -/
theorem outlived_of_le {ttlSeconds : Number} {time now later : Int}
    (h : outlived ttlSeconds time now = true) (hle : now ≤ later) :
    outlived ttlSeconds time later = true :=
  Number.lt_of_lt_of_le h (Number.ofInt_mono (Int.sub_le_sub_right hle time))

theorem InStep.waited (h : InStep most uses clock c) (milliseconds : Nat) :
    InStep most uses (clock + milliseconds) c := by
  refine { h with kept := fun key g hlatest => ?_ }
  refine (h.kept key g hlatest).imp_right (Or.imp_left fun hold => ?_)
  exact outlived_of_le hold (Int.le_add_of_nonneg_right (Int.natCast_nonneg _))

theorem InStep.length_others (h : InStep most uses clock c) {e : CacheEntry} (he : e ∈ c.entries)
    (hkey : e.key = key) : (c.others key).length + 1 ≤ most := by
  have hsub : (c.others key).Sublist c.entries := List.filter_sublist
  refine Nat.lt_of_lt_of_le (Nat.lt_of_le_of_ne hsub.length_le fun hlength => ?_) h.bounded
  rw [← hsub.eq_of_length hlength] at he
  exact key_ne_of_mem_others he hkey

/-- A use that renews no key and leaves out only what has outlived its time. -/
theorem InStep.drop {uses' : List Use} (h : InStep most uses clock c)
    (hmaxSize : c'.maxSize = c.maxSize) (httl : c'.ttlSeconds = c.ttlSeconds)
    (hcounted : c'.hits + c'.misses = lookups uses') (hsub : c'.entries.Sublist c.entries)
    (hlost : ∀ e ∈ c.entries, e ∈ c'.entries ∨ outlived c.ttlSeconds e.cachedAt clock = true)
    (hlatest : ∀ key, latest? key uses' = latest? key uses)
    (hothers : ∀ key, othersSince key uses' = othersSince key uses) :
    InStep most uses' clock c' where
  limit := hmaxSize.trans h.limit
  lasting := httl ▸ h.lasting
  counted := hcounted
  bounded := hsub.length_le.trans h.bounded
  nodup := (hsub.map _).nodup h.nodup
  given := by
    intro e he
    rw [hlatest]
    exact h.given e (hsub.subset he)
  recent := by
    simp only [hothers]
    exact h.recent.sublist hsub
  kept := by
    intro key g hg
    rw [hlatest] at hg
    rw [hmaxSize, httl, hothers]
    rcases h.kept key g hg with ⟨e, he, hkey⟩ | hgone
    · rcases hlost e he with hstays | hold
      · exact Or.inl ⟨e, hstays, hkey⟩
      · rw [h.entry_eq he hkey hg] at hold
        exact Or.inr (Or.inl hold)
    · exact Or.inr hgone

/-- A use that makes a key the most recent one. What it leaves out is the entry of that key, or one
that too many keys were used since. -/
theorem InStep.renew {u : Use} {rest : List CacheEntry} (h : InStep most uses clock c)
    (hmaxSize : c'.maxSize = c.maxSize) (httl : c'.ttlSeconds = c.ttlSeconds)
    (hcounted : c'.hits + c'.misses = lookups (u :: uses)) (hu : u.renewed? = some key)
    (hlatest : latest? key (u :: uses) = some g)
    (hothers : ∀ other, key ≠ other → latest? other (u :: uses) = latest? other uses)
    (hentries : c'.entries = rest ++ [g.entry key]) (hsub : rest.Sublist c.entries)
    (hrest : ∀ e ∈ rest, e.key ≠ key) (hbounded : rest.length + 1 ≤ most)
    (hlost : ∀ e ∈ c.entries, e ∈ rest ∨ e.key = key ∨ Number.le c.maxSize
      (Number.ofNat (Text.distinct (othersSince e.key (u :: uses))).length) = true) :
    InStep most (u :: uses) clock c' where
  limit := hmaxSize.trans h.limit
  lasting := httl ▸ h.lasting
  counted := hcounted
  bounded := by
    rw [hentries, List.length_append, List.length_singleton]
    exact hbounded
  nodup := by
    rw [hentries, List.map_append, List.nodup_append]
    refine ⟨(hsub.map _).nodup h.nodup, List.nodup_singleton _, fun k hk l hl => ?_⟩
    obtain ⟨e, he, rfl⟩ := List.mem_map.mp hk
    obtain rfl := List.mem_singleton.mp hl
    exact hrest e he
  given := by
    intro e he
    rw [hentries] at he
    rcases List.mem_append.mp he with he | he
    · rw [hothers e.key (hrest e he).symm]
      exact h.given e (hsub.subset he)
    · obtain rfl := List.mem_singleton.mp he
      exact ⟨g, hlatest, rfl⟩
  recent := by
    have hbefore : ∀ e ∈ rest, othersSince e.key (u :: uses) = key :: othersSince e.key uses :=
      fun e he => othersSince_renewed hu (hrest e he).symm
    rw [hentries, List.pairwise_append]
    refine ⟨?_, List.pairwise_singleton _ _, fun e he f hf => ?_⟩
    · refine (h.recent.sublist hsub).imp_of_mem fun he _ hmem => ?_
      rw [hbefore _ he]
      exact List.mem_cons_of_mem key hmem
    · obtain rfl := List.mem_singleton.mp hf
      rw [hbefore e he]
      exact List.mem_cons_self
  kept := by
    intro other g' hg'
    rw [hmaxSize, httl, hentries]
    by_cases hkey : key = other
    · exact Or.inl ⟨g.entry key, List.mem_append_right _ List.mem_cons_self, hkey⟩
    · rw [hothers other hkey] at hg'
      rcases h.kept other g' hg' with ⟨e, he, rfl⟩ | hold | hmany
      · rcases hlost e he with hstays | hsame | hmany
        · exact Or.inl ⟨e, List.mem_append_left _ hstays, rfl⟩
        · exact absurd hsame.symm hkey
        · exact Or.inr (Or.inr hmany)
      · exact Or.inr (Or.inl hold)
      · have hmore := length_distinct_othersSince_le u uses other
          fun hsome => hkey (Option.some.inj (hu.symm.trans hsome))
        exact Or.inr (Or.inr (Number.le_trans hmany (Number.ofNat_mono hmore)))

theorem InStep.looked (h : InStep most uses clock c) (key : String) :
    InStep most (.looked key (c.lookup clock key).1.isSome :: uses) clock
      (c.lookup clock key).2 := by
  have hsub : (c.others key).Sublist c.entries := List.filter_sublist
  rcases lookup_eq c clock key with ⟨e, hfind, -, hlookup⟩ | ⟨hexpired, hlookup⟩
  · obtain ⟨he, hkey⟩ := mem_of_find? hfind
    obtain ⟨g, hg, hentry⟩ := h.exists_given he hkey
    have hothers : ∀ other, key ≠ other →
        latest? other (.looked key true :: uses) = latest? other uses :=
      fun other hne => if_neg fun hparts => hne hparts.1
    rw [hlookup]
    refine h.renew rfl rfl ?_ rfl (latest?_found hg) hothers ?_ hsub
      (fun f hf => key_ne_of_mem_others hf) (h.length_others he hkey)
      fun f hf => (mem_others_or hf).imp_right Or.inl
    · have hcounted := h.counted
      change c.hits + 1 + c.misses = lookups uses + 1
      omega
    · rw [hentry]
      rfl
  · rw [hlookup]
    refine h.drop rfl rfl ?_ hsub (fun e he => ?_) (fun other => ?_) (othersSince_quiet rfl)
    · have hcounted := h.counted
      change c.hits + (c.misses + 1) = lookups uses + 1
      omega
    · refine (mem_others_or he).imp_right fun hkey => ?_
      rw [← h.expired_eq]
      exact hexpired e (h.find?_eq he hkey)
    · exact if_neg fun hparts => by cases hparts.2

theorem InStep.isFull_iff (h : InStep most uses clock c) (hmost : 1 ≤ most) :
    c.isFull = true ↔ Number.le c.maxSize (Number.ofNat c.entries.length) = true := by
  have hne : c.maxSize ≠ 0 := by
    rw [h.limit, Ne, Number.ofNat_eq_zero]
    omega
  rw [isFull, decide_eq_true hne, Bool.true_and]

/-- In a full cache as many other keys as it has places were used since the least recent one,
together with a new key. -/
theorem InStep.crowded {u : Use} {d : CacheEntry} {rest : List CacheEntry}
    (h : InStep most uses clock c) (hu : u.renewed? = some key) (hentries : c.entries = d :: rest)
    (habsent : ∀ e ∈ c.entries, e.key ≠ key) :
    c.entries.length ≤ (Text.distinct (othersSince d.key (u :: uses))).length := by
  have hrecent := h.recent
  have hnodup := h.nodup
  rw [hentries] at hrecent hnodup habsent ⊢
  have hkeys : (key :: rest.map (·.key)).Nodup := by
    refine List.nodup_cons.mpr ⟨fun hmem => ?_, (List.nodup_cons.mp hnodup).2⟩
    obtain ⟨e, he, hkey⟩ := List.mem_map.mp hmem
    exact habsent e (List.mem_cons_of_mem d he) hkey
  have hsub : ∀ k ∈ key :: rest.map (·.key),
      k ∈ Text.distinct (othersSince d.key (u :: uses)) := by
    intro k hk
    rw [Text.mem_distinct, othersSince_renewed hu (habsent d List.mem_cons_self).symm]
    rcases List.mem_cons.mp hk with rfl | hk
    · exact List.mem_cons_self
    · obtain ⟨e, he, rfl⟩ := List.mem_map.mp hk
      exact List.mem_cons_of_mem key ((List.pairwise_cons.mp hrecent).1 e he)
  have hlength := (hkeys.subperm hsub).length_le
  rwa [List.length_cons, List.length_map] at hlength

theorem InStep.put (h : InStep most uses clock c) (hmost : 1 ≤ most) (key : String)
    (valid : Bool) (message : String) :
    InStep most (.put key valid message clock :: uses) clock (c.put clock key valid message) := by
  have hlatest : latest? key (.put key valid message clock :: uses) =
      some ⟨valid, message, clock, 0⟩ := if_pos rfl
  have hothers : ∀ other, key ≠ other →
      latest? other (.put key valid message clock :: uses) = latest? other uses :=
    fun other hne => if_neg hne
  obtain ⟨rest, hput, hcase⟩ := put_eq c clock key valid message
  rw [hput]
  suffices hrest : rest.Sublist c.entries ∧ (∀ e ∈ rest, e.key ≠ key) ∧ rest.length + 1 ≤ most ∧
      ∀ e ∈ c.entries, e ∈ rest ∨ e.key = key ∨ Number.le c.maxSize (Number.ofNat
        (Text.distinct (othersSince e.key (.put key valid message clock :: uses))).length) = true by
    obtain ⟨hsub, hkeys, hbounded, hlost⟩ := hrest
    exact h.renew rfl rfl h.counted rfl hlatest hothers rfl hsub hkeys hbounded hlost
  rcases hcase with ⟨⟨e, he, hkey⟩, rfl⟩ | ⟨habsent, ⟨hfree, rfl⟩ | ⟨hfull, rfl⟩⟩
  · exact ⟨List.filter_sublist, fun f hf => key_ne_of_mem_others hf, h.length_others he hkey,
      fun f hf => (mem_others_or hf).imp_right Or.inl⟩
  · refine ⟨List.Sublist.refl _, habsent, ?_, fun f hf => Or.inl hf⟩
    have hroom : ¬ Number.le c.maxSize (Number.ofNat c.entries.length) = true := by
      rw [← h.isFull_iff hmost, hfree]
      exact Bool.false_ne_true
    rw [h.limit] at hroom
    refine Number.lt_of_lt_ofNat ?_
    exact (Number.le_or_lt (Number.ofNat_ne_nan _) (Number.ofNat_ne_nan _)).resolve_left hroom
  · refine ⟨List.drop_sublist _ _, fun e he => habsent e (List.mem_of_mem_drop he), ?_, ?_⟩
    · have hbounded := h.bounded
      rw [List.length_drop]
      omega
    · intro f hf
      cases hentries : c.entries with
      | nil =>
        rw [hentries] at hf
        cases hf
      | cons d rest =>
        rw [hentries] at hf
        rcases List.mem_cons.mp hf with rfl | hf
        · have hcrowded := h.crowded (u := .put key valid message clock) rfl hentries habsent
          exact Or.inr (Or.inr (Number.le_trans ((h.isFull_iff hmost).mp hfull)
            (Number.ofNat_mono hcrowded)))
        · exact Or.inl hf

theorem InStep.cleaned (h : InStep most uses clock c) :
    InStep most uses clock (c.cleanup clock).2 := by
  refine h.drop rfl rfl h.counted List.filter_sublist (fun e he => ?_) (fun _ => rfl) fun _ => rfl
  cases hold : outlived c.ttlSeconds e.cachedAt clock with
  | true => exact Or.inr rfl
  | false =>
    refine Or.inl (List.mem_filter.mpr ⟨he, ?_⟩)
    rw [h.expired_eq, hold]
    rfl

theorem InStep.cleared (h : InStep most uses clock c) :
    InStep most (.cleared :: uses) clock c.clear where
  limit := h.limit
  lasting := h.lasting
  counted := rfl
  bounded := Nat.zero_le most
  nodup := List.nodup_nil
  given := nofun
  recent := List.Pairwise.nil
  kept := nofun

/-- A lookup finds what was put last under the key, and nothing that has outlived its time. -/
theorem InStep.found (h : InStep most uses clock c) {e : CacheEntry}
    (hfound : (c.lookup clock key).1 = some e) :
    ∃ g, latest? key (.looked key true :: uses) = some g ∧ e = g.entry key ∧
      outlived c.ttlSeconds g.time clock = false := by
  rcases lookup_eq c clock key with ⟨f, hfind, hfresh, hlookup⟩ | ⟨-, hlookup⟩
  · obtain ⟨hf, hkey⟩ := mem_of_find? hfind
    obtain ⟨g, hg, rfl⟩ := h.exists_given hf hkey
    rw [h.expired_eq] at hfresh
    rw [hlookup] at hfound
    obtain rfl := Option.some.inj hfound
    exact ⟨_, latest?_found hg, rfl, hfresh⟩
  · rw [hlookup] at hfound
    cases hfound

/-- What was put last is found as long as it has not outlived its time, and fewer other keys were
used since than the cache has places. -/
theorem InStep.retained (h : InStep most uses clock c) (hlatest : latest? key uses = some g)
    (hfresh : outlived c.ttlSeconds g.time clock = false)
    (hfew : Number.lt (Number.ofNat (Text.distinct (othersSince key uses)).length)
      (Number.ofNat most) = true) : (c.lookup clock key).1.isSome = true := by
  rcases h.kept key g hlatest with ⟨e, he, hkey⟩ | hold | hmany
  · rcases lookup_eq c clock key with ⟨f, -, -, hlookup⟩ | ⟨hgone, -⟩
    · rw [hlookup]
      rfl
    · have hold := hgone e (h.find?_eq he hkey)
      rw [h.expired_eq, h.entry_eq he hkey hlatest] at hold
      cases hfresh.symm.trans hold
  · cases hfresh.symm.trans hold
  · rw [h.limit] at hmany
    exact absurd hfew (Number.not_lt_of_le hmany)

/-- Cleaning up leaves the entries that have not outlived their time, and counts the others. -/
theorem InStep.cleanup_eq (h : InStep most uses clock c) :
    (c.cleanup clock).2 =
        { c with entries := c.entries.filter fun e => !outlived c.ttlSeconds e.cachedAt clock } ∧
      (c.cleanup clock).1 = c.entries.countP fun e => outlived c.ttlSeconds e.cachedAt clock := by
  simp only [cleanup, h.expired_eq, true_and]
  have hsplit := List.length_eq_countP_add_countP (l := c.entries)
    fun e => outlived c.ttlSeconds e.cachedAt clock
  simp only [Bool.not_eq_true, Bool.decide_eq_false] at hsplit
  rw [← List.countP_eq_length_filter]
  omega

/-- The entries of a cache are in step with its uses, whatever these are. -/
theorem Used.inStep {ttlSeconds : Number} (h : Used (Number.ofNat most) ttlSeconds uses clock c)
    (hmost : 1 ≤ most) (hlasting : Number.lt 0 (ttl ttlSeconds) = true) :
    InStep most uses clock c ∧ c.ttlSeconds = ttlSeconds := by
  induction h with
  | created clock hcreate =>
    rw [create?] at hcreate
    split at hcreate
    · obtain rfl := Option.some.inj hcreate
      have hempty : InStep most [] clock ⟨Number.ofNat most, ttlSeconds, [], 0, 0⟩ :=
        ⟨rfl, hlasting, rfl, Nat.zero_le most, List.nodup_nil,
          fun _ he => absurd he List.not_mem_nil, List.Pairwise.nil,
          fun _ _ hlatest => absurd hlatest (Option.some_ne_none _).symm⟩
      exact ⟨hempty, rfl⟩
    · cases hcreate
  | waited _ milliseconds ih => exact ⟨ih.1.waited milliseconds, ih.2⟩
  | looked _ r ih => exact ⟨ih.1.looked r.key, (ttlSeconds_lookup _ _ _).trans ih.2⟩
  | put _ r valid message ih =>
    exact ⟨ih.1.put hmost r.key valid message, (ttlSeconds_put _ _ _ _ _).trans ih.2⟩
  | cleaned _ ih => exact ⟨ih.1.cleaned, ih.2⟩
  | cleared _ ih => exact ⟨ih.1.cleared, ih.2⟩

end InStep

/-- What a cache answers after some uses. It never holds more entries than its limit, and counts
every lookup. A lookup finds only what was put last under the key and has not outlived its time; and
it does find that, unless as many other keys as the cache has places were used since the key itself.
Cleaning up removes just the entries that have outlived their time. -/
structure Lawful (maxSize ttlSeconds : Number) (uses : List Use) (clock : Int) (c : Cache) :
    Prop where
  bounded : Number.le (Number.ofNat c.statistics.size) maxSize = true
  counted : c.statistics.hits + c.statistics.misses = lookups uses
  found : ∀ (r : Request) (e : CacheEntry), (c.lookup clock r.key).1 = some e →
    ∃ g, latest? r.key (.looked r.key true :: uses) = some g ∧ e = g.entry r.key ∧
      outlived ttlSeconds g.time clock = false
  retained : ∀ (r : Request) (g : Given), latest? r.key uses = some g →
    outlived ttlSeconds g.time clock = false →
    Number.lt (Number.ofNat (Text.distinct (othersSince r.key uses)).length) maxSize = true →
    (c.lookup clock r.key).1.isSome = true
  cleaned : (c.cleanup clock).2 =
      { c with entries := c.entries.filter fun e => !outlived ttlSeconds e.cachedAt clock } ∧
    (c.cleanup clock).1 = c.entries.countP fun e => outlived ttlSeconds e.cachedAt clock

/-- However a cache is used, it answers lawfully. -/
theorem lawful_of_used (most : Nat) (ttlSeconds : Number) (hmost : 1 ≤ most)
    (hlasting : Number.lt 0 (ttl ttlSeconds) = true) (uses : List Use) (clock : Int) (c : Cache)
    (h : Used (Number.ofNat most) ttlSeconds uses clock c) :
    Lawful (Number.ofNat most) ttlSeconds uses clock c := by
  obtain ⟨hin, rfl⟩ := h.inStep hmost hlasting
  exact {
    bounded := Number.ofNat_mono hin.bounded
    counted := hin.counted
    found := fun _ _ => hin.found
    retained := fun _ _ => hin.retained
    cleaned := hin.cleanup_eq }

/-- A verdict put in a cache with one place is found a minute later, at the end of its time. -/
theorem lawful_at_the_limit :
    ∃ c : Cache, create? (Number.ofNat 1) 60 = some c ∧
      ((c.put 1000 (Request.token ⟨"c", "t", "n", 3, 7, "authority_1"⟩).key true "ok").lookup 61000
        (Request.token ⟨"c", "t", "n", 3, 7, "authority_1"⟩).key).1 =
          some ⟨(Request.token ⟨"c", "t", "n", 3, 7, "authority_1"⟩).key, true, "ok", 1000, 2⟩ := by
  have hcreate : create? (Number.ofNat 1) 60 = some ⟨Number.ofNat 1, 60, [], 0, 0⟩ := by
    decide +kernel
  refine ⟨_, hcreate, ?_⟩
  generalize Request.token ⟨"c", "t", "n", 3, 7, "authority_1"⟩ = r
  have hused := ((Used.created 1000 hcreate).put r true "ok").waited 60000
  have hlawful := lawful_of_used 1 60 (by decide) (by decide +kernel) _ _ _ hused
  have hlatest : latest? r.key [.put r.key true "ok" 1000] = some ⟨true, "ok", 1000, 0⟩ :=
    if_pos rfl
  have hothers : othersSince r.key [.put r.key true "ok" 1000] = [] := by
    simp [othersSince, Use.renewed?]
  have hfound := hlawful.retained r ⟨true, "ok", 1000, 0⟩ hlatest (by decide +kernel) (by
    rw [hothers]
    decide +kernel)
  obtain ⟨e, he⟩ := Option.isSome_iff_exists.mp hfound
  obtain ⟨g, hg, hentry, -⟩ := hlawful.found r e he
  rw [latest?_found hlatest] at hg
  obtain rfl := Option.some.inj hg
  rw [hentry] at he
  exact he

end ImageLedger.Authority.Cache
