import ImageLedger.Authority.Client
import ImageLedger.Proofs.Authority.Key

namespace ImageLedger.Authority

/-- A verdict with the question it was put for. -/
structure Judgement where
  request : Request
  valid : Bool
  message : String

namespace Cache

/-- The caches that come of any use, with what was put so far. -/
inductive Filled : List Judgement → Cache → Prop where
  | created {maxSize ttlSeconds : Number} {c : Cache} (h : create? maxSize ttlSeconds = some c) :
      Filled [] c
  | asked {puts : List Judgement} {c : Cache} (h : Filled puts c) (now : Int) (r : Request) :
      Filled puts (c.lookup now r.key).2
  | put {puts : List Judgement} {c : Cache} (h : Filled puts c) (now : Int) (j : Judgement) :
      Filled (j :: puts) (c.put now j.request.key j.valid j.message)
  | cleaned {puts : List Judgement} {c : Cache} (h : Filled puts c) (now : Int) :
      Filled puts (c.cleanup now).2
  | cleared {puts : List Judgement} {c : Cache} (h : Filled puts c) : Filled puts c.clear

/-- The entries hold nothing but verdicts that were put. -/
def Holds (puts : List Judgement) (entries : List CacheEntry) : Prop :=
  ∀ e ∈ entries, ∃ j ∈ puts, j.request.key = e.key ∧ j.valid = e.valid ∧ j.message = e.message

section Holds

variable {puts : List Judgement} {entries kept : List CacheEntry} {c : Cache}

theorem Holds.of_subset (h : Holds puts entries) (hsub : ∀ e ∈ kept, e ∈ entries) :
    Holds puts kept := by
  intro e he
  exact h e (hsub e he)

theorem Holds.append {e : CacheEntry} (h : Holds puts entries) {j : Judgement} (hj : j ∈ puts)
    (hkey : j.request.key = e.key) (hvalid : j.valid = e.valid) (hmessage : j.message = e.message) :
    Holds puts (entries ++ [e]) := by
  intro f hf
  rcases List.mem_append.mp hf with hf | hf
  · exact h f hf
  · obtain rfl := List.mem_singleton.mp hf
    exact ⟨j, hj, hkey, hvalid, hmessage⟩

theorem Holds.cons (h : Holds puts entries) (j : Judgement) : Holds (j :: puts) entries := by
  intro e he
  obtain ⟨i, hi, hsame⟩ := h e he
  exact ⟨i, List.mem_cons_of_mem j hi, hsame⟩

theorem others_subset (c : Cache) (key : String) : ∀ e ∈ c.others key, e ∈ c.entries := by
  intro e he
  exact (List.mem_filter.mp he).1

theorem makeRoom_subset (c : Cache) : ∀ e ∈ c.makeRoom, e ∈ c.entries := by
  intro e he
  rw [makeRoom] at he
  split at he
  · exact List.mem_of_mem_drop he
  · exact he

/-- A lookup finds an entry of the key, or nothing; it leaves no entry that was not there, but for
the count of the one found. -/
theorem lookup_cases (c : Cache) (now : Int) (key : String) :
    (∃ e ∈ c.entries, e.key = key ∧
      (c.lookup now key).1 = some { e with requestCount := e.requestCount + 1 } ∧
      (c.lookup now key).2.entries =
        c.others key ++ [{ e with requestCount := e.requestCount + 1 }]) ∨
    ((c.lookup now key).1 = none ∧ ∀ e ∈ (c.lookup now key).2.entries, e ∈ c.entries) := by
  rw [lookup]
  cases hfind : c.find? key with
  | none => exact Or.inr ⟨rfl, fun e he => he⟩
  | some e =>
    by_cases hexpired : c.expired now e = true
    · simp only [if_pos hexpired]
      exact Or.inr ⟨trivial, others_subset c key⟩
    · simp only [if_neg hexpired]
      have hkey := List.find?_some hfind
      exact Or.inl ⟨e, List.mem_of_find?_eq_some hfind, of_decide_eq_true hkey, rfl, rfl⟩

theorem Holds.lookup (h : Holds puts c.entries) (now : Int) (key : String) :
    Holds puts (c.lookup now key).2.entries := by
  rcases lookup_cases c now key with ⟨e, he, -, -, hentries⟩ | ⟨-, hsub⟩
  · obtain ⟨j, hj, hkey, hvalid, hmessage⟩ := h e he
    have hothers := h.of_subset (others_subset c key)
    rw [hentries]
    exact hothers.append hj hkey hvalid hmessage
  · exact h.of_subset hsub

theorem Holds.put (h : Holds puts c.entries) (now : Int) (j : Judgement) :
    Holds (j :: puts) (c.put now j.request.key j.valid j.message).entries := by
  have hcons := h.cons j
  rw [Cache.put]
  split
  · have hothers := hcons.of_subset (others_subset c j.request.key)
    exact hothers.append List.mem_cons_self rfl rfl rfl
  · have hroom := hcons.of_subset (makeRoom_subset c)
    exact hroom.append List.mem_cons_self rfl rfl rfl

theorem Filled.holds (h : Filled puts c) : Holds puts c.entries := by
  induction h with
  | created hcreate =>
    rw [create?] at hcreate
    split at hcreate
    · cases hcreate
      intro e he
      cases he
    · cases hcreate
  | asked h now r ih => exact ih.lookup now r.key
  | put h now j ih => exact ih.put now j
  | cleaned h now ih => exact ih.of_subset fun e he => (List.mem_filter.mp he).1
  | cleared h ih =>
    intro e he
    cases he

@[simp] theorem ttlSeconds_lookup (c : Cache) (now : Int) (key : String) :
    (c.lookup now key).2.ttlSeconds = c.ttlSeconds := by
  rw [lookup]
  split
  · rfl
  · split
    · rfl
    · rfl

@[simp] theorem ttlSeconds_put (c : Cache) (now : Int) (key : String) (valid : Bool)
    (message : String) :
    (c.put now key valid message).ttlSeconds = c.ttlSeconds := by
  rw [put]
  split
  · rfl
  · rfl

theorem Filled.not_lt_zero (h : Filled puts c) :
    Number.lt (ttl c.ttlSeconds) (Number.ofInt 0) = false := by
  induction h with
  | @created maxSize ttlSeconds c hcreate =>
    have hlimit : isLimit (ttl ttlSeconds) = true ∧ c.ttlSeconds = ttlSeconds := by
      rw [create?] at hcreate
      split at hcreate
      next hlimits =>
        simp only [Bool.and_eq_true] at hlimits
        cases hcreate
        exact ⟨hlimits.1.2, rfl⟩
      next => cases hcreate
    rw [hlimit.2]
    generalize ttl ttlSeconds = x at hlimit
    obtain ⟨hx, -⟩ := hlimit
    rw [isLimit, Bool.or_eq_true, decide_eq_true_eq, Bool.and_eq_true] at hx
    rcases hx with rfl | ⟨hinteger, hpos⟩
    · decide
    · cases x with
      | finite q =>
        have hq : (0 : Rat) < q := of_decide_eq_true hpos
        exact decide_eq_false (not_lt.mpr hq.le)
      | infinite negative => cases hinteger
      | nan => cases hinteger
  | asked h now r ih =>
    rw [ttlSeconds_lookup]
    exact ih
  | put h now j ih =>
    rw [ttlSeconds_put]
    exact ih
  | cleaned h now ih => exact ih
  | cleared h ih => exact ih

theorem put_entries (c : Cache) (now : Int) (key : String) (valid : Bool) (message : String) :
    ∃ rest : List CacheEntry, (c.put now key valid message).entries =
      rest ++ [⟨key, valid, message, now, 1⟩] ∧ ∀ e ∈ rest, e.key ≠ key := by
  rw [put]
  split
  next =>
    refine ⟨c.others key, rfl, fun e he => ?_⟩
    exact of_decide_eq_true (List.mem_filter.mp he).2
  next hnone =>
    refine ⟨c.makeRoom, rfl, fun e he hkey => ?_⟩
    have hfound : (c.find? key).isSome = true :=
      List.find?_isSome.mpr ⟨e, makeRoom_subset c e he, decide_eq_true hkey⟩
    exact hnone hfound

/-- A verdict is served as soon as it was put. -/
theorem Filled.lookup_put (h : Filled puts c) (now : Int) (key : String) (valid : Bool)
    (message : String) :
    ((c.put now key valid message).lookup now key).1 = some ⟨key, valid, message, now, 2⟩ := by
  obtain ⟨rest, hentries, hrest⟩ := put_entries c now key valid message
  have hfind : (c.put now key valid message).find? key = some ⟨key, valid, message, now, 1⟩ := by
    have hnone : rest.find? (·.key = key) = none := by
      apply List.find?_eq_none.mpr
      intro e he hkey
      exact hrest e he (of_decide_eq_true hkey)
    rw [find?, hentries, List.find?_append, hnone]
    simp
  have hfresh : (c.put now key valid message).expired now ⟨key, valid, message, now, 1⟩ =
      false := by
    rw [expired, ttlSeconds_put, Int.sub_self, h.not_lt_zero, Bool.and_false]
  rw [lookup, hfind]
  simp only [hfresh, Bool.false_eq_true, if_false]

end Holds

end Cache

theorem remembered_eq (c : Cache) (now : Int) (r : Request) :
    remembered c now r = ((c.lookup now r.key).1.map fun e => ⟨e.valid, e.message, false⟩,
      (c.lookup now r.key).2) := by
  rw [remembered]
  split
  next hlookup =>
    rw [hlookup]
    rfl
  next hlookup =>
    rw [hlookup]
    rfl

section Ask

variable {puts : List Judgement} {c : Cache}

/-- A question adds to a cache at most the verdict on itself. -/
theorem Cache.Filled.ask (h : Filled puts c) (endpoints : Endpoints) (now : Int) (reply : Reply)
    (r : Request) :
    ∃ added : List Judgement, Filled (added ++ puts) (Authority.ask endpoints c now reply r).cache ∧
      ∀ j ∈ added, j.request = r ∧
        (Authority.ask endpoints c now reply r).verdict = some ⟨j.valid, j.message, false⟩ := by
  have hlooked := h.asked now r
  rw [Authority.ask, remembered_eq]
  cases (c.lookup now r.key).1 with
  | some e => exact ⟨[], hlooked, fun j hj => nomatch hj⟩
  | none =>
    simp only [Option.map_none]
    cases verdictOf r.subject reply with
    | none => exact ⟨[], hlooked, fun j hj => nomatch hj⟩
    | some v =>
      simp only [keep]
      by_cases hretryable : v.retryable = true
      · rw [if_pos hretryable]
        exact ⟨[], hlooked, fun j hj => nomatch hj⟩
      · rw [if_neg hretryable]
        refine ⟨[⟨r, v.valid, v.message⟩], hlooked.put now ⟨r, v.valid, v.message⟩, fun j hj => ?_⟩
        obtain rfl := List.mem_singleton.mp hj
        rw [Bool.not_eq_true] at hretryable
        rw [← hretryable]
        exact ⟨rfl, rfl⟩

/-- A verdict without a call was put before, for a question with the same key. -/
theorem Cache.Filled.exists_put (h : Filled puts c) {endpoints : Endpoints} {now : Int}
    {reply : Reply} {s : Request} {v : Verdict}
    (hcall : (Authority.ask endpoints c now reply s).call = none)
    (hverdict : (Authority.ask endpoints c now reply s).verdict = some v) :
    ∃ j ∈ puts, j.request.key = s.key ∧ j.valid = v.valid ∧ j.message = v.message := by
  rw [Authority.ask, remembered_eq] at hcall hverdict
  rcases lookup_cases c now s.key with ⟨e, he, hkey, hfound, -⟩ | ⟨hnone, -⟩
  · rw [hfound] at hverdict
    cases hverdict
    obtain ⟨j, hj, hsame, hvalid, hmessage⟩ := h.holds e he
    exact ⟨j, hj, hsame.trans hkey, hvalid, hmessage⟩
  · rw [hnone] at hcall
    simp only [Option.map_none] at hcall
    split at hcall
    · cases hcall
    · cases hcall

end Ask

/-- Two texts with one digest. -/
def Collide (a b : String) : Prop := a ≠ b ∧ hashText a = hashText b

namespace Request

/-- Without a call the question gets only verdicts that were put for it, unless two texts have one
digest. -/
def ServedOwn (s : Request) : Prop :=
  ∀ (puts : List Judgement) (c : Cache) (endpoints : Endpoints) (now : Int) (reply : Reply)
    (v : Verdict), Cache.Filled puts c → (∀ j ∈ puts, j.request.Proper) →
    (ask endpoints c now reply s).call = none → (ask endpoints c now reply s).verdict = some v →
    ∃ j ∈ puts, j.valid = v.valid ∧ j.message = v.message ∧
      (j.request = s ∨ Collide j.request.keyText s.keyText)

theorem ask_of_key_eq {puts : List Judgement} {c : Cache} (h : Cache.Filled puts c)
    {r s : Request} (hkey : r.key = s.key) (endpoints : Endpoints) (now : Int) (reply : Reply)
    (valid : Bool) (message : String) :
    (ask endpoints (c.put now r.key valid message) now reply s).call = none ∧
      (ask endpoints (c.put now r.key valid message) now reply s).verdict =
        some ⟨valid, message, false⟩ := by
  rw [ask, remembered_eq, hkey, h.lookup_put]
  exact ⟨rfl, rfl⟩

theorem servedOwn_iff {s : Request} (hs : s.Proper) : s.ServedOwn ↔ s.Unshared := by
  constructor
  · intro h r hr hpieces
    have htext := (keyText_eq_iff r s).mpr hpieces
    have hkey : r.key = s.key := congrArg hashText htext
    have hcreate : Cache.create? 1 0 = some ⟨1, 0, [], 0, 0⟩ := by decide +kernel
    have hfilled := Cache.Filled.created hcreate
    obtain ⟨hcall, hverdict⟩ := ask_of_key_eq hfilled hkey ⟨"", ""⟩ 0 .timedOut true ""
    have hproper : ∀ j ∈ [Judgement.mk r true ""], j.request.Proper := by
      intro j hj
      obtain rfl := List.mem_singleton.mp hj
      exact hr
    obtain ⟨j, hj, -, -, hown⟩ := h _ _ _ _ _ _ (hfilled.put 0 ⟨r, true, ""⟩) hproper hcall hverdict
    obtain rfl := List.mem_singleton.mp hj
    rcases hown with hsame | hcollide
    · rw [← hsame]
    · exact absurd htext hcollide.1
  · intro h puts c endpoints now reply v hfilled hproper hcall hverdict
    obtain ⟨j, hj, hkey, hvalid, hmessage⟩ := hfilled.exists_put hcall hverdict
    refine ⟨j, hj, hvalid, hmessage, ?_⟩
    by_cases htext : j.request.keyText = s.keyText
    · exact Or.inl ((unshared_iff hs).mp h j.request (hproper j hj) htext)
    · exact Or.inr ⟨htext, hkey⟩

theorem proper_token {ciphertext authTag nonce authorityId : String}
    (h : ∀ t ∈ [ciphertext, authTag, nonce, authorityId], Text.isBlankText t = false) :
    (token ⟨ciphertext, authTag, nonce, 3, 7, authorityId⟩).Proper := by
  simp only [List.forall_mem_cons] at h
  obtain ⟨hcipher, htag, hnonce, hauthority, -⟩ := h
  have hthree : Number.Whole 3 ∧ Number.le 0 3 = true := ⟨Number.whole_ofNat (by decide), by decide⟩
  have hseven : Number.Whole 7 ∧ Number.le 0 7 = true := ⟨Number.whole_ofNat (by decide), by decide⟩
  exact ⟨hcipher, htag, hnonce, hthree, hseven, hauthority⟩

theorem proper_certificate {cameraCert bundleSignature authorityId : String}
    (h : ∀ t ∈ [cameraCert, bundleSignature, authorityId], Text.isBlankText t = false) :
    (certificate
      ⟨cameraCert, bundleSignature, HashText.zero, 3, some none, authorityId⟩).Proper := by
  simp only [List.forall_mem_cons] at h
  obtain ⟨hcert, hsignature, hauthority, -⟩ := h
  have hthree : Number.Whole 3 := Number.whole_ofNat (by decide)
  have hzero : HashText.wellFormed HashText.zero = true := by decide
  have hgps : ∀ hash ∈ (none : Option String), HashText.wellFormed hash = true := by
    intro hash hmem
    cases hmem
  exact ⟨hcert, hsignature, hzero, hthree, ⟨none, rfl, hgps⟩, hauthority⟩

/-- What a key tells: two questions are kept apart exactly when the same pieces never come with
different shapes, and then a question is served its own verdicts only. Colons in the free texts are
all that can bring pieces into other fields. -/
theorem separated_iff (s : Request) (hs : s.Proper) :
    (∀ r : Request, r.Proper →
      ((r.keyText = s.keyText → r = s) ↔ (r.pieces = s.pieces → r.shape = s.shape))) ∧
    (s.ServedOwn ↔ s.Unshared) ∧ ((∀ t ∈ s.texts, ':' ∉ t.toList) → s.Unshared) := by
  refine ⟨fun r hr => ?_, servedOwn_iff hs, unshared_of_colonFree hs⟩
  rw [keyText_eq_iff]
  constructor
  · intro h hpieces
    rw [h hpieces]
  · intro h hpieces
    exact (eq_iff_shape_eq hr hs ((keyText_eq_iff r s).mpr hpieces)).mpr (h hpieces)

theorem separated_samples :
    (token ⟨"c", "t", "n", 3, 7, "authority_1"⟩).Proper ∧
    (token ⟨"c", "t", "n", 3, 7, "authority_1"⟩).ServedOwn ∧
    (token ⟨"a", "b:c", "n", 3, 7, "authority_1"⟩).Proper ∧
    ¬ (token ⟨"a", "b:c", "n", 3, 7, "authority_1"⟩).ServedOwn := by
  have hplain : (token ⟨"c", "t", "n", 3, 7, "authority_1"⟩).Proper := proper_token (by decide)
  have hcolon : (token ⟨"a", "b:c", "n", 3, 7, "authority_1"⟩).Proper := proper_token (by decide)
  have hother : (token ⟨"a:b", "c", "n", 3, 7, "authority_1"⟩).Proper := proper_token (by decide)
  obtain ⟨-, hserved, hfree⟩ := separated_iff _ hplain
  refine ⟨hplain, hserved.mpr (hfree (by decide)), hcolon, ?_⟩
  intro hown
  have hshape := (separated_iff _ hcolon).2.1.mp hown _ hother (by decide)
  exact absurd hshape (by decide)

/-- A colon may move the end of a text into the next field, and pieces of a token's question may be
those of a certificate's. -/
theorem shared_keys :
    ¬ (∀ r s : TokenRequest, r.Proper → s.Proper → r.keyText = s.keyText → r = s) ∧
    ¬ (∀ r s : CertificateRequest, r.Proper → s.Proper → r.keyText = s.keyText → r = s) ∧
    ¬ (∀ (r : TokenRequest) (s : CertificateRequest), r.Proper → s.Proper →
      r.keyText ≠ s.keyText) ∧
    ¬ (∀ s : Request, s.Proper → s.ServedOwn) := by
  have hcolon : (token ⟨"a", "b:c", "n", 3, 7, "authority_1"⟩).Proper := proper_token (by decide)
  have hother : (token ⟨"a:b", "c", "n", 3, 7, "authority_1"⟩).Proper := proper_token (by decide)
  have htext : (token ⟨"a:b", "c", "n", 3, 7, "authority_1"⟩).keyText =
      (token ⟨"a", "b:c", "n", 3, 7, "authority_1"⟩).keyText := by decide
  refine ⟨?_, ?_, ?_, ?_⟩
  · intro h
    exact absurd (h _ _ hother hcolon htext) (by decide)
  · intro h
    have hleft : (certificate ⟨"a", "s:b", HashText.zero, 3, some none, "c"⟩).Proper :=
      proper_certificate (by decide)
    have hright : (certificate ⟨"a", "s", HashText.zero, 3, some none, "b:c"⟩).Proper :=
      proper_certificate (by decide)
    exact absurd (h _ _ hleft hright (by decide)) (by decide)
  · intro h
    have hleft : (token ⟨"cert:a", HashText.zero, "3::s", 3, 7, "b"⟩).Proper :=
      proper_token (by decide)
    have hright : (certificate ⟨"a", "s:3:7", HashText.zero, 3, some none, "b"⟩).Proper :=
      proper_certificate (by decide)
    exact h _ _ hleft hright (by decide)
  · intro h
    have hunshared := (servedOwn_iff hcolon).mp (h _ hcolon)
    have hsame := (unshared_iff hcolon).mp hunshared _ hother htext
    exact absurd hsame (by decide)

end Request

end ImageLedger.Authority
