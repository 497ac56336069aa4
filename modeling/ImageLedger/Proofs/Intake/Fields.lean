import ImageLedger.Node.Intake
import ImageLedger.Proofs.Store.Append

namespace ImageLedger

namespace Fields

/-- A text that is more than blanks. -/
def IsText (value : Option Json) (s : String) : Prop :=
  value = some (.text s) ∧ Text.isBlankText s = false

/-- A well-formed hash in any spelling, and its lower-case form. -/
def IsHash (value : Option Json) (hash : String) : Prop :=
  ∃ given, value = some (.text given) ∧ HashText.wellFormed given = true ∧
    HashText.lower given = hash

/-- A hash that may be left out, or be null. -/
def IsOptionalHash (value : Option Json) (hash : Option String) : Prop :=
  ((value = none ∨ value = some .null) ∧ hash = none) ∨ ∃ h, IsHash value h ∧ hash = some h

/-- A whole number that is not too small. -/
def IsWhole (least : Number) (value : Option Json) (x : Number) : Prop :=
  value = some (.number x) ∧ x.isInteger = true ∧ Number.le least x = true

/-- A modification level, which is zero when it is left out. -/
def IsLevel (value : Option Json) (level : Number) : Prop :=
  (value = none ∧ level = 0) ∨ (value = some (.number level) ∧ level ∈ [0, 1, 2])

theorem IsHash.normalize? {value : Option Json} {hash : String} (h : IsHash value hash) :
    HashText.normalize? hash = some hash := by
  obtain ⟨given, -, hwell, hlower⟩ := h
  exact HashText.normalize?_of_normalize? (HashText.normalize?_eq_some.mpr ⟨hwell, hlower⟩)

theorem IsHash.lowercase {value : Option Json} {hash : String} (h : IsHash value hash) :
    HashText.lower hash = hash := (HashText.normalize?_eq_some.mp h.normalize?).2

variable {fields : Members} {field : String}

theorem requireText_eq_ok {s : String} :
    requireText fields field = .ok s ↔ IsText (fields.lookup field) s := by
  unfold requireText IsText
  split
  · next given hgiven =>
    simp only [hgiven, Option.some.injEq, Json.text.injEq]
    constructor
    · intro h
      split_ifs at h with hblank
      obtain rfl := Except.ok.inj h
      exact ⟨rfl, Bool.eq_false_iff.mpr hblank⟩
    · rintro ⟨rfl, hblank⟩
      rw [hblank]
      rfl
  · next hother =>
    exact iff_of_false nofun fun h => hother s h.1

theorem requireHash_eq_ok {hash : String} :
    requireHash fields field = .ok hash ↔ IsHash (fields.lookup field) hash := by
  unfold requireHash IsHash
  split
  · next hnone => simp [hnone]
  · next hnull => simp [hnull]
  · next given hgiven =>
    simp only [hgiven, Option.some.injEq, Json.text.injEq, exists_eq_left']
    rw [← HashText.normalize?_eq_some]
    cases hnormal : HashText.normalize? given with
    | none => split_ifs <;> simp
    | some normal =>
      have hne : given ≠ "" := by
        rintro rfl
        cases hnormal
      simp [hne]
  · next v hnull htext hgiven =>
    refine iff_of_false nofun ?_
    rintro ⟨given, htext', -⟩
    rw [hgiven] at htext'
    exact htext given (Option.some.inj htext')

theorem optionalHash_eq_ok {hash : Option String} :
    optionalHash fields field = .ok hash ↔ IsOptionalHash (fields.lookup field) hash := by
  unfold optionalHash IsOptionalHash IsHash
  split
  · next hnone => simpa [hnone] using eq_comm
  · next hnull => simpa [hnull] using eq_comm
  · next given hgiven =>
    simp only [hgiven, Option.some.injEq, Json.text.injEq, exists_eq_left', reduceCtorEq, or_self,
      false_and, false_or]
    simp only [← HashText.normalize?_eq_some]
    cases hnormal : HashText.normalize? given with
    | none => simp
    | some normal => simp [eq_comm]
  · next v hnull htext hgiven =>
    refine iff_of_false nofun ?_
    rintro (⟨hmissing | hmissing, -⟩ | ⟨h, ⟨given, htext', -⟩, -⟩)
    · rw [hgiven] at hmissing
      cases hmissing
    · rw [hgiven] at hmissing
      exact hnull (Option.some.inj hmissing)
    · rw [hgiven] at htext'
      exact htext given (Option.some.inj htext')

theorem requireInteger_eq_ok {range : Range} {x : Number} :
    requireInteger fields field range = .ok x ↔
      fields.lookup field = some (.number x) ∧ x.isInteger = true ∧
        (∀ least ∈ range.least, Number.lt x least = false) ∧
        ∀ most ∈ range.most, Number.lt most x = false := by
  have hfilter : ∀ (bound : Option Number) (p : Number → Bool),
      bound.filter p = none ↔ ∀ b ∈ bound, p b = false := by
    intro bound p
    cases bound <;> simp [Option.filter]
  unfold requireInteger
  split
  · next given hgiven =>
    simp only [hgiven, Option.some.injEq, Json.number.injEq, ← hfilter]
    cases hinteger : given.isInteger with
    | false =>
      refine iff_of_false nofun ?_
      rintro ⟨rfl, hx, -⟩
      rw [hinteger] at hx
      cases hx
    | true =>
      cases hleast : range.least.filter (Number.lt given) with
      | some least =>
        refine iff_of_false nofun ?_
        rintro ⟨rfl, -, hnone, -⟩
        rw [hleast] at hnone
        cases hnone
      | none =>
        cases hmost : range.most.filter (Number.lt · given) with
        | some most =>
          refine iff_of_false nofun ?_
          rintro ⟨rfl, -, -, hnone⟩
          rw [hmost] at hnone
          cases hnone
        | none =>
          constructor
          · intro h
            obtain rfl := Except.ok.inj h
            exact ⟨rfl, hinteger, hleast, hmost⟩
          · rintro ⟨rfl, -⟩
            rfl
  · next hother =>
    exact iff_of_false nofun fun h => hother x h.1

theorem isInteger_ne_nan {x : Number} (h : x.isInteger = true) : x ≠ .nan := by
  rintro rfl
  cases h

theorem requireInteger_atLeast {least x : Number} (hleast : least ≠ .nan) :
    requireInteger fields field (.atLeast least) = .ok x ↔
      IsWhole least (fields.lookup field) x := by
  rw [requireInteger_eq_ok, IsWhole]
  refine and_congr_right fun _ => and_congr_right fun hinteger => ?_
  simp [Range.atLeast, Number.lt_eq_false_iff, hleast, isInteger_ne_nan hinteger]

theorem mem_levels {x : Number} : x.isInteger = true ∧ Number.lt x 0 = false ∧
    Number.lt 2 x = false ↔ x ∈ [0, 1, 2] := by
  constructor
  · rintro ⟨hinteger, hleast, hmost⟩
    cases x with
    | nan => cases hinteger
    | infinite negative => cases hinteger
    | finite q =>
      have hden : q.den = 1 := by
        by_contra hden
        rw [Number.isInteger, Number.toInt?, if_neg hden] at hinteger
        cases hinteger
      have hq := (Rat.den_eq_one_iff q).mp hden
      have hlow : ¬ q < ((0 : Int) : Rat) := of_decide_eq_false hleast
      have hhigh : ¬ ((2 : Int) : Rat) < q := of_decide_eq_false hmost
      rw [← hq, Int.cast_lt] at hlow hhigh
      obtain hnum | hnum | hnum : q.num = 0 ∨ q.num = 1 ∨ q.num = 2 := by omega
      all_goals
        rw [← hq, hnum]
        decide
  · intro hmem
    simp only [List.mem_cons, List.not_mem_nil, or_false] at hmem
    rcases hmem with rfl | rfl | rfl <;> decide

theorem optionalInteger_level {x : Number} :
    optionalInteger fields field 0 (.between 0 2) = .ok x ↔
      IsLevel (fields.lookup field) x := by
  unfold optionalInteger IsLevel
  cases hlookup : fields.lookup field with
  | none => simpa using eq_comm
  | some v =>
    rw [if_neg (by simp), requireInteger_eq_ok, hlookup]
    simp [Range.between, mem_levels]

end Fields

namespace Intake

open Fields

/-- What a body of either kind says beside its credentials. -/
structure SaysEntry (fields : Members) (entry : BatchEntry) (submitterId authorityId : String) :
    Prop where
  imageHash : IsHash (fields.lookup "imageHash") entry.imageHash
  timestamp : IsWhole 1 (fields.lookup "timestamp") entry.timestamp
  submitterId : IsText (fields.lookup "submitterId") submitterId
  modificationLevel : IsLevel (fields.lookup "modificationLevel") entry.modificationLevel
  parentImageHash : IsOptionalHash (fields.lookup "parentImageHash") entry.parentImageHash
  gpsHash : IsOptionalHash (fields.lookup "gpsHash") entry.gpsHash
  ownerHash : IsOptionalHash (fields.lookup "ownerHash") entry.ownerHash
  authorityId : IsText (fields.lookup "authorityId") authorityId

structure SaysToken (token : Members) (t : CameraToken) : Prop where
  ciphertext : IsText (token.lookup "ciphertext") t.ciphertext
  authTag : IsText (token.lookup "authTag") t.authTag
  nonce : IsText (token.lookup "nonce") t.nonce
  tableId : IsWhole 0 (token.lookup "tableId") t.tableId
  keyIndex : IsWhole 0 (token.lookup "keyIndex") t.keyIndex

structure SaysBundle (bundle : Members) (b : CertificateBundle) : Prop where
  cameraCert : IsText (bundle.lookup "cameraCert") b.cameraCert
  bundleSignature : IsText (bundle.lookup "bundleSignature") b.bundleSignature

variable {fields : Members} {entry : BatchEntry} {submitterId authorityId : String} {body : Json}
  {d : Draft}

theorem ofValue_eq_ok {value : Option Json} {field : Option String} :
    ofValue value field = .ok fields ↔ value = some (.object fields) := by
  unfold ofValue
  split
  · simp
  · next hother => exact iff_of_false nofun fun h => hother fields h

theorem readEntry_eq_ok : readEntry fields = .ok (entry, submitterId, authorityId) ↔
    SaysEntry fields entry submitterId authorityId := by
  have hone : (1 : Number) ≠ .nan := by decide
  simp only [readEntry, bind_eq_ok, requireHash_eq_ok, requireInteger_atLeast hone,
    requireText_eq_ok, optionalInteger_level, optionalHash_eq_ok]
  constructor
  · rintro ⟨imageHash, hhash, timestamp, htime, submitter, hsubmitter, level, hlevel, parent,
      hparent, gps, hgps, owner, howner, authority, hauthority, h⟩
    obtain ⟨rfl, rfl, rfl⟩ : _ ∧ _ ∧ _ := by simpa [pure, Except.pure] using h
    exact ⟨hhash, htime, hsubmitter, hlevel, hparent, hgps, howner, hauthority⟩
  · intro h
    exact ⟨_, h.imageHash, _, h.timestamp, _, h.submitterId, _, h.modificationLevel, _,
      h.parentImageHash, _, h.gpsHash, _, h.ownerHash, _, h.authorityId, rfl⟩

theorem readToken_eq_ok : readToken body = .ok d ↔
    ∃ fields token entry submitterId authorityId t, body = .object fields ∧
      fields.lookup "cameraToken" = some (.object token) ∧
      SaysEntry fields entry submitterId authorityId ∧ SaysToken token t ∧
      d = draft entry submitterId authorityId (.cameraToken t) := by
  have hzero : (0 : Number) ≠ .nan := by decide
  simp only [readToken, bind_eq_ok, ofValue_eq_ok, Prod.exists, readEntry_eq_ok,
    requireText_eq_ok, requireInteger_atLeast hzero]
  constructor
  · rintro ⟨fields, hbody, token, htoken, entry, submitter, authority, hentry, ciphertext,
      hciphertext, authTag, hauthTag, nonce, hnonce, tableId, htableId, keyIndex, hkeyIndex, h⟩
    exact ⟨fields, token, entry, submitter, authority,
      ⟨ciphertext, authTag, nonce, tableId, keyIndex⟩, Option.some.inj hbody, htoken, hentry,
      ⟨hciphertext, hauthTag, hnonce, htableId, hkeyIndex⟩, (Except.ok.inj h).symm⟩
  · rintro ⟨fields, token, entry, submitter, authority, t, rfl, htoken, hentry, ht, rfl⟩
    exact ⟨fields, rfl, token, htoken, entry, submitter, authority, hentry, _, ht.ciphertext, _,
      ht.authTag, _, ht.nonce, _, ht.tableId, _, ht.keyIndex, rfl⟩

theorem readCertificate_eq_ok : readCertificate body = .ok d ↔
    ∃ fields bundle entry submitterId authorityId b, body = .object fields ∧
      fields.lookup "certificateBundle" = some (.object bundle) ∧
      SaysEntry fields entry submitterId authorityId ∧ SaysBundle bundle b ∧
      d = draft entry submitterId authorityId (.certificate b) := by
  simp only [readCertificate, bind_eq_ok, ofValue_eq_ok, Prod.exists, readEntry_eq_ok,
    requireText_eq_ok]
  constructor
  · rintro ⟨fields, hbody, bundle, hbundle, entry, submitter, authority, hentry, cert, hcert,
      signature, hsignature, h⟩
    exact ⟨fields, bundle, entry, submitter, authority, ⟨cert, signature⟩, Option.some.inj hbody,
      hbundle, hentry, ⟨hcert, hsignature⟩, (Except.ok.inj h).symm⟩
  · rintro ⟨fields, bundle, entry, submitter, authority, b, rfl, hbundle, hentry, hb, rfl⟩
    exact ⟨fields, rfl, bundle, hbundle, entry, submitter, authority, hentry, _, hb.cameraCert, _,
      hb.bundleSignature, rfl⟩

end Intake

end ImageLedger
