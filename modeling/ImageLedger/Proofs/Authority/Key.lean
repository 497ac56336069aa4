import ImageLedger.Authority.Request
import ImageLedger.Proofs.Number.WholeText
import ImageLedger.Proofs.Text.Pieces

namespace ImageLedger.Authority

/-- A question about a token as intake lets it through. -/
structure TokenRequest.Proper (r : TokenRequest) : Prop where
  ciphertext : Text.isBlankText r.ciphertext = false
  authTag : Text.isBlankText r.authTag = false
  nonce : Text.isBlankText r.nonce = false
  tableId : r.tableId.Whole ∧ Number.le 0 r.tableId = true
  keyIndex : r.keyIndex.Whole ∧ Number.le 0 r.keyIndex = true
  authorityId : Text.isBlankText r.authorityId = false

/-- A question about a certificate as intake lets it through. -/
structure CertificateRequest.Proper (r : CertificateRequest) : Prop where
  cameraCert : Text.isBlankText r.cameraCert = false
  bundleSignature : Text.isBlankText r.bundleSignature = false
  imageHash : HashText.wellFormed r.imageHash = true
  timestamp : r.timestamp.Whole
  gpsHash : ∃ gps, r.gpsHash = some gps ∧ ∀ hash ∈ gps, HashText.wellFormed hash = true
  authorityId : Text.isBlankText r.authorityId = false

namespace Request

def Proper : Request → Prop
  | token r => r.Proper
  | certificate r => r.Proper

/-- The texts that are joined to the key's text. -/
def fields : Request → List String
  | token r => [r.ciphertext, r.authTag, r.nonce, r.tableId.toText, r.keyIndex.toText,
      r.authorityId]
  | certificate r => ["cert", r.cameraCert, r.imageHash, r.timestamp.toText,
      (r.gpsHash.join).getD "", r.bundleSignature, r.authorityId]

/-- The texts that a sender chooses freely. -/
def texts : Request → List String
  | token r => [r.ciphertext, r.authTag, r.nonce, r.authorityId]
  | certificate r => [r.cameraCert, r.bundleSignature, r.authorityId]

/-- What the fields fall into at their colons. -/
def pieces (r : Request) : List (List Char) := Text.pieces ':' r.fields

/-- How many colons each field holds. -/
def shape (r : Request) : List Nat := Text.shape ':' r.fields

theorem keyText_eq_join (r : Request) : r.keyText = Text.join (String.singleton ':') r.fields := by
  cases r with
  | token r => rfl
  | certificate r => rfl

theorem fields_ne_nil (r : Request) : r.fields ≠ [] := by
  cases r with
  | token r => exact List.cons_ne_nil _ _
  | certificate r => exact List.cons_ne_nil _ _

/-- The texts of two keys are the same exactly when the pieces are. -/
theorem keyText_eq_iff (r s : Request) : r.keyText = s.keyText ↔ r.pieces = s.pieces := by
  rw [keyText_eq_join, keyText_eq_join]
  exact Text.join_eq_iff r.fields_ne_nil s.fields_ne_nil

theorem eq_of_gpsText_eq {p q : Option String} (hp : ∀ hash ∈ p, HashText.wellFormed hash = true)
    (hq : ∀ hash ∈ q, HashText.wellFormed hash = true) (h : p.getD "" = q.getD "") : p = q := by
  have hempty : HashText.wellFormed "" = false := by decide
  cases p with
  | none =>
    cases q with
    | none => rfl
    | some t =>
      have hwell := hq t rfl
      rw [show t = "" from h.symm, hempty] at hwell
      cases hwell
  | some s =>
    cases q with
    | none =>
      have hwell := hp s rfl
      rw [show s = "" from h, hempty] at hwell
      cases hwell
    | some t => exact congrArg some h

theorem eq_of_fields_eq {r s : Request} (hr : r.Proper) (hs : s.Proper)
    (h : r.fields = s.fields) : r = s := by
  cases r with
  | token r =>
    cases s with
    | token s =>
      simp only [fields, List.cons.injEq] at h
      obtain ⟨hcipher, htag, hnonce, htable, hkey, hauthority, -⟩ := h
      have htableId := hr.tableId.1.toText_inj hs.tableId.1 htable
      have hkeyIndex := hr.keyIndex.1.toText_inj hs.keyIndex.1 hkey
      cases r
      cases s
      simp only at hcipher htag hnonce htableId hkeyIndex hauthority
      rw [hcipher, htag, hnonce, htableId, hkeyIndex, hauthority]
    | certificate s => cases congrArg List.length h
  | certificate r =>
    cases s with
    | token s => cases congrArg List.length h
    | certificate s =>
      simp only [fields, List.cons.injEq] at h
      obtain ⟨-, hcert, himage, htime, hgps, hsignature, hauthority, -⟩ := h
      have htimestamp := hr.timestamp.toText_inj hs.timestamp htime
      obtain ⟨p, hp, hpwell⟩ := hr.gpsHash
      obtain ⟨q, hq, hqwell⟩ := hs.gpsHash
      rw [hp, hq, Option.join_some, Option.join_some] at hgps
      have hgpsHash : r.gpsHash = s.gpsHash := by
        rw [hp, hq, eq_of_gpsText_eq hpwell hqwell hgps]
      cases r
      cases s
      simp only at hcert himage htimestamp hgpsHash hsignature hauthority
      rw [hcert, himage, htimestamp, hgpsHash, hsignature, hauthority]

/-- Two questions with one key text are the same exactly when their colons fall alike. -/
theorem eq_iff_shape_eq {r s : Request} (hr : r.Proper) (hs : s.Proper)
    (h : r.keyText = s.keyText) : r = s ↔ r.shape = s.shape := by
  constructor
  · intro heq
    rw [heq]
  · intro hshape
    exact eq_of_fields_eq hr hs (Text.eq_of_pieces_eq hshape ((keyText_eq_iff r s).mp h))

/-- No proper question has the pieces of this one in fields of another shape. -/
def Unshared (s : Request) : Prop := ∀ r : Request, r.Proper → r.pieces = s.pieces →
  r.shape = s.shape

theorem unshared_iff {s : Request} (hs : s.Proper) :
    s.Unshared ↔ ∀ r : Request, r.Proper → r.keyText = s.keyText → r = s := by
  constructor
  · intro h r hr htext
    exact (eq_iff_shape_eq hr hs htext).mpr (h r hr ((keyText_eq_iff r s).mp htext))
  · intro h r hr hpieces
    rw [h r hr ((keyText_eq_iff r s).mpr hpieces)]

/-- The fields of a question hold no colon when its free texts hold none. -/
theorem colon_not_mem_fields {s : Request} (hs : s.Proper) (h : ∀ t ∈ s.texts, ':' ∉ t.toList) :
    ∀ f ∈ s.fields, ':' ∉ f.toList := by
  have hhash : ∀ t : String, HashText.wellFormed t = true → ':' ∉ t.toList := by
    intro t ht hc
    rw [HashText.wellFormed, Bool.and_eq_true, List.all_eq_true] at ht
    exact absurd (ht.2 ':' hc) (by decide)
  cases s with
  | token s =>
    simp only [texts, List.forall_mem_cons] at h
    obtain ⟨hcipher, htag, hnonce, hauthority, -⟩ := h
    simp only [fields, List.forall_mem_cons]
    exact ⟨hcipher, htag, hnonce, hs.tableId.1.colon_not_mem, hs.keyIndex.1.colon_not_mem,
      hauthority, List.forall_mem_nil _⟩
  | certificate s =>
    simp only [texts, List.forall_mem_cons] at h
    obtain ⟨hcert, hsignature, hauthority, -⟩ := h
    have hgps : ':' ∉ ((s.gpsHash.join).getD "").toList := by
      obtain ⟨gps, hgps, hwell⟩ := hs.gpsHash
      rw [hgps, Option.join_some]
      cases gps with
      | none => decide
      | some hash => exact hhash hash (hwell hash rfl)
    simp only [fields, List.forall_mem_cons]
    exact ⟨by decide, hcert, hhash _ hs.imageHash, hs.timestamp.colon_not_mem, hgps, hsignature,
      hauthority, List.forall_mem_nil _⟩

/-- Where a certificate without colons has its GPS hash, a token's question of as many pieces has
one of its numbers. -/
theorem token_piece_four {r : TokenRequest} (hr : r.Proper) (h : (token r).pieces.length = 7) :
    ∃ x : Number, x.Whole ∧ (token r).pieces[4]? = some x.toText.toList := by
  have htable := hr.tableId.1.colon_not_mem
  have hkey := hr.keyIndex.1.colon_not_mem
  have hfront := Text.length_pieces ':' [r.ciphertext, r.authTag, r.nonce]
  have hnext := Text.length_pieces ':' [r.ciphertext, r.authTag, r.nonce, r.tableId.toText]
  have htableCount := List.count_eq_zero.mpr htable
  rw [pieces, Text.length_pieces] at h
  simp only [fields, Text.shape, List.map_cons, List.map_nil, List.sum_cons, List.sum_nil,
    List.length_cons, List.length_nil] at h hfront hnext
  by_cases hcolon : (Text.pieces ':' [r.ciphertext, r.authTag, r.nonce]).length = 4
  · refine ⟨r.tableId, hr.tableId.1, ?_⟩
    have hpiece := Text.getElem?_pieces [r.ciphertext, r.authTag, r.nonce]
      [r.keyIndex.toText, r.authorityId] htable
    rw [hcolon] at hpiece
    exact hpiece
  · have hplain : (Text.pieces ':' [r.ciphertext, r.authTag, r.nonce, r.tableId.toText]).length =
        4 := by omega
    refine ⟨r.keyIndex, hr.keyIndex.1, ?_⟩
    have hpiece := Text.getElem?_pieces [r.ciphertext, r.authTag, r.nonce, r.tableId.toText]
      [r.authorityId] hkey
    rw [hplain] at hpiece
    exact hpiece

theorem pieces_token_ne {r : TokenRequest} {s : CertificateRequest} (hr : r.Proper) (hs : s.Proper)
    (hfree : ∀ f ∈ (certificate s).fields, ':' ∉ f.toList) :
    (token r).pieces ≠ (certificate s).pieces := by
  intro h
  have hlength : (certificate s).pieces.length = 7 := by
    rw [pieces, Text.length_pieces, Text.shape_of_not_mem hfree]
    rfl
  obtain ⟨x, hx, hpiece⟩ := token_piece_four hr (h ▸ hlength)
  have hfront : (Text.pieces ':' ["cert", s.cameraCert, s.imageHash, s.timestamp.toText]).length =
      4 := by
    rw [Text.length_pieces, Text.shape_of_not_mem fun f hf => hfree f (List.mem_append_left
      [(s.gpsHash.join).getD "", s.bundleSignature, s.authorityId] hf)]
    rfl
  have hgpsFree : ':' ∉ ((s.gpsHash.join).getD "").toList := hfree _ (by simp [fields])
  have hgps := Text.getElem?_pieces ["cert", s.cameraCert, s.imageHash, s.timestamp.toText]
    [s.bundleSignature, s.authorityId] hgpsFree
  rw [hfront] at hgps
  rw [h] at hpiece
  have htext : x.toText = (s.gpsHash.join).getD "" :=
    String.toList_inj.mp (Option.some.inj (hpiece.symm.trans hgps))
  obtain ⟨gps, hsome, hwell⟩ := hs.gpsHash
  rw [hsome, Option.join_some] at htext
  cases gps with
  | none => exact hx.toText_ne_empty htext
  | some hash =>
    have hhash := hwell hash rfl
    rw [show hash = x.toText from htext.symm, hx.not_wellFormed] at hhash
    cases hhash

/-- A question without colons in its free texts shares its key's text with no other one. -/
theorem unshared_of_colonFree {s : Request} (hs : s.Proper) (h : ∀ t ∈ s.texts, ':' ∉ t.toList) :
    s.Unshared := by
  intro r hr hpieces
  have hfree := colon_not_mem_fields hs h
  have hshape : s.shape = List.replicate s.fields.length 0 := Text.shape_of_not_mem hfree
  have hlength := congrArg List.length hpieces
  rw [pieces, pieces, Text.length_pieces, Text.length_pieces, ← shape, ← shape, hshape,
    List.sum_replicate_nat, Nat.mul_zero, Nat.zero_add] at hlength
  have hsame : r.fields.length = s.fields.length → r.shape = s.shape := by
    intro hfields
    have hsum : r.shape.sum = 0 := by omega
    rw [hshape, ← hfields]
    refine List.eq_replicate_iff.mpr ⟨List.length_map .., fun n hn => ?_⟩
    exact List.sum_eq_zero_iff.mp hsum n hn
  cases r with
  | token r =>
    cases s with
    | token s => exact hsame rfl
    | certificate s => exact absurd hpieces (pieces_token_ne hr hs hfree)
  | certificate r =>
    cases s with
    | token s =>
      simp only [fields, List.length_cons, List.length_nil] at hlength
      omega
    | certificate s => exact hsame rfl

end Request

end ImageLedger.Authority
