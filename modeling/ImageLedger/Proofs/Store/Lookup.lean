import ImageLedger.Proofs.Store.Append
import ImageLedger.Proofs.Text.Distinct
import ImageLedger.Store.Query

namespace ImageLedger.Store

section Portions

variable {α : Type}

/-- The first portions hold the first items. -/
theorem flatten_first_portions (size count : Nat) (items : List α) :
    ((List.range count).map fun k => (items.drop (k * size)).take size).flatten =
      items.take (count * size) := by
  induction count with
  | zero => simp
  | succ count ih =>
    rw [List.range_succ, List.map_append, List.flatten_append, ih, Nat.succ_mul, List.take_add]
    simp

/-- Portions lose no item and repeat none. -/
theorem flatten_portions {size : Nat} (hsize : 0 < size) (items : List α) :
    (portions size items).flatten = items := by
  have hcount : items.length ≤ (items.length + size - 1) / size * size := by
    have hlast := Nat.lt_div_mul_add (a := items.length + size - 1) hsize
    omega
  rw [portions, flatten_first_portions, List.take_of_length_le hcount]

end Portions

variable {s : Store} {size : Nat} {hash : String} {hashes others found : List String}

theorem mem_recordedAmong :
    hash ∈ s.recordedAmong hashes ↔ hash ∈ hashes ∧ ∃ r ∈ s.images, r.imageHash = hash := by
  rw [recordedAmong, List.mem_map]
  constructor
  · rintro ⟨r, hr, rfl⟩
    obtain ⟨hmem, hasked⟩ := List.mem_filter.mp hr
    exact ⟨of_decide_eq_true hasked, r, hmem, rfl⟩
  · rintro ⟨hasked, r, hmem, rfl⟩
    exact ⟨r, List.mem_filter.mpr ⟨hmem, decide_eq_true hasked⟩, rfl⟩

theorem mem_existingIn (hsize : 0 < size) :
    hash ∈ s.existingIn size hashes ↔ hash ∈ hashes ∧ ∃ r ∈ s.images, r.imageHash = hash := by
  have hportion : (∃ portion ∈ portions size (Text.distinct hashes), hash ∈ portion) ↔
      hash ∈ hashes := by
    rw [← List.mem_flatten, flatten_portions hsize, Text.mem_distinct]
  rw [existingIn, Text.mem_distinct, List.mem_flatMap, ← hportion]
  constructor
  · rintro ⟨portion, hmem, hfound⟩
    obtain ⟨hasked, hrecord⟩ := mem_recordedAmong.mp hfound
    exact ⟨⟨portion, hmem, hasked⟩, hrecord⟩
  · rintro ⟨⟨portion, hmem, hasked⟩, hrecord⟩
    exact ⟨portion, hmem, mem_recordedAmong.mpr ⟨hasked, hrecord⟩⟩

theorem mem_existingOf :
    hash ∈ s.existingOf hashes ↔ hash ∈ hashes ∧ ∃ r ∈ s.images, r.imageHash = hash :=
  mem_existingIn (by decide)

theorem existingOf_eq_nil :
    s.existingOf hashes = [] ↔ ∀ r ∈ s.images, r.imageHash ∉ hashes := by
  rw [List.eq_nil_iff_forall_not_mem]
  constructor
  · intro h r hr hmem
    exact h r.imageHash (mem_existingOf.mpr ⟨hmem, r, hr, rfl⟩)
  · intro h hash hfound
    obtain ⟨hmem, r, hr, rfl⟩ := mem_existingOf.mp hfound
    exact h r hr hmem

/-- A single lookup finds something exactly when a record has the small form of what is asked. -/
theorem isSome_image? {text : String} :
    (s.image? text).isSome = true ↔
      ∃ r ∈ s.images, HashText.normalize? text = some r.imageHash := by
  rw [image?]
  cases HashText.normalize? text with
  | none => simp
  | some h =>
    simp only [List.find?_isSome, decide_eq_true_eq, Option.some.injEq]
    exact exists_congr fun r => and_congr_right fun _ => eq_comm

/-- The answer to a lookup of some hashes: the small forms of those that are found one by one, each
of them once. -/
structure Answers (s : Store) (hashes found : List String) : Prop where
  nodup : found.Nodup
  mem : ∀ hash, hash ∈ found ↔
    hash ∈ hashes.map HashText.lower ∧ (s.image? hash).isSome = true

/-- Hashes that differ in their order, their spelling and their repeats have one answer. -/
theorem Answers.perm {found' : List String} (h : s.Answers hashes found)
    (h' : s.Answers others found')
    (hsame : ∀ hash, hash ∈ others.map HashText.lower ↔ hash ∈ hashes.map HashText.lower) :
    found'.Perm found := by
  refine (List.perm_ext_iff_of_nodup h'.nodup h.nodup).mpr fun hash => ?_
  rw [h'.mem, h.mem, hsame]

theorem answers_existingIn (hsize : 0 < size)
    (hwell : ∀ hash ∈ hashes, HashText.wellFormed hash = true) :
    s.Answers hashes (s.existingIn size (hashes.map HashText.lower)) where
  nodup := Text.nodup_distinct _
  mem := by
    intro hash
    rw [mem_existingIn hsize]
    refine and_congr_right fun hmem => ?_
    obtain ⟨given, hgiven, rfl⟩ := List.mem_map.mp hmem
    have hnormal := HashText.normalize?_eq_some.mpr ⟨hwell given hgiven, rfl⟩
    rw [isSome_image?, HashText.normalize?_of_normalize? hnormal]
    exact exists_congr fun r => and_congr_right fun _ => eq_comm.trans Option.some_inj.symm

theorem existing_eq_ok : s.existing hashes = .ok found ↔
    (∀ hash ∈ hashes, HashText.wellFormed hash = true) ∧
      found = s.existingOf (hashes.map HashText.lower) := by
  rw [existing]
  cases hnormal : normalizeAll hashes with
  | ok lowered =>
    obtain ⟨hwell, rfl⟩ := normalizeAll_eq_ok.mp hnormal
    constructor
    · intro h
      exact ⟨hwell, (Except.ok.inj h).symm⟩
    · rintro ⟨-, rfl⟩
      rfl
  | error e =>
    have hnot : ¬ ∀ hash ∈ hashes, HashText.wellFormed hash = true := fun hwell => by
      rw [normalizeAll_eq_ok.mpr ⟨hwell, rfl⟩] at hnormal
      cases hnormal
    simp [hnot]

/-- A lookup of many hashes answers exactly when all are well-formed, and names a malformed one
otherwise. Its answer is that of looking them up one by one, and no other order, spelling, repeats
or size of the portions give another one. -/
theorem lookups_agree (s : Store) (hashes : List String) :
    ((∃ found, s.existing hashes = .ok found) ↔
      ∀ hash ∈ hashes, HashText.wellFormed hash = true) ∧
    (∀ e, s.existing hashes = .error e →
      ∃ hash ∈ hashes, HashText.wellFormed hash = false ∧ e = .malformedHash hash) ∧
    ∀ found, s.existing hashes = .ok found → s.Answers hashes found ∧
      ∀ (size : Nat) (others : List String), 0 < size →
        (∀ hash, hash ∈ others.map HashText.lower ↔ hash ∈ hashes.map HashText.lower) →
        (s.existingIn size (others.map HashText.lower)).Perm found := by
  refine ⟨?_, fun e herror => ?_, fun found hfound => ?_⟩
  · simp only [existing_eq_ok]
    exact ⟨fun ⟨_, hwell, _⟩ => hwell, fun hwell => ⟨_, hwell, rfl⟩⟩
  · rw [existing] at herror
    split at herror
    · cases herror
    · next hnormal =>
      obtain rfl := Except.error.inj herror
      exact exists_malformed_of_normalizeAll hnormal
  · obtain ⟨hwell, rfl⟩ := existing_eq_ok.mp hfound
    have hanswer : s.Answers hashes (s.existingOf (hashes.map HashText.lower)) :=
      answers_existingIn (by decide) hwell
    refine ⟨hanswer, fun size others hsize hsame => ?_⟩
    have hothers : ∀ hash ∈ others, HashText.wellFormed hash = true := by
      intro hash hmem
      obtain ⟨given, hgiven, heq⟩ := List.mem_map.mp ((hsame _).mp (List.mem_map_of_mem hmem))
      rw [← HashText.wellFormed_lower, ← heq, HashText.wellFormed_lower]
      exact hwell given hgiven
    exact hanswer.perm (answers_existingIn hsize hothers) hsame

/-- Sixty-four times one letter. -/
def ofLetter (letter : Char) : String := String.ofList (List.replicate 64 letter)

/-- A store with one image. -/
def oneImage : Store :=
  { empty with images :=
    [⟨ofLetter 'a', 1, 0, 1700000000, 0, none, "camera_1", none, none⟩] }

/-- A hash that is asked for in two spellings is found once, also in portions of one hash. -/
theorem lookups_agree_respelled :
    oneImage.existing [ofLetter 'A', ofLetter 'b', ofLetter 'a'] = .ok [ofLetter 'a'] ∧
      oneImage.Answers [ofLetter 'A', ofLetter 'b', ofLetter 'a'] [ofLetter 'a'] ∧
      (oneImage.existingIn 1 ([ofLetter 'b', ofLetter 'A'].map HashText.lower)).Perm
        [ofLetter 'a'] := by
  have hfound : oneImage.existing [ofLetter 'A', ofLetter 'b', ofLetter 'a'] =
      .ok [ofLetter 'a'] := by decide +kernel
  obtain ⟨hanswer, hagree⟩ := (lookups_agree oneImage _).2.2 _ hfound
  refine ⟨hfound, hanswer, hagree 1 [ofLetter 'b', ofLetter 'A'] Nat.one_pos fun hash => ?_⟩
  have hspelled : HashText.lower (ofLetter 'A') = HashText.lower (ofLetter 'a') := by
    decide +kernel
  simp only [List.map_cons, List.map_nil, List.mem_cons, List.not_mem_nil, or_false, hspelled]
  constructor
  · rintro (hother | hfirst)
    · exact .inr (.inl hother)
    · exact .inl hfirst
  · rintro (hfirst | hother | hlast)
    · exact .inr hfirst
    · exact .inl hother
    · exact .inr hlast

end ImageLedger.Store
