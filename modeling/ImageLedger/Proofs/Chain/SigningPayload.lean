import ImageLedger.Chain.Commitment
import ImageLedger.Proofs.Merkle.Existence
import ImageLedger.Proofs.Number.WholeText
import ImageLedger.Proofs.Text.Pieces

namespace ImageLedger

namespace HashText

section Join

variable {hashes hashes' : List String}

theorem comma_not_mem {s : String} (h : wellFormed s = true) : ',' ∉ s.toList := by
  rw [wellFormed, Bool.and_eq_true, List.all_eq_true] at h
  intro hc
  exact absurd (h.2 ',' hc) (by decide)

/-- Every hash but the first brings a comma with it. -/
theorem length_join (hwell : ∀ s ∈ hashes, wellFormed s = true) :
    (Text.join "," hashes).toList.length = 65 * hashes.length - 1 := by
  induction hashes with
  | nil => rfl
  | cons s rest ih =>
    obtain ⟨hs, hrest⟩ := List.forall_mem_cons.mp hwell
    have hlength := length_of_wellFormed hs
    have htail := ih hrest
    cases rest with
    | nil => simpa [Text.join] using hlength
    | cons t rest =>
      rw [Text.join, String.intercalate_cons_cons, String.toList_append, String.toList_append,
        List.length_append, List.length_append, hlength]
      rw [Text.join] at htail
      rw [htail]
      simp
      omega

/-- Equally many hashes are told from the joined text. -/
theorem join_inj (hwell : ∀ s ∈ hashes', wellFormed s = true)
    (hcount : hashes.length = hashes'.length)
    (h : Text.join "," hashes = Text.join "," hashes') : hashes = hashes' :=
  (Text.eq_iff_length_of_join_eq (a := ',') h fun s hs => comma_not_mem (hwell s hs)).mpr hcount

end Join

end HashText

/-- What a validator signs of a block: these parts next to each other, without marks between them.
-/
structure SignedBlock where
  height : Number
  previousHash : String
  timestamp : Number
  hashes : List String
  validatorId : String
deriving DecidableEq

namespace SignedBlock

def payload (b : SignedBlock) : String :=
  signingPayload b.height b.previousHash b.timestamp b.hashes b.validatorId

/-- A natural height, a positive time, hashes of sixty-four digits and an id. -/
structure WellFormed (b : SignedBlock) : Prop where
  height : b.height.Whole ∧ Number.le 0 b.height = true
  previousHash : HashText.wellFormed b.previousHash = true
  timestamp : b.timestamp.Whole ∧ Number.lt 0 b.timestamp = true
  hashes : ∀ hash ∈ b.hashes, HashText.wellFormed hash = true
  validatorId : b.validatorId ≠ ""

def heightLength (b : SignedBlock) : Nat := b.height.toText.toList.length

def timestampLength (b : SignedBlock) : Nat := b.timestamp.toText.toList.length

variable {a b : SignedBlock}

theorem toList_payload (b : SignedBlock) : b.payload.toList =
    b.height.toText.toList ++ (b.previousHash.toList ++ (b.timestamp.toText.toList ++
      ((Text.join "," b.hashes).toList ++ b.validatorId.toList))) := by
  simp only [payload, signingPayload, String.toList_append, List.append_assoc]

/-- With all lengths known the text is cut in one way only. -/
theorem eq_of_lengths (ha : a.WellFormed) (hb : b.WellFormed) (h : a.payload = b.payload)
    (hheight : a.heightLength = b.heightLength) (htime : a.timestampLength = b.timestampLength)
    (hcount : a.hashes.length = b.hashes.length) : a = b := by
  have hprevious := (HashText.length_of_wellFormed ha.previousHash).trans
    (HashText.length_of_wellFormed hb.previousHash).symm
  have hjoin : (Text.join "," a.hashes).toList.length = (Text.join "," b.hashes).toList.length := by
    rw [HashText.length_join ha.hashes, HashText.length_join hb.hashes, hcount]
  rw [← String.toList_inj, toList_payload, toList_payload] at h
  obtain ⟨h₁, h⟩ := List.append_inj h hheight
  obtain ⟨h₂, h⟩ := List.append_inj h hprevious
  obtain ⟨h₃, h⟩ := List.append_inj h htime
  obtain ⟨h₄, h₅⟩ := List.append_inj h hjoin
  have e₁ := Number.Whole.toText_inj ha.height.1 hb.height.1 (String.toList_inj.mp h₁)
  have e₂ := String.toList_inj.mp h₂
  have e₃ := Number.Whole.toText_inj ha.timestamp.1 hb.timestamp.1 (String.toList_inj.mp h₃)
  have e₄ := HashText.join_inj hb.hashes hcount (String.toList_inj.mp h₄)
  have e₅ := String.toList_inj.mp h₅
  cases a
  cases b
  simp only at e₁ e₂ e₃ e₄ e₅
  rw [e₁, e₂, e₃, e₄, e₅]

theorem length_payload (hb : b.WellFormed) : b.payload.toList.length =
    b.heightLength + 64 + b.timestampLength + (65 * b.hashes.length - 1) +
      b.validatorId.toList.length := by
  rw [toList_payload]
  simp only [List.length_append, HashText.length_join hb.hashes,
    HashText.length_of_wellFormed hb.previousHash, heightLength, timestampLength]
  omega

/-- For one validator a single length fixes the others, for a number is shorter than a hash. -/
theorem lengths_of_validatorId (ha : a.WellFormed) (hb : b.WellFormed) (h : a.payload = b.payload)
    (hvalidator : a.validatorId = b.validatorId)
    (hlength : a.heightLength = b.heightLength ∨ a.timestampLength = b.timestampLength) :
    a.heightLength = b.heightLength ∧ a.timestampLength = b.timestampLength ∧
      a.hashes.length = b.hashes.length := by
  have htotal := congrArg (fun s => s.toList.length) h
  simp only [length_payload ha, length_payload hb, hvalidator] at htotal
  have hheight : a.heightLength ≤ 25 := ha.height.1.length_toText_le
  have hheight' : b.heightLength ≤ 25 := hb.height.1.length_toText_le
  have htime : a.timestampLength ≤ 25 := ha.timestamp.1.length_toText_le
  have htime' : b.timestampLength ≤ 25 := hb.timestamp.1.length_toText_le
  omega

/-- Blocks with one signed text are the same exactly when their numbers are equally long and they
have equally many hashes. Under one validator it is enough that either number is. -/
theorem eq_iff_of_payload_eq (ha : a.WellFormed) (hb : b.WellFormed) (h : a.payload = b.payload) :
    (a = b ↔ a.heightLength = b.heightLength ∧ a.timestampLength = b.timestampLength ∧
      a.hashes.length = b.hashes.length) ∧
    (a.validatorId = b.validatorId →
      (a.heightLength = b.heightLength ∨ a.timestampLength = b.timestampLength) → a = b) := by
  constructor
  · constructor
    · rintro rfl
      exact ⟨rfl, rfl, rfl⟩
    · rintro ⟨hheight, htime, hcount⟩
      exact eq_of_lengths ha hb h hheight htime hcount
  · intro hvalidator hlength
    obtain ⟨hheight, htime, hcount⟩ := lengths_of_validatorId ha hb h hvalidator hlength
    exact eq_of_lengths ha hb h hheight htime hcount

/-- The block after the genesis one, at a time of two digits. -/
def second : SignedBlock :=
  ⟨1, String.ofList ('0' :: List.replicate 63 'a'), 12, [], "v"⟩

/-- A block ten places up, at a time of one digit, whose predecessor's hash ends in a digit. -/
def eleventh : SignedBlock :=
  ⟨10, String.ofList (List.replicate 63 'a' ++ ['1']), 2, [], "v"⟩

theorem second_wellFormed : second.WellFormed where
  height := ⟨Number.whole_ofNat (n := 1) (by decide), by decide⟩
  previousHash := by decide
  timestamp := ⟨Number.whole_ofNat (n := 12) (by decide), by decide⟩
  hashes := nofun
  validatorId := by decide

theorem eleventh_wellFormed : eleventh.WellFormed where
  height := ⟨Number.whole_ofNat (n := 10) (by decide), by decide⟩
  previousHash := by decide
  timestamp := ⟨Number.whole_ofNat (n := 2) (by decide), by decide⟩
  hashes := nofun
  validatorId := by decide

theorem second_payload : second.payload = eleventh.payload := by decide

theorem two_blocks_of_one_payload : second.WellFormed ∧ eleventh.WellFormed ∧
    second.payload = eleventh.payload ∧ second ≠ eleventh :=
  ⟨second_wellFormed, eleventh_wellFormed, second_payload, by decide⟩

theorem second_told_by_lengths :
    second.payload = eleventh.payload ∧ second.heightLength ≠ eleventh.heightLength ∧
      second.timestampLength ≠ eleventh.timestampLength := by
  have h := eq_iff_of_payload_eq second_wellFormed eleventh_wellFormed second_payload
  have hne : second ≠ eleventh := by decide
  refine ⟨second_payload, ?_, ?_⟩
  · exact fun hheight => hne (h.2 rfl (Or.inl hheight))
  · exact fun htime => hne (h.2 rfl (Or.inr htime))

end SignedBlock

end ImageLedger
