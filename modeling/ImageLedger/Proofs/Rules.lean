import ImageLedger.Rules
import ImageLedger.Proofs.Store.Append
import ImageLedger.Proofs.Text.Distinct

namespace ImageLedger.Rules

/-- What an accepted batch looks like to a validator. -/
structure Accepts (options : Options) (existing : List String → List String) (now : Number)
    (tx : BatchTransaction) : Prop where
  submitter : ∀ allowed, options.authorizedSubmitters = some allowed → tx.submitterId ∈ allowed
  wellFormed : Store.HashesWellFormed tx
  lengths : checkLengths tx.received = none
  fields : ∀ i < tx.imageHashes.length, checkFields (entryAt tx.received i) = none
  nodup : (Store.lowerHashes tx).Nodup
  fresh : existing (Store.lowerHashes tx) = []
  times : ∀ t ∈ tx.timestamps, checkTimestamp now (some (.number t)) = none
  size : checkSize options tx.imageHashes.length = none

variable {options : Options} {tx : BatchTransaction}

theorem checkSubmitter_eq_none {submitter : String} : checkSubmitter options submitter = none ↔
    ∀ allowed, options.authorizedSubmitters = some allowed → submitter ∈ allowed := by
  unfold checkSubmitter
  split
  · next hnone => simp [hnone]
  · next allowed hsome => simp [hsome]

theorem ofJson?_text (h : String) : HashText.ofJson? (some (.text h)) =
    if HashText.wellFormed h = true then some h else none := rfl

theorem checkHashes_eq_none :
    checkHashes tx.received.imageHashes = none ↔ Store.HashesWellFormed tx := by
  have hhash : ∀ h : String, (if (HashText.ofJson? (some (.text h))).isSome = true then none
      else some (Violation.malformedHash (Json.text h).display)) = none ↔
        HashText.wellFormed h = true := by
    intro h
    rw [ofJson?_text]
    by_cases hw : HashText.wellFormed h = true <;> simp [hw]
  simp only [checkHashes, BatchTransaction.received, List.findSome?_eq_none_iff,
    List.forall_mem_map, hhash]
  rfl

theorem normalizedHashes_received (h : Store.HashesWellFormed tx) :
    normalizedHashes tx.received = Store.lowerHashes tx := by
  rw [normalizedHashes, BatchTransaction.received, List.filterMap_map, Store.lowerHashes,
    List.filterMap_eq_map_iff_forall_eq_some]
  intro hash hmem
  rw [Function.comp_apply, ofJson?_text, if_pos (h hash hmem)]
  rfl

theorem checkRepeats_eq_none {hashes : List String} :
    checkRepeats hashes = none ↔ hashes.Nodup := by
  rw [← Text.length_distinct_iff]
  unfold checkRepeats
  split_ifs with h <;> simp [h]

theorem checkOnChain_eq_none {existing : List String} :
    checkOnChain existing = none ↔ existing = [] := by
  unfold checkOnChain
  split_ifs with h
  · simpa using h
  · simpa using h

/-- A batch passes when it meets every rule. -/
theorem validate_eq_none {existing : List String → List String} {now : Number} :
    validate options existing now tx.received = none ↔ Accepts options existing now tx := by
  simp only [validate, checkForm, checkRanges, Option.or_eq_none_iff, checkRepeats_eq_none,
    checkOnChain_eq_none, checkSubmitter_eq_none, checkHashes_eq_none]
  have hcount : tx.received.imageHashes.length = tx.imageHashes.length := List.length_map _
  have hfields : (List.range tx.received.imageHashes.length).findSome?
      (fun i => checkFields (entryAt tx.received i)) = none ↔
        ∀ i < tx.imageHashes.length, checkFields (entryAt tx.received i) = none := by
    rw [List.findSome?_eq_none_iff, hcount]
    simp only [List.mem_range]
  have htimes : tx.received.timestamps.findSome? (fun t => checkTimestamp now (some t)) = none ↔
      ∀ t ∈ tx.timestamps, checkTimestamp now (some (.number t)) = none := by
    rw [List.findSome?_eq_none_iff]
    exact List.forall_mem_map
  rw [hfields, htimes, hcount]
  constructor
  · intro hparts
    obtain ⟨⟨hsubmitter, hwell, hlengths, hfields, hnodup⟩, hfresh, htimes, hsize⟩ := hparts
    rw [normalizedHashes_received hwell] at hnodup hfresh
    exact ⟨hsubmitter, hwell, hlengths, hfields, hnodup, hfresh, htimes, hsize⟩
  · intro h
    rw [normalizedHashes_received h.wellFormed]
    exact ⟨⟨h.submitter, h.wellFormed, h.lengths, h.fields, h.nodup⟩, h.fresh, h.times, h.size⟩

/-- The rules without bounds on the size of a batch: nothing is less or greater than no number. -/
def Options.sizeless (options : Options) : Options :=
  { options with batchSizeMin := .nan, batchSizeMax := .nan }

/-- A check that reports one rule only. -/
def Reports (rule : Rule) (check : Option Violation) : Prop := ∀ v, check = some v → v.rule = rule

section Reports

variable {rule : Rule} {check other : Option Violation}

theorem Reports.or (h : Reports rule check) (h' : Reports rule other) :
    Reports rule (check.or other) := by
  intro v hv
  rcases Option.or_eq_some_iff.mp hv with hv | ⟨-, hv⟩
  · exact h v hv
  · exact h' v hv

theorem Reports.findSome? {α : Type} {f : α → Option Violation} (h : ∀ a, Reports rule (f a))
    (as : List α) : Reports rule (as.findSome? f) := by
  intro v hv
  obtain ⟨a, -, ha⟩ := List.exists_of_findSome?_eq_some hv
  exact h a v ha

theorem reports_ite {c : Prop} [Decidable c] (v : Violation) :
    Reports v.rule (if c then none else some v) := by
  intro w hw
  split at hw
  · cases hw
  · exact congrArg Violation.rule (Option.some.inj hw).symm

theorem reports_checkSubmitter (submitter : String) :
    Reports .submitterAuthorization (checkSubmitter options submitter) := by
  unfold checkSubmitter
  split
  · exact nofun
  · exact reports_ite (.unauthorizedSubmitter submitter)

theorem reports_checkHashes (hashes : List Json) : Reports .hashFormat (checkHashes hashes) := by
  refine .findSome? (fun value => ?_) hashes
  exact reports_ite (.malformedHash value.display)

theorem reports_checkLengths (received : ReceivedBatch) :
    Reports .arrayLength (checkLengths received) := by
  refine .findSome? (fun column => ?_) _
  split
  · exact reports_ite (.lengthMismatch _)
  · exact nofun

theorem reports_checkFields (e : ReceivedEntry) : Reports .entryFormat (checkFields e) := by
  have hlevel : ∀ level, Reports .entryFormat (checkLevel level) := by
    intro level
    cases level with
    | none => exact fun v hv => Option.some.inj hv ▸ rfl
    | some v => exact reports_ite (.unknownLevel v.display)
  have hlink : ∀ link value, Reports .entryFormat (checkLink link value) := by
    intro link value
    unfold checkLink
    split
    · exact nofun
    · exact nofun
    · exact reports_ite (.malformedLink link _)
  exact (hlevel _).or ((hlink _ _).or ((hlink _ _).or (hlink _ _)))

theorem reports_checkRepeats (hashes : List String) :
    Reports .duplicateInTransaction (checkRepeats hashes) := reports_ite .repeatedHash

theorem reports_checkOnChain (existing : List String) :
    Reports .duplicateOnChain (checkOnChain existing) :=
  reports_ite (.alreadyOnChain (Text.sort existing))

theorem reports_checkTimestamp (now : Number) (timestamp : Option Json) :
    Reports .timestampRange (checkTimestamp now timestamp) := by
  intro v hv
  unfold checkTimestamp at hv
  split at hv
  · split_ifs at hv
    all_goals
      obtain rfl := Option.some.inj hv
      rfl
  · obtain rfl := Option.some.inj hv
    rfl

theorem reports_checkSize (count : Nat) : Reports .batchSize (checkSize options count) := by
  intro v hv
  unfold checkSize at hv
  split_ifs at hv
  all_goals
    obtain rfl := Option.some.inj hv
    rfl

end Reports

/-- A check that never reports the size of a batch. -/
def Sizeless (check : Option Violation) : Prop := ∀ v, check = some v → v.rule ≠ .batchSize

section Sizeless

variable {check other : Option Violation}

theorem Reports.sizeless {rule : Rule} (h : Reports rule check) (hrule : rule ≠ .batchSize) :
    Sizeless check := fun v hv => h v hv ▸ hrule

theorem Sizeless.or (h : Sizeless check) (h' : Sizeless other) : Sizeless (check.or other) := by
  intro v hv
  rcases Option.or_eq_some_iff.mp hv with hv | ⟨-, hv⟩
  · exact h v hv
  · exact h' v hv

theorem sizeless_checkForm (options : Options) (tx : ReceivedBatch) :
    Sizeless (checkForm options tx) := by
  have hfields := Reports.findSome? (fun i => reports_checkFields (entryAt tx i))
    (List.range tx.imageHashes.length)
  exact ((reports_checkSubmitter _).sizeless nofun).or <|
    ((reports_checkHashes _).sizeless nofun).or <|
      ((reports_checkLengths _).sizeless nofun).or <|
        (hfields.sizeless nofun).or ((reports_checkRepeats _).sizeless nofun)

end Sizeless

section Validate

variable {existing : List String → List String} {now : Number} {received : ReceivedBatch}

theorem checkSize_sizeless (options : Options) (count : Nat) :
    checkSize options.sizeless count = none := by
  have hbelow : ∀ x : Number, Number.lt x .nan = false := by
    intro x
    cases x <;> rfl
  rw [checkSize, Options.sizeless, hbelow]
  rfl

/-- The size of a batch is looked at last. -/
theorem validate_eq_or_checkSize : validate options existing now received =
    (validate options.sizeless existing now received).or
      (checkSize options received.imageHashes.length) := by
  have hform : checkForm options.sizeless received = checkForm options received := rfl
  rw [validate, validate, checkRanges, checkRanges, hform, checkSize_sizeless, Option.or_none]
  simp only [Option.or_assoc]

/-- Without bounds on its size a batch breaks other rules only. -/
theorem sizeless_validate : Sizeless (validate options.sizeless existing now received) := by
  have htimes :=
    Reports.findSome? (fun t => reports_checkTimestamp now (some t)) received.timestamps
  refine (sizeless_checkForm _ _).or (.or ((reports_checkOnChain _).sizeless nofun) ?_)
  rw [checkRanges, checkSize_sizeless, Option.or_none]
  exact htimes.sizeless nofun

end Validate

end ImageLedger.Rules
