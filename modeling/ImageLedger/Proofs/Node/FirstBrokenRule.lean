import ImageLedger.Proofs.Node.AcceptedBatch
import Mathlib.Data.List.Perm.Basic
import Mathlib.Data.List.ReduceOption

namespace ImageLedger

namespace Rule

/-- Every rule, in the order of the checks. -/
def all : List Rule :=
  [submitterAuthorization, hashFormat, arrayLength, entryFormat, duplicateInTransaction,
    duplicateOnChain, timestampRange, batchSize]

theorem mem_all (rule : Rule) : rule ∈ all := by
  cases rule <;> decide

end Rule

namespace Number

variable {least most x : Number}

/-- From one number to another, both included. A bound that is no number excludes nothing. -/
def Within (least most x : Number) : Prop :=
  (least = .nan ∨ le least x = true) ∧ (most = .nan ∨ le x most = true)

instance : Decidable (Within least most x) :=
  inferInstanceAs (Decidable ((_ ∨ _) ∧ (_ ∨ _)))

theorem within_iff (hx : x ≠ nan) :
    Within least most x ↔ lt x least = false ∧ lt most x = false := by
  rw [lt_eq_false_iff, lt_eq_false_iff, Within]
  tauto

end Number

namespace BatchTransaction

/-- The columns of links that are there. -/
def linkColumns (tx : BatchTransaction) : List (List (Option String)) :=
  [tx.parentImageHashes, tx.gpsHashes, tx.ownerHashes].reduceOption

theorem forall_linkColumns {tx : BatchTransaction} {p : List (Option String) → Prop} :
    (∀ hashes ∈ tx.linkColumns, p hashes) ↔ (∀ hashes ∈ tx.parentImageHashes, p hashes) ∧
      (∀ hashes ∈ tx.gpsHashes, p hashes) ∧ ∀ hashes ∈ tx.ownerHashes, p hashes := by
  simp only [linkColumns, List.reduceOption_mem_iff, List.mem_cons, List.not_mem_nil, or_false,
    or_imp, forall_and, Option.mem_def, eq_comm]

/-- Every column that is there has a cell for each image hash. -/
structure Even (tx : BatchTransaction) : Prop where
  timestamps : tx.timestamps.length = tx.imageHashes.length
  levels : ∀ levels ∈ tx.modificationLevels, levels.length = tx.imageHashes.length
  links : ∀ hashes ∈ tx.linkColumns, hashes.length = tx.imageHashes.length

theorem even_iff {tx : BatchTransaction} : tx.Even ↔
    tx.timestamps.length = tx.imageHashes.length ∧
      (∀ levels ∈ tx.modificationLevels, levels.length = tx.imageHashes.length) ∧
      ∀ hashes ∈ tx.linkColumns, hashes.length = tx.imageHashes.length :=
  ⟨fun h => ⟨h.timestamps, h.levels, h.links⟩, fun ⟨h, h', h''⟩ => ⟨h, h', h''⟩⟩

instance {tx : BatchTransaction} : Decidable tx.Even := decidable_of_iff' _ even_iff

end BatchTransaction

namespace Rules

/-- What a rule asks of a batch on a ledger. -/
def Meets (options : Options) (s : Store) (now : Number) (tx : BatchTransaction) : Rule → Prop
  | .submitterAuthorization => ∀ allowed ∈ options.authorizedSubmitters, tx.submitterId ∈ allowed
  | .hashFormat => ∀ hash ∈ tx.imageHashes, HashText.wellFormed hash = true
  | .arrayLength => tx.Even
  | .entryFormat =>
    (∀ levels ∈ tx.modificationLevels, ∀ level ∈ levels, level.getD 0 ∈ [0, 1, 2]) ∧
      ∀ hashes ∈ tx.linkColumns, ∀ hash ∈ hashes.reduceOption, HashText.wellFormed hash = true
  | .duplicateInTransaction => (tx.imageHashes.map HashText.lower).Nodup
  | .duplicateOnChain =>
    ∀ hash ∈ tx.imageHashes, ∀ record ∈ s.images, record.imageHash ≠ HashText.lower hash
  | .timestampRange => ∀ t ∈ tx.timestamps, t.isFinite = true ∧
      Number.Within (Number.sub now maxAge) (Number.add now maxSkew) t
  | .batchSize => Number.Within options.batchSizeMin options.batchSizeMax
      (Number.ofNat tx.imageHashes.length)

variable {options : Options} {s : Store} {now : Number} {tx : BatchTransaction}

instance (rule : Rule) : Decidable (Meets options s now tx rule) :=
  match rule with
  | .submitterAuthorization => inferInstanceAs (Decidable (∀ allowed ∈ _, _ ∈ allowed))
  | .hashFormat => inferInstanceAs (Decidable (∀ hash ∈ _, HashText.wellFormed hash = true))
  | .arrayLength => inferInstanceAs (Decidable tx.Even)
  | .entryFormat => inferInstanceAs (Decidable (_ ∧ _))
  | .duplicateInTransaction => inferInstanceAs (Decidable (List.Nodup _))
  | .duplicateOnChain => inferInstanceAs (Decidable (∀ hash ∈ _, ∀ record ∈ _, _ ≠ _))
  | .timestampRange => inferInstanceAs (Decidable (∀ t ∈ _, _ ∧ _))
  | .batchSize => inferInstanceAs (Decidable (Number.Within _ _ _))

section Checks

theorem checkLengths_eq_none : checkLengths tx.received = none ↔ tx.Even := by
  rw [BatchTransaction.even_iff, BatchTransaction.forall_linkColumns, checkLengths,
    List.findSome?_eq_none_iff]
  simp only [List.forall_mem_cons, BatchTransaction.received, List.length_map]
  refine and_congr ?_ (and_congr ?_ (and_congr ?_ (and_congr ?_ ?_)))
  · simp
  · cases tx.modificationLevels <;> simp
  · cases tx.parentImageHashes <;> simp
  · cases tx.gpsHashes <;> simp
  · cases tx.ownerHashes <;> simp

/-- The cells of a column pass one by one when they pass place by place. -/
theorem forall_column {α : Type} {q : Option Json → Prop} {cell : α → Json}
    {cells : Option (List α)} {n : Nat} (hlength : ∀ c ∈ cells, c.length = n) (hnone : q none) :
    (∀ i < n, q ((cells.map (·.map cell)).bind (·[i]?))) ↔
      ∀ c ∈ cells, ∀ a ∈ c, q (some (cell a)) := by
  cases cells with
  | none => simpa using fun _ _ => hnone
  | some c =>
    obtain rfl := hlength c rfl
    simp only [Option.map_some, Option.bind_some, Option.mem_some_iff, forall_eq',
      List.forall_mem_iff_getElem, List.getElem?_map]
    refine forall₂_congr fun i hi => ?_
    rw [List.getElem?_eq_getElem hi, Option.map_some]

theorem checkLink_column (link : Link) {cells : Option (List (Option String))} {n : Nat}
    (hlength : ∀ c ∈ cells, c.length = n) :
    (∀ i < n, checkLink link ((cells.map (·.map textCell)).bind (·[i]?)) = none) ↔
      ∀ c ∈ cells, ∀ hash ∈ c.reduceOption, HashText.wellFormed hash = true := by
  have hcell : ∀ hash : Option String, checkLink link (some (textCell hash)) = none ↔
      ∀ h, hash = some h → HashText.wellFormed h = true := by
    intro hash
    cases hash with
    | none => simp [textCell, checkLink]
    | some h =>
      rw [textCell, checkLink, ofJson?_text]
      · by_cases hw : HashText.wellFormed h = true <;> simp [hw]
      · exact nofun
  rw [forall_column (q := fun v => checkLink link v = none) hlength rfl]
  simp only [hcell, List.reduceOption_mem_iff]
  refine forall₂_congr fun c hc => ?_
  constructor
  · intro h hash hmem
    exact h _ hmem hash rfl
  · rintro h _ hmem hash rfl
    exact h hash hmem

/-- The level that is read off a place in the column of levels. -/
def levelOf : Option Json → Json
  | some .null => .number 0
  | some v => v
  | none => .number 0

theorem levelCell_eq (levels : Option (List Json)) (i : Nat) :
    levelCell levels i = levelOf (levels.bind (·[i]?)) := rfl

theorem checkLevel_column {cells : Option (List (Option Number))} {n : Nat}
    (hlength : ∀ c ∈ cells, c.length = n) :
    (∀ i < n, checkLevel (some (levelCell (cells.map (·.map numberCell)) i)) = none) ↔
      ∀ c ∈ cells, ∀ level ∈ c, level.getD 0 ∈ [0, 1, 2] := by
  have hcell : ∀ level : Option Number, checkLevel (some (levelOf (some (numberCell level)))) =
      none ↔ level.getD 0 ∈ [0, 1, 2] := by
    intro level
    cases level with
    | none => simp [numberCell, levelOf, checkLevel, isLevel]
    | some x =>
      have hlevel : isLevel (.number x) = true ↔ x ∈ [0, 1, 2] := by
        simp [isLevel, or_assoc]
      rw [Option.getD_some, ← hlevel]
      by_cases h : isLevel (.number x) = true <;> simp [numberCell, levelOf, checkLevel, h]
  simp only [levelCell_eq, ← hcell]
  exact forall_column (q := fun v => checkLevel (some (levelOf v)) = none) hlength rfl

/-- The entries of an even batch pass when the cells of each column do. -/
theorem checkFields_eq_none (heven : tx.Even) :
    (List.range tx.received.imageHashes.length).findSome?
        (fun i => checkFields (entryAt tx.received i)) = none ↔
      Meets options s now tx .entryFormat := by
  have hcount : tx.received.imageHashes.length = tx.imageHashes.length := List.length_map _
  obtain ⟨hparents, hgps, howners⟩ := BatchTransaction.forall_linkColumns.mp heven.links
  rw [List.findSome?_eq_none_iff, hcount, Meets, BatchTransaction.forall_linkColumns,
    ← checkLevel_column heven.levels, ← checkLink_column .parent hparents,
    ← checkLink_column .gps hgps, ← checkLink_column .owner howners]
  simp only [List.mem_range, checkFields, Option.or_eq_none_iff, forall_and]
  rfl

theorem checkTimestamps_eq_none :
    (tx.received.timestamps.findSome? fun t => checkTimestamp now (some t)) = none ↔
      Meets options s now tx .timestampRange := by
  have htime : ∀ t : Number, checkTimestamp now (some (.number t)) = none ↔ t.isFinite = true ∧
      Number.Within (Number.sub now maxAge) (Number.add now maxSkew) t := by
    intro t
    cases t with
    | finite q =>
      rw [Number.within_iff (Number.noConfusion ·)]
      cases hlate : Number.lt (Number.add now maxSkew) (.finite q) <;>
        cases hearly : Number.lt (.finite q) (Number.sub now maxAge) <;>
          simp [checkTimestamp, Number.isFinite, hlate, hearly]
    | infinite negative => simp [checkTimestamp, Number.isFinite]
    | nan => simp [checkTimestamp, Number.isFinite]
  rw [List.findSome?_eq_none_iff]
  refine List.forall_mem_map.trans ?_
  exact forall₂_congr fun t _ => htime t

theorem checkOnChain_existingOf : checkOnChain (s.existingOf (Store.lowerHashes tx)) = none ↔
    Meets options s now tx .duplicateOnChain := by
  rw [checkOnChain_eq_none, Store.existingOf_eq_nil]
  constructor
  · intro h hash hmem record hrecord heq
    exact h record hrecord (List.mem_map.mpr ⟨hash, hmem, heq.symm⟩)
  · intro h record hrecord hmem
    obtain ⟨hash, hhash, heq⟩ := List.mem_map.mp hmem
    exact h hash hhash record hrecord heq.symm

theorem checkSize_eq_none : checkSize options tx.received.imageHashes.length = none ↔
    Meets options s now tx .batchSize := by
  have hcount : tx.received.imageHashes.length = tx.imageHashes.length := List.length_map _
  rw [hcount, Meets, Number.within_iff (Number.ofNat_ne_nan _), checkSize]
  split_ifs <;> simp_all

end Checks

section FirstBroken

/-- A check that reports a rule unless the batch meets it. -/
def Checks (options : Options) (s : Store) (now : Number) (tx : BatchTransaction) (rule : Rule)
    (check : Option Violation) : Prop :=
  check.map Violation.rule = if Meets options s now tx rule then none else some rule

variable {rule : Rule} {check : Option Violation}

theorem Reports.checks (hrule : Reports rule check)
    (hmet : check = none ↔ Meets options s now tx rule) : Checks options s now tx rule check := by
  cases check with
  | none => exact (if_pos (hmet.mp rfl)).symm
  | some v =>
    have hbroken : ¬ Meets options s now tx rule := fun h => nomatch hmet.mpr h
    rw [Checks, if_neg hbroken, Option.map_some, hrule v rfl]

/-- A check and what comes after it report the first of the rules that is not met. What comes after
it may count on the rule. -/
theorem Checks.or {rest : Option Violation} {rules : List Rule}
    (h : Checks options s now tx rule check)
    (hrest : Meets options s now tx rule →
      rest.map Violation.rule = rules.find? fun r => ¬ Meets options s now tx r) :
    (check.or rest).map Violation.rule =
      (rule :: rules).find? fun r => ¬ Meets options s now tx r := by
  by_cases hmet : Meets options s now tx rule
  · rw [Checks, if_pos hmet, Option.map_eq_none_iff] at h
    rw [h, Option.none_or, List.find?_cons_of_neg (by simpa using hmet), hrest hmet]
  · rw [Checks, if_neg hmet] at h
    obtain ⟨v, rfl, hv⟩ := Option.map_eq_some_iff.mp h
    rw [Option.some_or, List.find?_cons_of_pos (by simpa using hmet), Option.map_some, hv]

/-- The rule that is reported is the first one, in the order of the checks, that is not met. -/
theorem map_rule_validate :
    (validate options s.existingOf now tx.received).map Violation.rule =
      Rule.all.find? fun rule => ¬ Meets options s now tx rule := by
  have hsubmitter : Checks options s now tx _ (checkSubmitter options tx.submitterId) :=
    (reports_checkSubmitter _).checks checkSubmitter_eq_none
  have hhashes : Checks options s now tx _ (checkHashes tx.received.imageHashes) :=
    (reports_checkHashes _).checks checkHashes_eq_none
  have hlengths : Checks options s now tx _ (checkLengths tx.received) :=
    (reports_checkLengths _).checks checkLengths_eq_none
  have hrepeats : Checks options s now tx _ (checkRepeats (Store.lowerHashes tx)) :=
    (reports_checkRepeats _).checks checkRepeats_eq_none
  have honChain : Checks options s now tx _
      (checkOnChain (s.existingOf (Store.lowerHashes tx))) :=
    (reports_checkOnChain _).checks checkOnChain_existingOf
  have htimes : Checks options s now tx _
      (tx.received.timestamps.findSome? fun t => checkTimestamp now (some t)) :=
    (Reports.findSome? (fun t => reports_checkTimestamp now (some t)) _).checks
      checkTimestamps_eq_none
  have hsize : Checks options s now tx _ (checkSize options tx.received.imageHashes.length) :=
    (reports_checkSize _).checks checkSize_eq_none
  rw [validate, checkForm, checkRanges, ← Option.or_none (o := checkSize options _)]
  simp only [Option.or_assoc]
  refine hsubmitter.or fun _ => hhashes.or fun hwell => hlengths.or fun heven => ?_
  have hfields : Checks options s now tx _ ((List.range tx.received.imageHashes.length).findSome?
      fun i => checkFields (entryAt tx.received i)) :=
    (Reports.findSome? (fun i => reports_checkFields (entryAt tx.received i)) _).checks
      (checkFields_eq_none heven)
  rw [normalizedHashes_received hwell]
  exact hfields.or fun _ => hrepeats.or fun _ => honChain.or fun _ => htimes.or fun _ =>
    hsize.or fun _ => rfl

end FirstBroken

section Rearrange

/-- The cells at the places that an order lists. -/
def pick {α : Type} (order : List Nat) (cells : List α) : List α := order.filterMap (cells[·]?)

variable {order : List Nat}

/-- An order that lists every place once keeps all cells. -/
theorem perm_pick {α : Type} {cells : List α} (h : order.Perm (List.range cells.length)) :
    (pick order cells).Perm cells := by
  have hmap : (List.range cells.length).map (cells[·]?) = cells.map some := by
    apply List.ext_getElem
    · simp
    · intro i hi hi'
      rw [List.length_map] at hi'
      simp [hi']
  have hall : (List.range cells.length).filterMap (cells[·]?) = cells := by
    calc (List.range cells.length).filterMap (cells[·]?)
      _ = ((List.range cells.length).map (cells[·]?)).filterMap id := by
        rw [List.filterMap_map, Function.id_comp]
      _ = (cells.map some).filterMap id := by rw [hmap]
      _ = cells := by rw [List.filterMap_map, Function.id_comp, List.filterMap_some]
  have hperm := h.filterMap (cells[·]?)
  rwa [hall] at hperm

end Rearrange

end Rules

/-- The batch with all its columns in another order. -/
def BatchTransaction.rearrange (order : List Nat) (tx : BatchTransaction) : BatchTransaction where
  imageHashes := Rules.pick order tx.imageHashes
  timestamps := Rules.pick order tx.timestamps
  submitterId := tx.submitterId
  signature := tx.signature
  modificationLevels := tx.modificationLevels.map (Rules.pick order)
  parentImageHashes := tx.parentImageHashes.map (Rules.pick order)
  gpsHashes := tx.gpsHashes.map (Rules.pick order)
  ownerHashes := tx.ownerHashes.map (Rules.pick order)

namespace Rules

section Rearrange

variable {options : Options} {s : Store} {now : Number} {tx : BatchTransaction} {order : List Nat}

theorem linkColumns_rearrange : (tx.rearrange order).linkColumns =
    tx.linkColumns.map (pick order) :=
  List.reduceOption_map (l := [tx.parentImageHashes, tx.gpsHashes, tx.ownerHashes])

/-- A rule holds of an even batch in any order of its columns. -/
theorem meets_rearrange (heven : tx.Even)
    (horder : order.Perm (List.range tx.imageHashes.length)) (rule : Rule) :
    Meets options s now (tx.rearrange order) rule ↔ Meets options s now tx rule := by
  have hhashes : (tx.rearrange order).imageHashes.Perm tx.imageHashes := perm_pick horder
  have htimes : (tx.rearrange order).timestamps.Perm tx.timestamps :=
    perm_pick (heven.timestamps ▸ horder)
  have hlevels : ∀ levels ∈ tx.modificationLevels, (pick order levels).Perm levels :=
    fun levels hmem => perm_pick (heven.levels levels hmem ▸ horder)
  have hlinks : ∀ hashes ∈ tx.linkColumns, (pick order hashes).Perm hashes :=
    fun hashes hmem => perm_pick (heven.links hashes hmem ▸ horder)
  cases rule with
  | submitterAuthorization => exact Iff.rfl
  | hashFormat => exact forall_congr' fun hash => imp_congr_left hhashes.mem_iff
  | arrayLength =>
    refine iff_of_true ⟨?_, ?_, ?_⟩ heven
    · rw [htimes.length_eq, hhashes.length_eq, heven.timestamps]
    · intro levels hmem
      obtain ⟨cells, hcells, rfl⟩ := Option.mem_map.mp hmem
      rw [(hlevels cells hcells).length_eq, hhashes.length_eq, heven.levels cells hcells]
    · rw [linkColumns_rearrange]
      intro hashes hmem
      obtain ⟨cells, hcells, rfl⟩ := List.mem_map.mp hmem
      rw [(hlinks cells hcells).length_eq, hhashes.length_eq, heven.links cells hcells]
  | entryFormat =>
    rw [Meets, linkColumns_rearrange, List.forall_mem_map]
    refine and_congr ?_ (forall₂_congr fun hashes hmem => ?_)
    · simp only [BatchTransaction.rearrange, Option.mem_map, forall_exists_index, and_imp,
        forall_apply_eq_imp_iff₂]
      refine forall₂_congr fun levels hmem => ?_
      exact forall_congr' fun level => imp_congr_left (hlevels levels hmem).mem_iff
    · refine forall_congr' fun hash => imp_congr_left ?_
      rw [List.reduceOption_mem_iff, List.reduceOption_mem_iff]
      exact (hlinks hashes hmem).mem_iff
  | duplicateInTransaction => exact (hhashes.map HashText.lower).nodup_iff
  | duplicateOnChain => exact forall_congr' fun hash => imp_congr_left hhashes.mem_iff
  | timestampRange => exact forall_congr' fun t => imp_congr_left htimes.mem_iff
  | batchSize => rw [Meets, Meets, hhashes.length_eq]

end Rearrange

/-- A batch is accepted exactly when it meets every rule, and otherwise the first rule that it does
not meet is reported. A batch whose columns all have one length gets the same verdict in any order.
On a ledger of lower-case hashes its hashes are found in any spelling. -/
theorem reports_first_broken (options : Options) (s : Store) (now : Number)
    (tx : BatchTransaction) :
    (validate options s.existingOf now tx.received = none ↔
      ∀ rule, Meets options s now tx rule) ∧
    (validate options s.existingOf now tx.received).map Violation.rule =
      (Rule.all.find? fun rule => ¬ Meets options s now tx rule) ∧
    (tx.Even → ∀ order : List Nat, order.Perm (List.range tx.imageHashes.length) →
      (validate options s.existingOf now (tx.rearrange order).received).map Violation.rule =
        (validate options s.existingOf now tx.received).map Violation.rule) ∧
    ((∀ record ∈ s.images, HashText.lower record.imageHash = record.imageHash) →
      (Meets options s now tx .duplicateOnChain ↔ ∀ hash ∈ tx.imageHashes,
        ∀ record ∈ s.images, HashText.lower record.imageHash ≠ HashText.lower hash)) := by
  refine ⟨?_, map_rule_validate, fun heven order horder => ?_, fun hlower => ?_⟩
  · rw [← Option.map_eq_none_iff (f := Violation.rule), map_rule_validate, List.find?_eq_none]
    simp [Rule.mem_all]
  · simp only [map_rule_validate, meets_rearrange heven horder]
  · refine forall₂_congr fun hash _ => forall₂_congr fun record hrecord => ?_
    rw [hlower record hrecord]

end Rules

namespace Node

/-- Two hashes, the first one in capitals. -/
def mixedPair : BatchTransaction where
  imageHashes := [String.ofList (List.replicate 64 'A'), String.ofList (List.replicate 64 'b')]
  timestamps := [90, 100]
  submitterId := "lone"
  signature := ""
  modificationLevels := some [none, some 2]
  parentImageHashes := none
  gpsHashes := some [none, none]
  ownerHashes := none

/-- A hash on the ledger is found in capitals, wherever it stands in a batch. -/
theorem reports_first_broken_founded :
    (Rules.validate ⟨none, 1, 100⟩ founded.store.existingOf 120
      (mixedPair.rearrange [1, 0]).received).map Violation.rule = some .duplicateOnChain ∧
    ¬ ∀ hash ∈ mixedPair.imageHashes, ∀ record ∈ founded.store.images,
      HashText.lower record.imageHash ≠ HashText.lower hash := by
  obtain ⟨-, hfirst, hsame, hspelt⟩ :=
    Rules.reports_first_broken ⟨none, 1, 100⟩ founded.store 120 mixedPair
  have hreport : (Rules.validate ⟨none, 1, 100⟩ founded.store.existingOf 120
      mixedPair.received).map Violation.rule = some .duplicateOnChain := by
    decide +kernel
  constructor
  · rw [hsame (by decide) [1, 0] (by decide), hreport]
  · rw [← hspelt (by decide +kernel)]
    rw [hreport] at hfirst
    simpa using List.find?_some hfirst.symm

end Node

end ImageLedger
