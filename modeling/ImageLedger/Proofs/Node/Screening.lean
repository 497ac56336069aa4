import ImageLedger.Proofs.Node.BatchingCycle
import ImageLedger.Proofs.Rules
import ImageLedger.Proofs.Store.Lookup
import ImageLedger.Proofs.Store.Queue

namespace ImageLedger

namespace Rules

variable {now : Number} {e : BatchEntry}

theorem screenEntry_eq_none : screenEntry now e.received = none ↔
    HashText.wellFormed e.imageHash = true ∧ checkFields e.received = none ∧
      checkTimestamp now (some (.number e.timestamp)) = none := by
  have hhash : HashText.ofJson? e.received.imageHash =
      if HashText.wellFormed e.imageHash = true then some e.imageHash else none := rfl
  rw [screenEntry, hhash]
  by_cases hw : HashText.wellFormed e.imageHash = true
  · rw [if_pos hw, if_neg (by simp), Option.or_eq_none_iff]
    exact ⟨fun h => ⟨hw, h⟩, fun h => h.2⟩
  · rw [if_neg hw, Option.isNone_none, if_pos rfl]
    simp [hw]

/-- The fields of an entry in a batch are checked as they were on their own. -/
theorem checkFields_entryAt {entries : List BatchEntry} {i : Nat} (hi : i < entries.length)
    (submitterId : String) (sign : String → String) :
    checkFields (entryAt (Batching.transaction entries submitterId sign).received i) =
      checkFields entries[i].received := by
  have hget : entries[i]? = some entries[i] := List.getElem?_eq_getElem hi
  simp [checkFields, entryAt, levelCell, Batching.transaction, BatchTransaction.received,
    BatchEntry.received, numberCell, hget]

/-- A batch of entries that pass on their own, with hashes that are new and different, is accepted
if its size is. -/
theorem accepts_transaction {options : Options} {existing : List String → List String}
    {rows : List SubmissionRow} {submitterId : String} {sign : String → String}
    (hsubmitter : ∀ allowed, options.authorizedSubmitters = some allowed → submitterId ∈ allowed)
    (hscreen : ∀ row ∈ rows, screenEntry now row.entry.received = none)
    (hnodup : (rows.map (·.hash)).Nodup) (hfresh : existing (rows.map (·.hash)) = [])
    (hsize : checkSize options rows.length = none) :
    Accepts options existing now
      (Batching.transaction (rows.map (·.entry)) submitterId sign) where
  submitter := hsubmitter
  wellFormed := by
    intro hash hmem
    obtain ⟨e, he, rfl⟩ := List.mem_map.mp hmem
    obtain ⟨row, hrow, rfl⟩ := List.mem_map.mp he
    rw [HashText.wellFormed_lower]
    exact (screenEntry_eq_none.mp (hscreen row hrow)).1
  lengths := by simp [checkLengths, Batching.transaction, BatchTransaction.received]
  fields := by
    intro i hi
    have hlt : i < (rows.map (·.entry)).length := by
      simpa [Batching.transaction] using hi
    rw [checkFields_entryAt hlt, List.getElem_map]
    exact (screenEntry_eq_none.mp (hscreen _ (List.getElem_mem _))).2.1
  nodup := by
    rw [Node.lowerHashes_transaction]
    exact hnodup
  fresh := by
    rw [Node.lowerHashes_transaction]
    exact hfresh
  times := by
    intro t ht
    obtain ⟨e, he, rfl⟩ := List.mem_map.mp ht
    obtain ⟨row, hrow, rfl⟩ := List.mem_map.mp he
    exact (screenEntry_eq_none.mp (hscreen row hrow)).2.2
  size := by
    have hcount : (Batching.transaction (rows.map (·.entry)) submitterId sign).imageHashes.length =
        rows.length := by simp [Batching.transaction]
    rw [hcount]
    exact hsize

/-- The entries of a batch that is accepted pass on their own. -/
theorem Accepts.screenEntry_eq_none {options : Options}
    {existing : List String → List String} {entries : List BatchEntry} {submitterId : String}
    {sign : String → String}
    (h : Accepts options existing now (Batching.transaction entries submitterId sign))
    {e : BatchEntry} (he : e ∈ entries) : screenEntry now e.received = none := by
  have hcount : (Batching.transaction entries submitterId sign).imageHashes.length =
      entries.length := List.length_map _
  refine Rules.screenEntry_eq_none.mpr ⟨?_, ?_, h.times e.timestamp (List.mem_map_of_mem he)⟩
  · rw [← HashText.wellFormed_lower]
    exact h.wellFormed (HashText.lower e.imageHash) (List.mem_map.mpr ⟨e, he, rfl⟩)
  · obtain ⟨i, hi, rfl⟩ := List.getElem_of_mem he
    rw [← checkFields_entryAt hi submitterId sign]
    exact h.fields i (hcount ▸ hi)

end Rules

namespace Batching

variable {onChain accepted : List String} {now : Number}

theorem dropReason_eq_none {e : BatchEntry} : dropReason onChain accepted now e = none ↔
    HashText.lower e.imageHash ∉ onChain ∧ HashText.lower e.imageHash ∉ accepted ∧
      Rules.screenEntry now e.received = none := by
  unfold dropReason
  dsimp only
  split_ifs with hchain haccepted
  · simp [hchain]
  · simp [haccepted]
  · simp [hchain, haccepted]

/-- The order of what was accepted before does not count. -/
theorem dropReason_congr (onChain : List String) (now : Number) {accepted other : List String}
    (h : ∀ hash, hash ∈ accepted ↔ hash ∈ other) (e : BatchEntry) :
    dropReason onChain accepted now e = dropReason onChain other now e := by
  rw [dropReason, dropReason]
  simp only [h]

section Cons

variable {c : Submission} {rest : List Submission}

theorem screen_dropped {reason : DropReason}
    (h : dropReason onChain accepted now c.row.entry = some reason) :
    (screen onChain now accepted (c :: rest)).1 = (screen onChain now accepted rest).1 := by
  rw [screen, h]

theorem screen_accepted (h : dropReason onChain accepted now c.row.entry = none) :
    (screen onChain now accepted (c :: rest)).1 =
      c :: (screen onChain now (c.row.hash :: accepted) rest).1 := by
  rw [screen, h]
  rfl

end Cons

/-- What screening keeps passes on its own and has hashes that are new and different. -/
theorem screen_kept (onChain : List String) (now : Number) (accepted : List String)
    (cs : List Submission) :
    (∀ c ∈ (screen onChain now accepted cs).1, c.row.hash ∉ onChain ∧ c.row.hash ∉ accepted ∧
      Rules.screenEntry now c.row.entry.received = none) ∧
    ((screen onChain now accepted cs).1.map (·.row.hash)).Nodup := by
  induction cs generalizing accepted with
  | nil => simp [screen]
  | cons c rest ih =>
    cases hreason : dropReason onChain accepted now c.row.entry with
    | some reason =>
      rw [screen_dropped hreason]
      exact ih accepted
    | none =>
      rw [screen_accepted hreason]
      obtain ⟨hchain, haccepted, hscreen⟩ := dropReason_eq_none.mp hreason
      obtain ⟨hkept, hnodup⟩ := ih (c.row.hash :: accepted)
      constructor
      · intro d hd
        rcases List.mem_cons.mp hd with rfl | hd
        · exact ⟨hchain, haccepted, hscreen⟩
        · obtain ⟨hdchain, hdaccepted, hdscreen⟩ := hkept d hd
          exact ⟨hdchain, fun hmem => hdaccepted (List.mem_cons_of_mem _ hmem), hdscreen⟩
      · refine List.nodup_cons.mpr ⟨fun hmem => ?_, hnodup⟩
        obtain ⟨d, hd, he⟩ := List.mem_map.mp hmem
        exact (hkept d hd).2.1 (List.mem_cons.mpr (Or.inl he))

theorem screen_sublist (onChain : List String) (now : Number) (accepted : List String)
    (cs : List Submission) : (screen onChain now accepted cs).1.Sublist cs := by
  induction cs generalizing accepted with
  | nil => exact List.Sublist.slnil
  | cons c rest ih =>
    cases hreason : dropReason onChain accepted now c.row.entry with
    | some reason =>
      rw [screen_dropped hreason]
      exact (ih accepted).cons c
    | none =>
      rw [screen_accepted hreason]
      exact (ih _).cons_cons c

/-- Screening takes up where it is after a first part of the candidates. -/
theorem screen_append (onChain : List String) (now : Number) (accepted : List String)
    (cs ds : List Submission) : (screen onChain now accepted (cs ++ ds)).1 =
      (screen onChain now accepted cs).1 ++ (screen onChain now
        (((screen onChain now accepted cs).1.map (·.row.hash)).reverse ++ accepted) ds).1 := by
  induction cs generalizing accepted with
  | nil => rfl
  | cons c rest ih =>
    rw [List.cons_append]
    cases hreason : dropReason onChain accepted now c.row.entry with
    | some reason => rw [screen_dropped hreason, screen_dropped hreason, ih]
    | none =>
      rw [screen_accepted hreason, screen_accepted hreason, ih, List.map_cons, List.reverse_cons,
        List.append_assoc]
      rfl

/-- A candidate that passes on its own, and repeats none that is accepted before, is accepted. -/
theorem mem_screen {onChain : List String} {now : Number} {before after : List Submission}
    {c : Submission} (hpasses : Rules.screenEntry now c.row.entry.received = none)
    (hchain : c.row.hash ∉ onChain)
    (hfirst : ∀ d ∈ before, d ∈ (screen onChain now [] (before ++ c :: after)).1 →
      d.row.hash ≠ c.row.hash) : c ∈ (screen onChain now [] (before ++ c :: after)).1 := by
  rw [screen_append] at hfirst ⊢
  have hnone : dropReason onChain
      (((screen onChain now [] before).1.map (·.row.hash)).reverse ++ []) now c.row.entry =
      none := by
    refine dropReason_eq_none.mpr ⟨hchain, fun hmem => ?_, hpasses⟩
    rw [List.append_nil, List.mem_reverse] at hmem
    obtain ⟨d, hd, hhash⟩ := List.mem_map.mp hmem
    exact hfirst d ((screen_sublist onChain now [] before).subset hd)
      (List.mem_append_left _ hd) hhash
  rw [screen_accepted hnone]
  exact List.mem_append_right _ List.mem_cons_self

end Batching

namespace Store

variable {s : Store}

/-- The tables once some submissions were rejected one after another. -/
def rejectEach (s : Store) : List (Submission × Batching.DropReason) → Store
  | [] => s
  | (c, reason) :: rest => (s.markRejected c.row.id reason.message).rejectEach rest

theorem Queued.rejectEach {dropped : List (Submission × Batching.DropReason)} (h : s.Queued)
    (hnodup : (dropped.map (·.1.row)).Nodup) (hready : ∀ d ∈ dropped, s.Ready d.1.row) :
    (s.rejectEach dropped).Queued ∧ s.Settles (s.rejectEach dropped) dropped.length 0 ∧
      ∀ row, s.Ready row → row ∉ dropped.map (·.1.row) → (s.rejectEach dropped).Ready row := by
  induction dropped generalizing s with
  | nil => exact ⟨h, .refl s, fun row hrow _ => hrow⟩
  | cons d rest ih =>
    have hd := hready d List.mem_cons_self
    obtain ⟨hfresh, hnodup⟩ := List.nodup_cons.mp hnodup
    obtain ⟨hqueued, hsettles⟩ := h.markRejected hd d.2.message
    have hstays : ∀ row, s.Ready row → row ≠ d.1.row →
        (s.markRejected d.1.row.id d.2.message).Ready row := by
      intro row hrow hne
      exact ⟨mem_updateRow hrow.1 fun hid => hne (h.eq_of_id hrow.1 hd.1 hid), hrow.2⟩
    obtain ⟨hqueued', hsettles', hstays'⟩ := ih hqueued hnodup fun e he =>
      hstays _ (hready e (List.mem_cons_of_mem d he)) fun heq =>
        hfresh (List.mem_map.mpr ⟨e, he, heq⟩)
    refine ⟨hqueued', ?_, fun row hrow hnot => ?_⟩
    · rw [List.length_cons, Nat.add_comm]
      exact hsettles.trans hsettles'
    · rw [List.map_cons, List.mem_cons, not_or] at hnot
      exact hstays' row (hstays row hrow hnot.1) hnot.2

theorem sameLedger_rejectEach (dropped : List (Submission × Batching.DropReason)) :
    s.SameLedger (s.rejectEach dropped) := by
  induction dropped generalizing s with
  | nil => rfl
  | cons d rest ih =>
    have hrest := @ih (s.markRejected d.1.row.id d.2.message)
    rw [SameLedger] at hrest ⊢
    rw [Store.rejectEach, hrest]
    rfl

/-- Every submission that is ready is read. -/
theorem Queued.exists_findReady (h : s.Queued) (limit : Number) : ∃ cs,
    s.findReady limit = .ok cs ∧ cs.map (·.row) = limited limit (s.submissions.filter isReady) := by
  have hread : ∀ rows : List SubmissionRow, (∀ row ∈ rows, s.Ready row) →
      ∃ cs, rows.mapM SubmissionRow.read = .ok cs := by
    intro rows hrows
    induction rows with
    | nil => exact ⟨[], rfl⟩
    | cons row rest ih =>
      obtain ⟨c, hc⟩ := h.readable row (hrows row List.mem_cons_self)
      obtain ⟨cs, hcs⟩ := ih fun other hother => hrows other (List.mem_cons_of_mem row hother)
      refine ⟨c :: cs, ?_⟩
      rw [List.mapM_cons, hc, hcs]
      rfl
  obtain ⟨cs, hcs⟩ := hread (limited limit (s.submissions.filter isReady)) fun row hrow =>
    mem_filter_isReady.mp ((limited_sublist limit _).subset hrow)
  exact ⟨cs, hcs, map_row_of_mapM_read hcs⟩

end Store

namespace Node

variable {n : Node} {now : Number} {most : Nat}

/-- What a cycle makes of the submissions that it reads: those it keeps and those it drops. -/
def screened (n : Node) (now : Number) :
    List Submission × List (Submission × Batching.DropReason) :=
  match n.store.findReady n.settings.batchSizeMax with
  | .ok cs => Batching.screen (n.store.existingOf (cs.map (·.row.hash))) now [] cs
  | .error _ => ([], [])

/-- The submissions that a cycle reads: the first ones that are ready. -/
def candidates (n : Node) : List SubmissionRow :=
  Store.limited n.settings.batchSizeMax (n.store.submissions.filter Store.isReady)

/-- The submissions that a cycle puts into its batch. -/
def accepted (n : Node) (now : Number) : List SubmissionRow := (n.screened now).1.map (·.row)

/-- Screening splits what was read. What it accepts keeps its order, passes on its own and has
hashes that are new and different. -/
structure Splits (n : Node) (now : Number) : Prop where
  perm : ((n.screened now).2.map (·.1.row) ++ n.accepted now).Perm n.candidates
  sublist : (n.accepted now).Sublist n.candidates
  passes : ∀ row ∈ n.accepted now, Rules.screenEntry now row.entry.received = none
  nodup : ((n.accepted now).map (·.hash)).Nodup
  fresh : ∀ r ∈ n.store.images, r.imageHash ∉ (n.accepted now).map (·.hash)

theorem candidates_sublist (n : Node) : n.candidates.Sublist n.store.submissions :=
  (Store.limited_sublist _ _).trans List.filter_sublist

theorem splits_of_read {cs : List Submission}
    (hread : n.store.findReady n.settings.batchSizeMax = .ok cs) (now : Number) :
    n.Splits now := by
  have hrows : cs.map (·.row) = n.candidates := Store.map_row_of_mapM_read hread
  have hscreened : n.screened now =
      Batching.screen (n.store.existingOf (cs.map (·.row.hash))) now [] cs := by
    rw [screened, hread]
  obtain ⟨hkept, hnodup⟩ :=
    Batching.screen_kept (n.store.existingOf (cs.map (·.row.hash))) now [] cs
  have hperm := perm_screen (n.store.existingOf (cs.map (·.row.hash))) now [] cs
  have hsublist := Batching.screen_sublist (n.store.existingOf (cs.map (·.row.hash))) now [] cs
  rw [← hscreened] at hkept hnodup hperm hsublist
  refine ⟨?_, ?_, ?_, ?_, ?_⟩
  · have hmap := hperm.map (·.row)
    rw [List.map_append, List.map_map, hrows] at hmap
    exact hmap
  · rw [← hrows]
    exact hsublist.map _
  · intro row hrow
    obtain ⟨c, hc, rfl⟩ := List.mem_map.mp hrow
    exact (hkept c hc).2.2
  · rw [accepted, List.map_map]
    exact hnodup
  · intro r hr hmem
    rw [accepted, List.map_map] at hmem
    obtain ⟨c, hc, he⟩ := List.mem_map.mp hmem
    have hasked : c.row.hash ∈ cs.map (·.row.hash) := List.mem_map_of_mem (hsublist.subset hc)
    exact (hkept c hc).1 (Store.mem_existingOf.mpr ⟨hasked, r, hr, he.symm⟩)

/-- What screening leaves of the rows that are read. -/
structure Screens (n : Node) (now : Number) (most : Nat) (kept : List Submission)
    (dropped : List (Submission × Batching.DropReason)) : Prop where
  perm : (dropped.map (·.1.row) ++ kept.map (·.row)).Perm
    ((n.store.submissions.filter Store.isReady).take most)
  passes : ∀ row ∈ kept.map (·.row), Rules.screenEntry now row.entry.received = none
  nodup : ((kept.map (·.row)).map (·.hash)).Nodup
  fresh : ∀ r ∈ n.store.images, r.imageHash ∉ (kept.map (·.row)).map (·.hash)

/-- The rows that are read for a batch, screened. -/
theorem exists_screened (hqueued : n.store.Queued)
    (hlimit : Store.rowLimit n.settings.batchSizeMax = some most) (now : Number) : ∃ cs,
    n.store.findReady n.settings.batchSizeMax = .ok cs ∧
      cs.map (·.row) = (n.store.submissions.filter Store.isReady).take most ∧
      n.screened now = Batching.screen (n.store.existingOf (cs.map (·.row.hash))) now [] cs := by
  obtain ⟨cs, hcs, hrows⟩ := hqueued.exists_findReady n.settings.batchSizeMax
  rw [Store.limited_eq_take hlimit] at hrows
  refine ⟨cs, hcs, hrows, ?_⟩
  rw [screened, hcs]

theorem screens_screened (hqueued : n.store.Queued)
    (hlimit : Store.rowLimit n.settings.batchSizeMax = some most) (now : Number) :
    Screens n now most (n.screened now).1 (n.screened now).2 := by
  obtain ⟨cs, hread, -, -⟩ := exists_screened hqueued hlimit now
  have hsplits := splits_of_read hread now
  have hperm := hsplits.perm
  rw [candidates, Store.limited_eq_take hlimit] at hperm
  exact ⟨hperm, hsplits.passes, hsplits.nodup, hsplits.fresh⟩

section Screens

variable {kept : List Submission} {dropped : List (Submission × Batching.DropReason)}

theorem Screens.length_kept_le (h : Screens n now most kept dropped) :
    kept.length ≤ most ∧ dropped.length + kept.length ≤ n.store.readyCount := by
  have hlength := h.perm.length_eq
  rw [List.length_append, List.length_map, List.length_map, List.length_take] at hlength
  rw [Store.readyCount, List.countP_eq_length_filter]
  omega

/-- What was screened is ready, and nothing twice. -/
theorem Screens.ready (h : Screens n now most kept dropped) (hqueued : n.store.Queued) :
    (∀ row ∈ dropped.map (·.1.row) ++ kept.map (·.row), n.store.Ready row) ∧
      (dropped.map (·.1.row) ++ kept.map (·.row)).Nodup := by
  constructor
  · intro row hrow
    exact Store.mem_filter_isReady.mp (List.mem_of_mem_take (h.perm.mem_iff.mp hrow))
  · rw [h.perm.nodup_iff]
    exact ((List.take_sublist _ _).trans List.filter_sublist).nodup hqueued.nodup.of_map

/-- The submissions once the dropped ones are rejected. -/
theorem Screens.rejectEach (h : Screens n now most kept dropped) (hqueued : n.store.Queued) :
    (n.store.rejectEach dropped).Queued ∧
      n.store.Settles (n.store.rejectEach dropped) dropped.length 0 ∧
      (∀ row ∈ kept.map (·.row), (n.store.rejectEach dropped).Ready row) ∧
      (kept.map (·.row)).Nodup := by
  obtain ⟨hready, hnodup⟩ := h.ready hqueued
  obtain ⟨hdropped, hkept, hapart⟩ := List.nodup_append.mp hnodup
  obtain ⟨hqueued', hsettles, hstays⟩ := hqueued.rejectEach hdropped fun d hd =>
    hready d.1.row (List.mem_append_left _ (List.mem_map_of_mem hd))
  refine ⟨hqueued', hsettles, fun row hrow => ?_, hkept⟩
  exact hstays row (hready row (List.mem_append_right _ hrow)) fun hmem =>
    hapart row hmem row hrow rfl

end Screens

end Node

end ImageLedger
