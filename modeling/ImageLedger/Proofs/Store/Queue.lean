import ImageLedger.Proofs.Json.WholeNumbers
import ImageLedger.Proofs.Store.Moves
import Mathlib.Data.List.TakeWhile

namespace ImageLedger.Store

open Json (isDigit digitsValue)

/-- The row limit that a number is read as, if it is read as one. -/
def rowLimit (limit : Number) : Option Nat :=
  (((Settings.leadingInteger? limit.toText).bind Number.toInt?).filter (0 ≤ ·)).map Int.toNat

theorem limited_eq_take {α : Type} {limit : Number} {most : Nat} (h : rowLimit limit = some most)
    (rows : List α) : limited limit rows = rows.take most := by
  obtain ⟨z, hz, rfl⟩ := Option.map_eq_some_iff.mp h
  obtain ⟨hread, hnonneg⟩ := Option.filter_eq_some_iff.mp hz
  rw [limited, hread]
  exact if_neg (not_lt.mpr (of_decide_eq_true hnonneg))

theorem leadingInteger?_digits {ds : List Char} (hne : ds ≠ [])
    (hd : ∀ c ∈ ds, isDigit c = true) :
    Settings.leadingInteger? (String.ofList ds) = some (Number.ofNat (digitsValue ds)) := by
  obtain ⟨c, cs, rfl⟩ := List.exists_cons_of_ne_nil hne
  have hc := hd c List.mem_cons_self
  have hblank : Text.isBlank c = false := by
    have hrange : 48 ≤ c.toNat ∧ c.toNat ≤ 57 := by
      simpa [isDigit, Text.le_iff_toNat_le] using hc
    simp only [Text.isBlank]
    grind
  have hall : (c :: cs).takeWhile (fun d => '0' ≤ d && d ≤ '9') = c :: cs :=
    List.takeWhile_eq_self_iff.mpr hd
  rw [Settings.leadingInteger?, String.toList_ofList,
    List.dropWhile_cons_of_neg (Bool.eq_false_iff.mp hblank)]
  dsimp only
  split
  · next hcs =>
    obtain ⟨rfl, -⟩ := List.cons.inj hcs
    exact absurd hc (by decide)
  · next hcs =>
    obtain ⟨rfl, -⟩ := List.cons.inj hcs
    exact absurd hc (by decide)
  · rw [hall]
    rfl

theorem rowLimit_ofNat {n : Nat} (h : n ≤ Number.wholeLimit) :
    rowLimit (Number.ofNat n) = some n := by
  have hdigits : ∀ c ∈ Nat.toDigits 10 n, isDigit c = true := fun c hc =>
    Json.isDigit_of_mem_toDigits hc
  rw [rowLimit, Number.ofNat_eq h, Number.toText, Json.chars_of_le h,
    leadingInteger?_digits Nat.toDigits_ne_nil hdigits, Json.digitsValue_toDigits,
    Number.ofNat_eq h]
  simp [Number.toInt?]

/-- No more rows are read than the limit says. -/
theorem ofNat_le_of_rowLimit {limit : Number} {most count : Nat} (h : rowLimit limit = some most)
    (hinteger : limit.isInteger = true) (hpos : Number.le 1 limit = true) (hcount : count ≤ most)
    (hexact : count ≤ Number.wholeLimit) : Number.le (Number.ofNat count) limit = true := by
  obtain ⟨z, hz⟩ := Option.isSome_iff_exists.mp hinteger
  cases limit with
  | infinite negative => cases hz
  | nan => cases hz
  | finite q =>
    have hone : (1 : Number) = .finite 1 := by decide
    have hq : (1 : Rat) ≤ q := by
      rw [hone] at hpos
      exact of_decide_eq_true hpos
    obtain ⟨n, rfl⟩ : ∃ n : Nat, q = n := by
      have hden : q.den = 1 := by
        by_contra hne
        rw [Number.toInt?, if_neg hne] at hz
        cases hz
      have hnum : (0 : Int) ≤ q.num := Rat.num_nonneg.mpr (zero_le_one.trans hq)
      obtain ⟨n, hn⟩ := Int.eq_ofNat_of_zero_le hnum
      refine ⟨n, ?_⟩
      rw [← Rat.coe_int_num_of_den_eq_one hden, hn, Int.cast_natCast]
    rw [Number.ofNat_eq hexact]
    refine decide_eq_true (Nat.cast_le.mpr ?_)
    rcases Nat.lt_or_ge Number.wholeLimit n with hbig | hsmall
    · exact hexact.trans hbig.le
    · rw [← Number.ofNat_eq hsmall, rowLimit_ofNat hsmall] at h
      exact hcount.trans (Option.some.inj h).ge

/-- No more rows are read than a whole limit says. -/
theorem length_limited_le {limit : Number} {most : Nat} (h : rowLimit limit = some most)
    (hinteger : limit.isInteger = true) (hpos : Number.le 1 limit = true)
    (hexact : most ≤ Number.wholeLimit) (rows : List SubmissionRow) :
    Number.le (Number.ofNat (limited limit rows).length) limit = true := by
  have hlength : (limited limit rows).length ≤ most := by
    rw [limited_eq_take h]
    exact List.length_take_le most rows
  exact ofNat_le_of_rowLimit h hinteger hpos hlength (hlength.trans hexact)

/-- How many submissions a batch may take. -/
def readyCount (s : Store) : Nat := s.submissions.countP isReady

/-- How many submissions are in a block. -/
def batchedCount (s : Store) : Nat := s.submissions.countP (·.batched)

/-- A queue as intake fills it: every submission has a number of its own, and those that are ready
have a well-formed image hash and the credentials of their kind. -/
structure Queued (s : Store) : Prop where
  nodup : (s.submissions.map (·.id)).Nodup
  hashes : ∀ row, s.Ready row → HashText.wellFormed row.entry.imageHash = true
  readable : ∀ row, s.Ready row → ∃ c, row.read = .ok c

/-- So many ready submissions were rejected and so many put into a block. -/
structure Settles (s t : Store) (rejected batched : Nat) : Prop where
  ready : t.readyCount + (rejected + batched) = s.readyCount
  rejections : t.statusCounts.rejected = s.statusCounts.rejected + rejected
  batches : t.batchedCount = s.batchedCount + batched

theorem Settles.refl (s : Store) : s.Settles s 0 0 := ⟨rfl, rfl, rfl⟩

theorem Settles.trans {s t u : Store} {r b r' b' : Nat} (h : s.Settles t r b)
    (h' : t.Settles u r' b') : s.Settles u (r + r') (b + b') where
  ready := by
    have := h.ready
    have := h'.ready
    omega
  rejections := by rw [h'.rejections, h.rejections, Nat.add_assoc]
  batches := by rw [h'.batches, h.batches, Nat.add_assoc]

theorem isReady_iff {row : SubmissionRow} :
    isReady row = true ↔ row.status = .validated ∧ row.batched = false := by
  simp [isReady]

theorem mem_filter_isReady {s : Store} {row : SubmissionRow} :
    row ∈ s.submissions.filter isReady ↔ s.Ready row := by
  rw [List.mem_filter, isReady_iff]
  rfl

/-- Changing some rows of a table moves a count by what changes in them. -/
theorem countP_map_change {rows chosen : List SubmissionRow} {f : SubmissionRow → SubmissionRow}
    (hnodup : rows.Nodup) (hchosen : chosen.Nodup) (hsub : chosen ⊆ rows)
    (hf : ∀ row ∈ rows, row ∉ chosen → f row = row) (p : SubmissionRow → Bool) :
    (rows.map f).countP p + chosen.countP p = rows.countP p + (chosen.map f).countP p := by
  obtain ⟨sorted, hperm, hsorted⟩ := hchosen.subperm hsub
  obtain ⟨rest, hrest⟩ := hsorted.exists_perm_append
  have hsplit : rows.Perm (chosen ++ rest) := hrest.trans (hperm.append_right rest)
  have hdisjoint := (List.nodup_append.mp (hsplit.nodup_iff.mp hnodup)).2.2
  have hfixed : rest.map f = rest := by
    calc rest.map f = rest.map id := List.map_congr_left fun row hrow =>
          hf row (hsplit.mem_iff.mpr (List.mem_append_right chosen hrow)) fun hmem =>
            hdisjoint row hmem row hrow rfl
      _ = rest := List.map_id rest
  rw [(hsplit.map f).countP_eq, hsplit.countP_eq, List.map_append, List.countP_append,
    List.countP_append, hfixed]
  omega

section Change

variable {s : Store} {row : SubmissionRow} {chosen : List SubmissionRow}
  {f : SubmissionRow → SubmissionRow}

theorem Queued.eq_of_id (h : s.Queued) {a b : SubmissionRow} (ha : a ∈ s.submissions)
    (hb : b ∈ s.submissions) (hid : a.id = b.id) : a = b :=
  List.inj_on_of_nodup_map h.nodup ha hb hid

/-- A queue stays one when what is still ready after a change was not changed. -/
theorem Queued.map (h : s.Queued) (hid : ∀ row, (f row).id = row.id)
    (hf : ∀ row, isReady (f row) = true → f row = row) :
    ({ s with submissions := s.submissions.map f } : Store).Queued := by
  have hback : ∀ row, Ready { s with submissions := s.submissions.map f } row → s.Ready row := by
    intro row hrow
    obtain ⟨hmem, hstatus, hbatched⟩ := hrow
    obtain ⟨old, hold, rfl⟩ := List.mem_map.mp hmem
    have hsame := hf old (isReady_iff.mpr ⟨hstatus, hbatched⟩)
    rw [hsame] at hstatus hbatched ⊢
    exact ⟨hold, hstatus, hbatched⟩
  refine ⟨?_, fun row hrow => h.hashes row (hback row hrow),
    fun row hrow => h.readable row (hback row hrow)⟩
  have hids : (s.submissions.map f).map (·.id) = s.submissions.map (·.id) := by
    rw [List.map_map]
    exact List.map_congr_left fun row _ => hid row
  rw [hids]
  exact h.nodup

/-- Settling ready submissions takes them out of the queue and counts them where they went. -/
theorem Queued.settles (h : s.Queued) {r b : Nat} (hchosen : chosen.Nodup)
    (hready : ∀ row ∈ chosen, s.Ready row)
    (hf : ∀ row ∈ s.submissions, row ∉ chosen → f row = row)
    (hgone : ∀ row ∈ chosen, isReady (f row) = false)
    (hrejected : (chosen.map f).countP (·.status = .rejected) = r)
    (hbatched : (chosen.map f).countP (·.batched) = b) (hcount : r + b = chosen.length) :
    s.Settles { s with submissions := s.submissions.map f } r b := by
  have hchange := countP_map_change h.nodup.of_map hchosen (fun row hrow => (hready row hrow).1) hf
  have hwere : ∀ row ∈ chosen, row.status = .validated ∧ row.batched = false :=
    fun row hrow => (hready row hrow).2
  refine ⟨?_, ?_, ?_⟩
  · have hbefore : chosen.countP isReady = chosen.length :=
      List.countP_eq_length.mpr fun row hrow => isReady_iff.mpr (hwere row hrow)
    have hafter : (chosen.map f).countP isReady = 0 := by
      rw [List.countP_eq_zero]
      intro row hrow
      obtain ⟨old, hold, rfl⟩ := List.mem_map.mp hrow
      simp [hgone old hold]
    have := hchange isReady
    simp only [readyCount]
    omega
  · have hbefore : chosen.countP (fun row => row.status = .rejected) = 0 := by
      rw [List.countP_eq_zero]
      intro row hrow
      simp [(hwere row hrow).1]
    have := hchange fun row => row.status = .rejected
    simp only [statusCounts]
    omega
  · have hbefore : chosen.countP (fun row => row.batched) = 0 := by
      rw [List.countP_eq_zero]
      intro row hrow
      simp [(hwere row hrow).2]
    have := hchange fun row => row.batched
    simp only [batchedCount]
    omega

theorem Queued.markRejected (h : s.Queued) (hrow : s.Ready row) (message : String) :
    (s.markRejected row.id message).Queued ∧ s.Settles (s.markRejected row.id message) 1 0 := by
  constructor
  · refine h.map (fun other => ?_) (fun other hother => ?_)
    · split <;> rfl
    · split at hother
      · cases hother
      · next hne => exact if_neg hne
  · refine h.settles (List.nodup_singleton row) ?_ ?_ ?_ ?_ ?_ rfl
    · exact fun other hother => List.mem_singleton.mp hother ▸ hrow
    · intro other hother hne
      exact if_neg fun hid => hne (List.mem_singleton.mpr (h.eq_of_id hother hrow.1 hid))
    · intro other hother
      obtain rfl := List.mem_singleton.mp hother
      rw [if_pos rfl]
      rfl
    · simp
    · simp [hrow.2.2]

/-- Marking the submissions of a batch. -/
theorem Queued.markBatched (h : s.Queued) {rows : List SubmissionRow} (hnodup : rows.Nodup)
    (hready : ∀ row ∈ rows, s.Ready row) (txId : Option Nat) :
    (s.markBatched (rows.map (·.id)) txId).Queued ∧
      s.Settles (s.markBatched (rows.map (·.id)) txId) 0 rows.length := by
  have hmem : ∀ row ∈ rows, row.id ∈ rows.map (·.id) := fun row hrow => List.mem_map_of_mem hrow
  constructor
  · refine h.map (fun other => ?_) (fun other hother => ?_)
    · split <;> rfl
    · split at hother
      · simp [isReady] at hother
      · next hne => exact if_neg hne
  · refine h.settles hnodup hready ?_ ?_ ?_ ?_ (Nat.zero_add _)
    · intro other hother hne
      refine if_neg fun hid => hne ?_
      obtain ⟨row, hrow, he⟩ := List.mem_map.mp hid
      exact h.eq_of_id (hready row hrow).1 hother he ▸ hrow
    · intro row hrow
      rw [if_pos (hmem row hrow)]
      simp [isReady]
    · rw [List.countP_eq_zero]
      intro row hrow
      obtain ⟨old, hold, rfl⟩ := List.mem_map.mp hrow
      rw [if_pos (hmem old hold)]
      simp [(hready old hold).2.1]
    · rw [← List.length_map (f := fun row => if row.id ∈ rows.map (·.id) then
        { row with batched := true, txId := txId.or row.txId } else row), List.countP_eq_length]
      intro row hrow
      obtain ⟨old, hold, rfl⟩ := List.mem_map.mp hrow
      rw [if_pos (hmem old hold)]

end Change

end ImageLedger.Store
