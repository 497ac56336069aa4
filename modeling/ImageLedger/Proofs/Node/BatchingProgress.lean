import ImageLedger.Proofs.Node.UndisturbedCycle

namespace ImageLedger.Node

/-- The next block or its transaction shares a digest with another text that was hashed for a
stored one. -/
def Clashes (n : Node) (now : Number) : Prop :=
  let tx := (n.batchOf (n.screened now).1).transaction
  n.store.Collides (Store.proposalText (n.proposalOf now tx)) ∨
    n.store.Collides (Store.batchText tx)

/-- What working off a queue relies on. The rows that are read are enough for a batch, and heights
are counted exactly for as many blocks as there may be. -/
structure Draining (n : Node) (most : Nat) : Prop extends n.Batches most where
  fits : Number.le n.settings.batchSizeMin (Number.ofNat most) = true
  sound : n.store.Sound
  queued : n.store.Queued
  room : n.store.blocks.length + n.store.readyCount ≤ Number.wholeLimit

/-- What a cycle does to a node: some submissions are rejected and some put into a block. It commits
a batch, or rejects at least one submission, or leaves the node as it is because too few are
ready. -/
def Progress (n : Node) (result : CycleResult) (m : Node) : Prop :=
  ∃ rejected batched, n.store.Settles m.store rejected batched ∧
    ((result.status = .committed ∧ result.count = batched ∧
        Number.le n.settings.batchSizeMin (Number.ofNat batched) = true ∧
        m.store.blocks.length = n.store.blocks.length + 1) ∨
      0 < rejected ∨ m = n ∧ n.TooFew n.store.readyCount)

variable {n : Node} {most : Nat} {now : Number}

/-- With an empty ledger no digest is in use. -/
theorem not_clashes_empty (n : Node) (hledger : Store.empty.SameLedger n.store) (now : Number) :
    ¬ n.Clashes now := by
  rintro (hclash | hclash)
  · exact not_collides_empty _ ((Store.collides_sameLedger hledger).mp hclash)
  · exact not_collides_empty _ ((Store.collides_sameLedger hledger).mp hclash)

section Sizes

theorem tooFew_congr {m : Node} {count : Nat} (h : m.settings = n.settings) :
    m.TooFew count ↔ n.TooFew count := by
  rw [TooFew, TooFew, h]

/-- Fewer than too few are too few. -/
theorem TooFew.mono {a b : Nat} (h : n.TooFew b) (hab : a ≤ b) (hb : b ≤ Number.wholeLimit) :
    n.TooFew a := by
  refine Number.lt_of_le_of_lt ?_ h
  rw [Number.le_ofNat (hab.trans hb) hb]
  exact decide_eq_true hab

theorem Batches.le_of_not_tooFew (h : n.Batches most) {count : Nat} (hmany : ¬ n.TooFew count)
    (hcount : count ≤ Number.wholeLimit) :
    Number.le n.settings.batchSizeMin (Number.ofNat count) = true := by
  have hnumber : Number.ofNat count ≠ .nan := by
    rw [Number.ofNat_eq hcount]
    exact nofun
  exact (Number.le_or_lt (Number.ne_nan_of_le h.least) hnumber).resolve_right hmany

/-- A batch of no more submissions than are read has an accepted size. -/
theorem Batches.checkSize (h : n.Batches most) {count : Nat} (hmany : ¬ n.TooFew count)
    (hcount : count ≤ most) (hexact : count ≤ Number.wholeLimit) :
    Rules.checkSize n.ruleOptions count = none := by
  have hlimit : Number.le (Number.ofNat count) n.settings.batchSizeMax = true :=
    Store.ofNat_le_of_rowLimit h.limit h.whole (Number.le_trans h.least h.ordered) hcount hexact
  have hsmall : ¬ Number.lt (Number.ofNat count) n.ruleOptions.batchSizeMin = true := hmany
  have hlarge : ¬ Number.lt n.ruleOptions.batchSizeMax (Number.ofNat count) = true :=
    Number.not_lt_of_le hlimit
  rw [Rules.checkSize, if_neg hsmall, if_neg hlarge]

end Sizes

section Cycle

variable {kept : List Submission} {dropped : List (Submission × Batching.DropReason)} {t : Store}

theorem Draining.length_kept_le (h : n.Draining most)
    (hscreens : Screens n now most kept dropped) : kept.length ≤ Number.wholeLimit := by
  have hready := hscreens.length_kept_le.2
  have hroom := h.room
  omega

/-- The batch of what was kept is accepted, whatever happened to the submissions. -/
theorem Screens.violation (h : Screens n now most kept dropped) (hn : n.Draining most)
    (hmany : ¬ n.TooFew kept.length) (hledger : n.store.SameLedger t) :
    ({ n with store := t } : Node).violation now (n.batchOf kept).transaction.received = none := by
  have hentries : kept.map (·.row.entry) = (kept.map (·.row)).map (·.entry) := by
    rw [List.map_map]
    rfl
  refine Rules.validate_eq_none.mpr ?_
  rw [batchOf, hentries]
  refine Rules.accepts_transaction hn.authorized h.passes h.nodup ?_ ?_
  · refine Store.existingOf_eq_nil.mpr fun r hr => h.fresh r ?_
    change r ∈ t.images at hr
    rw [hledger] at hr
    exact hr
  · rw [List.length_map]
    exact hn.checkSize hmany h.length_kept_le.1 (hn.length_kept_le h)

/-- When nothing is dropped and too little is kept, then no more is ready. -/
theorem Screens.tooFew_ready (h : Screens n now most kept []) (hn : n.Draining most)
    (hfew : n.TooFew kept.length) : n.TooFew n.store.readyCount := by
  have hlength := h.perm.length_eq
  rw [List.map_nil, List.nil_append, List.length_map, List.length_take,
    ← List.countP_eq_length_filter] at hlength
  change kept.length = min most n.store.readyCount at hlength
  rcases Nat.lt_or_ge n.store.readyCount most with hall | hmost
  · have hkept : kept.length = n.store.readyCount := by omega
    rwa [← hkept]
  · have hkept : kept.length = most := by omega
    exact absurd (hkept ▸ hfew) (Number.not_lt_of_le hn.fits)

/-- A node that reads too few rows for a batch never commits one. -/
theorem Batches.perform_waiting (h : n.Batches most) (hqueued : n.store.Queued)
    (network : Consensus.Network) (now : Number) (hfew : n.TooFew most)
    (hmost : most ≤ Number.wholeLimit) :
    (batchingCycle network (some now)).perform n =
      some (.ok (waiting (n.screened now).1),
        { n with store := n.store.rejectEach (n.screened now).2 }) := by
  have hscreens := screens_screened hqueued h.limit now
  exact Node.perform_waiting h hqueued network (hfew.mono hscreens.length_kept_le.1 hmost)

theorem Draining.waits (h : n.Draining most) (network : Consensus.Network)
    (hfew : n.TooFew (n.screened now).1.length) : ∃ result m,
    (batchingCycle network (some now)).perform n = some (.ok result, m) ∧ n.Progress result m ∧
      m.Draining most ∧ m.settings = n.settings := by
  have hscreens := screens_screened h.queued h.limit now
  obtain ⟨hqueued, hsettles, -, -⟩ := hscreens.rejectEach h.queued
  have hledger := Store.sameLedger_rejectEach (s := n.store) (n.screened now).2
  refine ⟨_, _, perform_waiting h.toBatches h.queued network hfew, ?_, ?_, rfl⟩
  · refine ⟨_, 0, hsettles, Or.inr ?_⟩
    cases hdropped : (n.screened now).2 with
    | nil =>
      rw [hdropped] at hscreens
      exact Or.inr ⟨rfl, hscreens.tooFew_ready h hfew⟩
    | cons d rest => exact Or.inl (Nat.succ_pos _)
  · refine { h with sound := h.sound.sameLedger hledger, queued := hqueued, room := ?_ }
    have hready := hsettles.ready
    have hroom := h.room
    have hblocks : (n.store.rejectEach (n.screened now).2).blocks = n.store.blocks := by
      rw [hledger]
    change (n.store.rejectEach (n.screened now).2).blocks.length + _ ≤ _
    rw [hblocks]
    change n.store.blocks.length + (n.store.rejectEach (n.screened now).2).readyCount ≤ _
    omega

/-- The tables and the submissions after the block of a batch is stored. -/
theorem Draining.stored (h : n.Draining most) (hscreens : Screens n now most kept dropped)
    {p : Proposal} {stored : StoredBlock}
    (hstore : (n.store.rejectEach dropped).storeBlock n.settings.nodeId p
      (marking (n.batchOf kept)) = .ok (stored, t)) :
    t.Sound ∧ t.Queued ∧ n.store.Settles t dropped.length kept.length ∧
      t.blocks.length = n.store.blocks.length + 1 := by
  obtain ⟨hqueued, hsettles, hready, hnodup⟩ := hscreens.rejectEach h.queued
  have hledger := Store.sameLedger_rejectEach (s := n.store) dropped
  obtain ⟨new, ha, -, hafter⟩ := Store.storeBlock_eq_ok.mp hstore
  have hids : (n.batchOf kept).ids = (kept.map (·.row)).map (·.id) := by
    rw [List.map_map]
    rfl
  obtain rfl : ((n.store.rejectEach dropped).extend n.settings.nodeId p new).markBatched
      ((kept.map (·.row)).map (·.id)) stored.txIds.head? = t := by
    rw [← hids]
    exact Except.ok.inj hafter
  -- the block leaves the submissions alone
  have hqueued' : ((n.store.rejectEach dropped).extend n.settings.nodeId p new).Queued :=
    ⟨hqueued.nodup, hqueued.hashes, hqueued.readable⟩
  obtain ⟨hmarked, hcounts⟩ := hqueued'.markBatched hnodup hready stored.txIds.head?
  have hcounts' : (n.store.rejectEach dropped).Settles _ 0 _ :=
    ⟨hcounts.ready, hcounts.rejections, hcounts.batches⟩
  refine ⟨((h.sound.sameLedger hledger).extend ha).sameLedger rfl, hmarked, ?_, ?_⟩
  · have htrans := hsettles.trans hcounts'
    rwa [List.length_map, Nat.zero_add, Nat.add_zero] at htrans
  · change ((n.store.rejectEach dropped).blocks ++ [_]).length = _
    rw [List.length_append, hledger]
    rfl

theorem proposalOf_sameLedger (hledger : n.store.SameLedger t) (now : Number)
    (tx : BatchTransaction) :
    ({ n with store := t } : Node).proposalOf now tx = n.proposalOf now tx := by
  have htip : ({ n with store := t } : Node).tip = n.tip := by
    change t.latestBlock.map _ = _
    rw [hledger]
    rfl
  rw [proposalOf, htip]
  rfl

/-- Nothing but a digest that is already in use keeps a batch from being stored. -/
theorem Draining.exists_stored (h : n.Draining most) (hnow : now ≠ .nan)
    (hscreens : Screens n now most kept dropped) (hmany : ¬ n.TooFew kept.length)
    (hblock : ¬ n.store.Collides
      (Store.proposalText (n.proposalOf now (n.batchOf kept).transaction)))
    (hbatch : ¬ n.store.Collides (Store.batchText (n.batchOf kept).transaction)) :
    ∃ stored t, ({ n with store := n.store.rejectEach dropped } : Node).storeBatch now
      (n.batchOf kept) = .ok (stored, t) := by
  have hledger := Store.sameLedger_rejectEach (s := n.store) dropped
  have hblocks : (n.store.rejectEach dropped).blocks.length ≤ Number.wholeLimit := by
    rw [hledger]
    exact (Nat.le_add_right _ _).trans h.room
  have hafter : ∀ s stored, ∃ t, marking (n.batchOf kept) s stored = .ok t :=
    fun s stored => ⟨_, rfl⟩
  have htakes : (n.store.rejectEach dropped).Takes (n.batchOf kept).transaction :=
    Store.Takes.of_accepts (s := n.store.rejectEach dropped) h.least
      (Rules.validate_eq_none.mp (hscreens.violation h hmany hledger))
  obtain ⟨e, stored, t, -, -, -, hstored⟩ := exists_storeBlock
    (n := { n with store := n.store.rejectEach dropped }) (h.sound.sameLedger hledger) hblocks
    htakes (proposalOf_sameLedger hledger now _).symm hnow hafter
    (mt (Store.collides_sameLedger hledger).mp hblock)
    (mt (Store.collides_sameLedger hledger).mp hbatch)
  refine ⟨stored, t, ?_⟩
  rw [storeBatch, proposalOf_sameLedger hledger]
  exact hstored

/-- The second half of a cycle that keeps enough submissions hands them to the tables, which store
them, unless a digest that is already in use stands in the way. -/
theorem Draining.perform_commit (h : n.Draining most) (hnow : now ≠ .nan)
    (network : Consensus.Network) (hmany : ¬ n.TooFew (n.screened now).1.length) :
    let settled : Node := { n with store := n.store.rejectEach (n.screened now).2 }
    let batch := n.batchOf (n.screened now).1
    (∃ e m, (commit network now batch).perform settled = some (.error e, m) ∧ n.Clashes now) ∨
    ∃ stored t, settled.storeBatch now batch = .ok (stored, t) ∧
      (commit network now batch).perform settled = some (.ok (committed batch stored),
        { n with store := t, lock := ⟨[], n.lock.tickets + 1⟩ }) := by
  intro settled batch
  have hscreens := screens_screened h.queued h.limit now
  have hledger := Store.sameLedger_rejectEach (s := n.store) (n.screened now).2
  have hvalid := hscreens.violation h hmany hledger
  rcases Node.perform_commit (n := settled) network h.mode h.free hvalid with
    ⟨e, hstore, hcommit⟩ | ⟨stored, t, hstore, hcommit⟩
  · refine Or.inl ⟨_, _, hcommit, ?_⟩
    by_contra hclash
    obtain ⟨hblock, hbatch⟩ := not_or.mp hclash
    obtain ⟨stored, t, hstored⟩ := h.exists_stored hnow hscreens hmany hblock hbatch
    cases hstore.symm.trans hstored
  · exact Or.inr ⟨stored, t, hstore, hcommit⟩

/-- So does the cycle as a whole. -/
theorem Draining.perform_many (h : n.Draining most) (hnow : now ≠ .nan)
    (network : Consensus.Network) (hmany : ¬ n.TooFew (n.screened now).1.length) :
    (∃ e m, (batchingCycle network (some now)).perform n = some (.error e, m) ∧ n.Clashes now) ∨
    ∃ stored t, ({ n with store := n.store.rejectEach (n.screened now).2 } : Node).storeBatch now
        (n.batchOf (n.screened now).1) = .ok (stored, t) ∧
      (batchingCycle network (some now)).perform n =
        some (.ok (committed (n.batchOf (n.screened now).1) stored),
          { n with store := t, lock := ⟨[], n.lock.tickets + 1⟩ }) := by
  have hassembled : n.assembled (n.screened now).1 = .inr (n.batchOf (n.screened now).1) :=
    if_neg hmany
  rw [perform_batchingCycle h.toBatches h.queued network now, hassembled]
  exact h.perform_commit hnow network hmany

/-- A cycle that keeps enough submissions commits them, unless a digest that is already in use
stands in its way. -/
theorem Draining.commits (h : n.Draining most) (hnow : now ≠ .nan) (network : Consensus.Network)
    (hmany : ¬ n.TooFew (n.screened now).1.length) :
    (∃ e m, (batchingCycle network (some now)).perform n = some (.error e, m) ∧ n.Clashes now) ∨
    ∃ result m, (batchingCycle network (some now)).perform n = some (.ok result, m) ∧
      n.Progress result m ∧ m.Draining most ∧ m.settings = n.settings := by
  refine (h.perform_many hnow network hmany).imp_right ?_
  rintro ⟨stored, t, hstore, hperform⟩
  have hscreens := screens_screened h.queued h.limit now
  obtain ⟨hsound, hqueued', hcounts, hblocks⟩ := h.stored hscreens hstore
  have hlength := hscreens.length_kept_le.2
  have hids : (n.batchOf (n.screened now).1).ids.length = (n.screened now).1.length :=
    List.length_map _
  have hsome : (n.screened now).1.length ≠ 0 := fun hzero => hmany (hzero ▸ h.tooFew_zero)
  have hready' := hcounts.ready
  have hroom := h.room
  refine ⟨_, _, hperform, ⟨_, _, hcounts, Or.inl ⟨rfl, hids, ?_, hblocks⟩⟩,
    { h with free := rfl, sound := hsound, queued := hqueued', room := ?_ }, rfl⟩
  · exact h.le_of_not_tooFew hmany (h.length_kept_le hscreens)
  · change t.blocks.length + t.readyCount ≤ _
    omega

theorem Draining.cycle (h : n.Draining most) (hnow : now ≠ .nan) (network : Consensus.Network) :
    (∃ e m, (batchingCycle network (some now)).perform n = some (.error e, m) ∧ n.Clashes now) ∨
    ∃ result m, (batchingCycle network (some now)).perform n = some (.ok result, m) ∧
      n.Progress result m ∧ m.Draining most ∧ m.settings = n.settings := by
  by_cases hfew : n.TooFew (n.screened now).1.length
  · exact Or.inr (h.waits network hfew)
  · exact h.commits hnow network hfew

end Cycle

section Cycles

variable {m t : Node} {k : Nat} {network : Consensus.Network} {result : CycleResult}

/-- So many cycles one after another, none of which fails, lead from one state to the other. -/
inductive Cycles (network : Consensus.Network) (now : Number) : Nat → Node → Node → Prop
  | none (n : Node) : Cycles network now 0 n n
  | next {k : Nat} {n m t : Node} {result : CycleResult} : Cycles network now k n m →
      (batchingCycle network (some now)).perform m = some (.ok result, t) →
      Cycles network now (k + 1) n t

/-- A node that a cycle leaves as it is stays as it is. -/
theorem Cycles.eq_of_idle (hcycles : Cycles network now k n m)
    (hidle : (batchingCycle network (some now)).perform n = some (.ok result, n)) : m = n := by
  induction hcycles with
  | none n => rfl
  | next _ hok ih =>
    obtain rfl := ih hidle
    exact (Prod.mk.inj (Option.some.inj (hok.symm.trans hidle))).2

/-- A cycle shortens the queue, or leaves it when it holds too few. -/
theorem Progress.readyCount (h : n.Progress result m) (hn : n.Batches most) :
    m.store.readyCount < n.store.readyCount ∨
      m.store.readyCount = n.store.readyCount ∧ n.TooFew n.store.readyCount := by
  obtain ⟨rejected, batched, hcounts, hcase⟩ := h
  have hready := hcounts.ready
  rcases hcase with ⟨-, -, hleast, -⟩ | hrejected | ⟨rfl, hfew⟩
  · have hsome : batched ≠ 0 := by
      rintro rfl
      exact Number.not_lt_of_le hleast hn.tooFew_zero
    exact Or.inl (by omega)
  · exact Or.inl (by omega)
  · exact Or.inr ⟨rfl, hfew⟩

/-- Every cycle that does not fail shortens the queue until it holds too few. -/
theorem Cycles.draining (hcycles : Cycles network now k n m) (h : n.Draining most)
    (hnow : now ≠ .nan) : m.Draining most ∧ m.settings = n.settings ∧
      (m.store.readyCount + k ≤ n.store.readyCount ∨ m.TooFew m.store.readyCount) := by
  induction hcycles with
  | none n => exact ⟨h, rfl, Or.inl le_rfl⟩
  | @next k n m t result _ hcycle ih =>
    obtain ⟨hm, hsettings, hbound⟩ := ih h
    rcases hm.cycle hnow network with ⟨e, u, herror, -⟩ | ⟨result', u, hok, hprogress, hu, hsame⟩
    · cases hcycle.symm.trans herror
    · obtain ⟨-, rfl⟩ := Prod.mk.inj (Option.some.inj (hcycle.symm.trans hok))
      refine ⟨hu, hsame.trans hsettings, ?_⟩
      have hle : t.store.readyCount ≤ m.store.readyCount := by
        rcases hprogress.readyCount hm.toBatches with hless | ⟨hequal, -⟩
        · exact hless.le
        · exact hequal.le
      have hfew : m.TooFew m.store.readyCount → t.TooFew t.store.readyCount := fun hfew =>
        (tooFew_congr hsame).mpr (hfew.mono hle ((Nat.le_add_left _ _).trans hm.room))
      rcases hbound with hless | hless
      · rcases hprogress.readyCount hm.toBatches with hshorter | ⟨-, hstays⟩
        · exact Or.inl (by omega)
        · exact Or.inr (hfew hstays)
      · exact Or.inr (hfew hless)

/-- A node alone works off any queue that intake filled, on every ledger that is reached from an
empty one, if the rows it reads for a batch are enough for one. However many cycles have gone by,
the next one does not fail, unless a digest that it makes was already made of another text; it
commits enough submissions, rejects some, or finds too few. After as many cycles as there were
submissions too few are left. -/
theorem queue_drains (start reached n : Node) (hempty : start.store = Store.empty)
    (hreach : start.ReachableFrom reached) (hledger : reached.store.SameLedger n.store)
    (hqueued : n.store.Queued) (most : Nat) (hn : n.Batches most)
    (hfits : Number.le n.settings.batchSizeMin (Number.ofNat most) = true)
    (hroom : n.store.blocks.length + n.store.readyCount ≤ Number.wholeLimit)
    (network : Consensus.Network) (now : Number) (hnow : now ≠ .nan) (k : Nat) (m : Node)
    (hcycles : Cycles network now k n m) :
    (m.Clashes now ∨
      ∃ result t, (batchingCycle network (some now)).perform m = some (.ok result, t)) ∧
    (∀ result t, (batchingCycle network (some now)).perform m = some (.ok result, t) →
      m.Progress result t) ∧
    (n.store.readyCount ≤ k → n.TooFew m.store.readyCount) := by
  have hdraining : n.Draining most :=
    { hn with
      fits := hfits
      sound := (hreach.sound hempty).sameLedger hledger
      queued := hqueued
      room := hroom }
  obtain ⟨hm, hsettings, hbound⟩ := hcycles.draining hdraining hnow
  have hfew : n.store.readyCount ≤ k → n.TooFew m.store.readyCount := by
    intro hk
    rw [← tooFew_congr hsettings]
    rcases hbound with hless | hfew
    · have hzero : m.store.readyCount = 0 := by omega
      rw [hzero]
      exact hm.toBatches.tooFew_zero
    · exact hfew
  rcases hm.cycle hnow network with ⟨e, u, herror, hclash⟩ | ⟨result, t, hok, hprogress, -, -⟩
  · refine ⟨Or.inl hclash, fun result t hok => ?_, hfew⟩
    cases herror.symm.trans hok
  · refine ⟨Or.inr ⟨result, t, hok⟩, fun result' t' hok' => ?_, hfew⟩
    obtain ⟨hresult, rfl⟩ := Prod.mk.inj (Option.some.inj (hok.symm.trans hok'))
    exact Except.ok.inj hresult ▸ hprogress

/-- A submission that waits for a batch, with an image hash of one digit throughout. -/
def waitingRow (id : Nat) (digit : Char) : SubmissionRow where
  id
  receiptId := receiptId id
  kind := .certificate
  entry := ⟨String.ofList (List.replicate 64 digit), 90, 0, none, none, none⟩
  submitterId := "camera"
  authorityId := "authority"
  credentials := (Credential.certificate ⟨"certificate", "signature"⟩).columns
  status := .validated
  message := none
  retryCount := 0
  nextRetryAt := none
  batched := false
  txId := none
  createdAt := 90

/-- A node alone with an empty ledger and some submissions that wait. -/
def queueing (rows : List SubmissionRow) (least most : Number) : Node :=
  { lone with
    settings := { lone.settings with batchSizeMin := least, batchSizeMax := most }
    store := { Store.empty with submissions := rows } }

theorem queued_queueing {rows : List SubmissionRow} (least most : Number)
    (hids : (rows.map (·.id)).Nodup)
    (hrows : ∀ row ∈ rows, HashText.wellFormed row.entry.imageHash = true ∧
      row.read.toOption.isSome = true) : (queueing rows least most).store.Queued := by
  refine ⟨hids, fun row hrow => (hrows row hrow.1).1, fun row hrow => ?_⟩
  have hread := (hrows row hrow.1).2
  cases h : row.read with
  | error e => simp [h, Except.toOption] at hread
  | ok c => exact ⟨c, rfl⟩

theorem batches_queueing {rows : List SubmissionRow} {least most : Number} {limit : Nat}
    (hleast : Number.le 1 least = true) (hordered : Number.le least most = true)
    (hwhole : most.isInteger = true) (hlimit : Store.rowLimit most = some limit)
    (htaken : limit < 2 ^ 63) : (queueing rows least most).Batches limit where
  mode := rfl
  authorized := by
    intro allowed hallowed
    have hnone : (queueing rows least most).settings.authorizedSubmitters = none := by
      change lone.settings.authorizedSubmitters = none
      decide +kernel
    rw [hnone] at hallowed
    cases hallowed
  free := rfl
  least := hleast
  ordered := hordered
  whole := hwhole
  limit := hlimit
  taken := htaken

/-- One submission and batches of one: the first cycle commits or rejects it. -/
theorem queue_drains_one : ∃ result m,
    (batchingCycle .silent (some 120)).perform (queueing [waitingRow 1 'a'] 1 1) =
      some (.ok result, m) ∧
    (queueing [waitingRow 1 'a'] 1 1).Progress result m ∧
    (queueing [waitingRow 1 'a'] 1 1).TooFew m.store.readyCount := by
  have hqueued : (queueing [waitingRow 1 'a'] 1 1).store.Queued :=
    queued_queueing 1 1 (by decide) (by decide +kernel)
  have hbatches : (queueing [waitingRow 1 'a'] 1 1).Batches 1 :=
    batches_queueing (by decide) (by decide) (by decide) (Store.rowLimit_ofNat (by decide))
      (by decide)
  have hdrains := queue_drains lone lone (queueing [waitingRow 1 'a'] 1 1) rfl ⟨[], .start⟩ rfl
    hqueued 1 hbatches (by decide) (by decide) .silent 120 (by decide)
  obtain ⟨hruns, hprogress, -⟩ := hdrains 0 _ (.none _)
  have hclear := not_clashes_empty (queueing [waitingRow 1 'a'] 1 1) rfl 120
  obtain ⟨result, m, hok⟩ := hruns.resolve_left hclear
  exact ⟨result, m, hok, hprogress result m hok,
    (hdrains 1 m (.next (.none _) hok)).2.2 (by decide)⟩

/-- A row limit of `1e+21` is read as one. With batches of two and more the two submissions that
wait stay where they are, however many cycles go by. -/
theorem queue_stalls_at_huge_limit :
    let n := queueing [waitingRow 1 'a', waitingRow 2 'b'] 2 (Number.ofNat (10 ^ 21))
    lone.store.SameLedger n.store ∧ n.store.Queued ∧ n.Batches 1 ∧
      n.store.blocks.length + n.store.readyCount ≤ Number.wholeLimit ∧
      (batchingCycle .silent (some 120)).perform n =
        some (.ok ⟨.waiting, 1, none, none, none⟩, n) ∧
      (∀ k m, Cycles .silent 120 k n m → m = n) ∧ ¬ n.TooFew n.store.readyCount := by
  intro n
  have hqueued : n.store.Queued := queued_queueing 2 _ (by decide) (by decide +kernel)
  have hbatches : n.Batches 1 :=
    batches_queueing (by decide) (by decide +kernel) (by decide +kernel) (by decide +kernel)
      (by decide)
  have hscreened : n.screened 120 =
      ([⟨waitingRow 1 'a', .certificate ⟨"certificate", "signature"⟩⟩], []) := by
    decide +kernel
  have hcycle : (batchingCycle .silent (some 120)).perform n =
      some (.ok ⟨.waiting, 1, none, none, none⟩, n) := by
    have hfew : n.TooFew 1 := by
      unfold TooFew
      decide
    have hwaiting := hbatches.perform_waiting hqueued .silent 120 hfew (by decide)
    rw [hscreened] at hwaiting
    exact hwaiting
  refine ⟨rfl, hqueued, hbatches, by decide, hcycle, ?_, ?_⟩
  · exact fun k m hcycles => hcycles.eq_of_idle hcycle
  · unfold TooFew
    decide

end Cycles

end ImageLedger.Node
