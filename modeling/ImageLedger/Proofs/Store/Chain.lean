import ImageLedger.Proofs.Store.Append
import ImageLedger.Store.Submissions

namespace ImageLedger.Store

/-- The transactions stored under a height. -/
def rowsAt (s : Store) (height : Nat) : List LedgerTransaction :=
  s.transactions.filter (·.blockHeight = height)

/-- Two states of the tables that differ in their submissions at most. -/
def SameLedger (s t : Store) : Prop := t = { s with submissions := t.submissions }

/-- The rows of transactions, images and proofs are those of the entries, which are numbered from
one and share no image hash. -/
structure Recorded (s : Store) (entries : List Entry) : Prop where
  transactions_eq : s.transactions = entries.map Entry.row
  images_eq : s.images = entries.flatMap Entry.images
  proofs_eq : s.proofs = entries.flatMap Entry.proofs
  txIds : entries.map (·.txId) = List.range' 1 entries.length
  nodup : (entries.flatMap Entry.hashes).Nodup

/-- The heights count the blocks from zero, each block names the one below it, and its hash and
count are those of the transactions stored under it. -/
structure Linked (s : Store) : Prop where
  heights : s.blocks.map (·.height) = List.range s.blocks.length
  first : ∀ b ∈ s.blocks, b.height = 0 → b.previousHash = HashText.zero
  next : ∀ b ∈ s.blocks, b.height ≠ 0 →
    ∃ a ∈ s.blocks, a.height + 1 = b.height ∧ b.previousHash = a.blockHash
  committed : ∀ b ∈ s.blocks, b.blockHash = blockHash (Number.ofNat b.height) b.previousHash
    b.timestamp ((s.rowsAt b.height).map (·.txHash)) b.validatorId
  counted : ∀ b ∈ s.blocks, b.transactionCount = (s.rowsAt b.height).length
  below : ∀ tx ∈ s.transactions, tx.blockHeight < s.blocks.length

/-- What holds of the tables at all times. -/
structure Sound (s : Store) : Prop where
  recorded : ∃ entries : List Entry, s.Recorded entries
  linked : s.Linked

theorem recorded_empty : empty.Recorded [] :=
  ⟨rfl, rfl, rfl, rfl, List.nodup_nil⟩

theorem sound_empty : empty.Sound where
  recorded := ⟨[], recorded_empty⟩
  linked := by constructor <;> simp [empty]

namespace Recorded

variable {s t : Store} {entries : List Entry}

/-- The image hashes on the ledger are those of the entries. -/
theorem map_imageHash (h : s.Recorded entries) :
    s.images.map (·.imageHash) = entries.flatMap Entry.hashes := by
  rw [h.images_eq, List.map_flatMap]
  congr 1
  funext e
  exact e.map_imageHash_images

/-- No two records share an image hash. -/
theorem nodup_imageHash (h : s.Recorded entries) : (s.images.map (·.imageHash)).Nodup :=
  h.map_imageHash ▸ h.nodup

theorem length_transactions (h : s.Recorded entries) : s.transactions.length = entries.length := by
  rw [h.transactions_eq, List.length_map]

theorem congr (h : s.Recorded entries) (htx : t.transactions = s.transactions)
    (himg : t.images = s.images) (hproof : t.proofs = s.proofs) : t.Recorded entries :=
  ⟨htx ▸ h.transactions_eq, himg ▸ h.images_eq, hproof ▸ h.proofs_eq, h.txIds, h.nodup⟩

/-- An entry that the tables admit joins the others. -/
theorem addEntry (h : s.Recorded entries) {e : Entry} (ha : s.Admits e) :
    (s.addEntries [e]).Recorded (entries ++ [e]) where
  transactions_eq := by simp [addEntries, h.transactions_eq]
  images_eq := by simp [addEntries, h.images_eq]
  proofs_eq := by simp [addEntries, h.proofs_eq]
  txIds := by
    have hid : e.txId = 1 + entries.length := by
      rw [ha.txId_eq, h.length_transactions]
      omega
    simp [h.txIds, hid, List.range'_1_concat]
  nodup := by
    have hfresh : ∀ g ∈ entries.flatMap Entry.hashes, g ∉ e.hashes := by
      rw [← h.map_imageHash]
      intro g hg
      obtain ⟨r, hr, rfl⟩ := List.mem_map.mp hg
      exact ha.images_new r hr
    simp only [List.flatMap_append, List.flatMap_cons, List.flatMap_nil, List.append_nil]
    rw [List.nodup_append]
    exact ⟨h.nodup, ha.nodup, fun g hg g' hg' he => hfresh g hg (he ▸ hg')⟩

theorem addEntries (h : s.Recorded entries) {new : List Entry} (ha : s.AdmitsAll new) :
    (s.addEntries new).Recorded (entries ++ new) := by
  induction new generalizing s entries with
  | nil =>
    rw [s.addEntries_nil, List.append_nil]
    exact h
  | cons e rest ih =>
    have hrest := ih (h.addEntry ha.1) ha.2
    rw [← addEntries_append, List.append_assoc] at hrest
    exact hrest

theorem row_mem (h : s.Recorded entries) {e : Entry} (he : e ∈ entries) :
    e.row ∈ s.transactions := by
  rw [h.transactions_eq]
  exact List.mem_map_of_mem he

/-- The entry that a transaction comes from. -/
theorem exists_row (h : s.Recorded entries) {tx : LedgerTransaction}
    (htx : tx ∈ s.transactions) : ∃ e ∈ entries, e.row = tx := by
  rw [h.transactions_eq] at htx
  exact List.mem_map.mp htx

/-- The entry that a record comes from. -/
theorem exists_entry (h : s.Recorded entries) {r : ImageRecord} (hr : r ∈ s.images) :
    ∃ e ∈ entries, r ∈ e.images := by
  rw [h.images_eq] at hr
  exact List.mem_flatMap.mp hr

/-- Transactions stand in the order of their numbers. -/
theorem ascending (h : s.Recorded entries) :
    (s.transactions.map (·.txId)).Pairwise (· < ·) := by
  have hids : s.transactions.map (·.txId) = List.range' 1 entries.length := by
    rw [← h.txIds, h.transactions_eq, List.map_map]
    rfl
  rw [hids]
  exact List.pairwise_lt_range'

end Recorded

namespace Linked

variable {s t : Store}

theorem height_eq_of_getElem? (h : s.Linked) {i : Nat} {b : Block} (hb : s.blocks[i]? = some b) :
    b.height = i := by
  have hheights := congrArg (·[i]?) h.heights
  obtain ⟨hi, -⟩ := List.getElem?_eq_some_iff.mp hb
  simp only [List.getElem?_map, hb, Option.map_some, List.getElem?_range hi] at hheights
  exact Option.some.inj hheights

theorem height_lt (h : s.Linked) {b : Block} (hb : b ∈ s.blocks) :
    b.height < s.blocks.length := by
  have hmem : b.height ∈ s.blocks.map (·.height) := List.mem_map_of_mem hb
  rw [h.heights] at hmem
  exact List.mem_range.mp hmem

/-- The next height is the number of blocks. -/
theorem expected_height (h : s.Linked) : s.expected.1 = s.blocks.length := by
  unfold expected latestBlock
  cases hlast : s.blocks.getLast? with
  | none => simp [List.getLast?_eq_none_iff.mp hlast]
  | some b =>
    rw [List.getLast?_eq_getElem?] at hlast
    obtain ⟨hlt, -⟩ := List.getElem?_eq_some_iff.mp hlast
    have hheight := h.height_eq_of_getElem? hlast
    simp only
    omega

theorem rowsAt_length (h : s.Linked) : s.rowsAt s.blocks.length = [] := by
  rw [rowsAt, List.filter_eq_nil_iff]
  intro tx htx
  have hlt := h.below tx htx
  simp only [decide_eq_true_eq]
  omega

end Linked

section Extend

variable {s : Store} {p : Proposal} {new : List Entry} {nodeId : String}

@[simp] theorem blocks_extend : (s.extend nodeId p new).blocks = s.blocks ++ [s.nextBlock p] := rfl

@[simp] theorem transactions_extend :
    (s.extend nodeId p new).transactions = s.transactions ++ new.map Entry.row := rfl

/-- The rows of a new block stand under its height alone. -/
theorem rowsAt_extend (ha : s.Accepts p new) (height : Nat) :
    (s.extend nodeId p new).rowsAt height =
      s.rowsAt height ++ if height = s.expected.1 then new.map Entry.row else [] := by
  rw [rowsAt, transactions_extend, List.filter_append, rowsAt]
  congr 1
  split_ifs with hh
  · rw [List.filter_eq_self]
    intro tx htx
    obtain ⟨e, he, rfl⟩ := List.mem_map.mp htx
    exact decide_eq_true (hh ▸ ha.heights e he)
  · rw [List.filter_eq_nil_iff]
    intro tx htx
    obtain ⟨e, he, rfl⟩ := List.mem_map.mp htx
    have hrow : e.row.blockHeight = s.expected.1 := ha.heights e he
    simp only [decide_eq_true_eq, hrow]
    exact fun he => hh he.symm

theorem Recorded.extend {entries : List Entry} (h : s.Recorded entries) (ha : s.Accepts p new) :
    (s.extend nodeId p new).Recorded (entries ++ new) := by
  have hblock : (s.addBlock (s.nextBlock p)).Recorded entries := h.congr rfl rfl rfl
  exact (hblock.addEntries ha.admitted).congr rfl rfl rfl

/-- The block below a new one is the one that it names. -/
theorem expected_block (s : Store) :
    (s.blocks = [] ∧ s.expected = (0, HashText.zero)) ∨
      ∃ a ∈ s.blocks, s.expected = (a.height + 1, a.blockHash) := by
  cases hlast : s.blocks.getLast? with
  | none =>
    refine Or.inl ⟨List.getLast?_eq_none_iff.mp hlast, ?_⟩
    simp only [expected, latestBlock, hlast]
  | some a =>
    refine Or.inr ⟨a, List.mem_of_getLast? hlast, ?_⟩
    simp only [expected, latestBlock, hlast]

theorem mem_blocks_extend {b : Block} :
    b ∈ (s.extend nodeId p new).blocks ↔ b ∈ s.blocks ∨ b = s.nextBlock p := by
  rw [blocks_extend, List.mem_append, List.mem_singleton]

theorem rowsAt_extend_old (h : s.Linked) (ha : s.Accepts p new) {b : Block} (hb : b ∈ s.blocks) :
    (s.extend nodeId p new).rowsAt b.height = s.rowsAt b.height := by
  have hexp := h.expected_height
  have hlt := h.height_lt hb
  rw [rowsAt_extend ha, if_neg (by omega), List.append_nil]

theorem rowsAt_extend_new (h : s.Linked) (ha : s.Accepts p new) :
    (s.extend nodeId p new).rowsAt (s.nextBlock p).height = new.map Entry.row := by
  have hexp := h.expected_height
  have hheight : (s.nextBlock p).height = s.blocks.length := hexp
  rw [rowsAt_extend ha, hheight, h.rowsAt_length, if_pos hexp.symm, List.nil_append]

/-- A block on top of a linked chain leaves it linked. -/
theorem Linked.extend (h : s.Linked) (ha : s.Accepts p new) :
    (s.extend nodeId p new).Linked where
  heights := by
    have hheight : (s.nextBlock p).height = s.blocks.length := h.expected_height
    simp [h.heights, List.range_succ, hheight]
  first := by
    intro b hb hzero
    have hheight : (s.nextBlock p).height = s.blocks.length := h.expected_height
    have hprev : (s.nextBlock p).previousHash = s.expected.2 := ha.previousHash_eq
    rcases mem_blocks_extend.mp hb with hb | rfl
    · exact h.first b hb hzero
    · rw [hheight, List.length_eq_zero_iff] at hzero
      simp [hprev, expected, latestBlock, hzero]
  next := by
    intro b hb hpos
    have hheight : (s.nextBlock p).height = s.blocks.length := h.expected_height
    have hprev : (s.nextBlock p).previousHash = s.expected.2 := ha.previousHash_eq
    rcases mem_blocks_extend.mp hb with hb | rfl
    · obtain ⟨a, hmem, hlink⟩ := h.next b hb hpos
      exact ⟨a, mem_blocks_extend.mpr (Or.inl hmem), hlink⟩
    · rcases s.expected_block with ⟨hnil, -⟩ | ⟨a, hmem, hexpected⟩
      · simp [hheight, hnil] at hpos
      · refine ⟨a, mem_blocks_extend.mpr (Or.inl hmem), ?_, ?_⟩
        · rw [hheight, ← h.expected_height, hexpected]
        · rw [hprev, hexpected]
  committed := by
    intro b hb
    rcases mem_blocks_extend.mp hb with hb | rfl
    · rw [rowsAt_extend_old h ha hb]
      exact h.committed b hb
    · have hhashes : (new.map Entry.row).map (·.txHash) = p.transactions.map hashOf := by
        rw [← ha.batches, List.map_map, List.map_map]
        rfl
      rw [rowsAt_extend_new h ha, hhashes]
      change blockHash p.height _ _ _ _ = blockHash (Number.ofNat s.expected.1) _ _ _ _
      rw [ha.height_eq]
      rfl
  counted := by
    intro b hb
    rcases mem_blocks_extend.mp hb with hb | rfl
    · rw [rowsAt_extend_old h ha hb]
      exact h.counted b hb
    · have hcount : (s.nextBlock p).transactionCount = p.transactions.length := rfl
      rw [rowsAt_extend_new h ha, hcount, ← ha.batches, List.length_map, List.length_map]
  below := by
    intro tx htx
    have hexp := h.expected_height
    rw [transactions_extend, List.mem_append, List.mem_map] at htx
    rw [blocks_extend, List.length_append, List.length_singleton]
    rcases htx with htx | ⟨e, he, rfl⟩
    · have hlt := h.below tx htx
      omega
    · have hrow : e.row.blockHeight = s.expected.1 := ha.heights e he
      omega

theorem Sound.extend (h : s.Sound) (ha : s.Accepts p new) : (s.extend nodeId p new).Sound where
  recorded := by
    obtain ⟨entries, hrec⟩ := h.recorded
    exact ⟨entries ++ new, hrec.extend ha⟩
  linked := h.linked.extend ha

end Extend

theorem sameLedger_refl (s : Store) : s.SameLedger s := rfl

/-- Submissions have no part in the ledger. -/
theorem Sound.sameLedger {s t : Store} (hs : s.Sound) (h : s.SameLedger t) : t.Sound := by
  rw [h]
  obtain ⟨entries, hrec⟩ := hs.recorded
  refine ⟨⟨entries, hrec.congr rfl rfl rfl⟩, ?_⟩
  exact ⟨hs.linked.heights, hs.linked.first, hs.linked.next, hs.linked.committed,
    hs.linked.counted, hs.linked.below⟩

/-- One step of the ledger: it stays as it is or grows by a block. -/
def LedgerStep (s t : Store) : Prop :=
  s.SameLedger t ∨ ∃ nodeId p new, s.Accepts p new ∧ (s.extend nodeId p new).SameLedger t

theorem Sound.step {s t : Store} (hs : s.Sound) (h : s.LedgerStep t) : t.Sound := by
  rcases h with hsame | ⟨nodeId, p, new, ha, hsame⟩
  · exact hs.sameLedger hsame
  · exact (hs.extend ha).sameLedger hsame

/-- Work after a block that leaves the ledger to the block. -/
def AfterBlock.KeepsLedger (after : AfterBlock) : Prop :=
  ∀ s stored t, after s stored = .ok t → s.SameLedger t

theorem nothingAfter_keepsLedger : AfterBlock.KeepsLedger nothingAfter := by
  intro s stored t h
  obtain rfl := Except.ok.inj h
  rfl

theorem markBatched_keepsLedger (ids : List Nat) :
    AfterBlock.KeepsLedger fun s block => .ok (s.markBatched ids block.txIds.head?) := by
  intro s stored t h
  obtain rfl := Except.ok.inj h
  rfl

theorem LedgerStep.storeBlock {s t : Store} {nodeId : String} {p : Proposal} {after : AfterBlock}
    {stored : StoredBlock} (hafter : after.KeepsLedger)
    (h : s.storeBlock nodeId p after = .ok (stored, t)) : s.LedgerStep t := by
  obtain ⟨new, ha, rfl, hok⟩ := storeBlock_eq_ok.mp h
  exact Or.inr ⟨nodeId, p, new, ha, hafter _ _ _ hok⟩

end ImageLedger.Store
