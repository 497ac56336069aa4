import ImageLedger.Proofs.Node.Reachable
import ImageLedger.Proofs.Number.Rounding
import ImageLedger.Proofs.Store.InclusionProof

namespace ImageLedger

namespace Store

/-- The row of the node's state points at the highest block, names the first one, and counts the
image records, the inclusion proofs and the hashes of all transactions. -/
structure Describes (s : Store) (state : NodeState) : Prop where
  highest : ∃ b ∈ s.blocks, (∀ c ∈ s.blocks, c.height ≤ b.height) ∧
    state.currentBlockHeight = Number.ofNat b.height ∧ state.lastBlockTime = some b.timestamp
  genesis : ∃ b ∈ s.blocks, b.height = 0 ∧ state.genesisHash = some b.blockHash
  images : state.totalHashes = s.images.length
  proofs : state.totalHashes = s.proofs.length
  sizes : state.totalHashes = (s.transactions.map (·.batchSize)).sum

/-- The node's state is there as soon as there is a block, and agrees with the rows. So do the sizes
of transactions, which are numbered upward from block to block. -/
structure Bookkeeping (s : Store) : Prop where
  present : s.state.isSome = true ↔ s.blocks ≠ []
  state : ∀ state, s.state = some state → s.Describes state
  images : ∀ tx ∈ s.transactions, tx.batchSize = s.images.countP (·.txId = tx.txId)
  proofs : ∀ tx ∈ s.transactions, tx.batchSize = s.proofs.countP (·.txId = tx.txId)
  ascending : (s.blocks.flatMap fun b => (s.rowsAt b.height).map (·.txId)).Pairwise (· < ·)

/-- The node's state as the blocks and image records have it, and transactions that stand in the
order of their blocks. -/
structure Booked (s : Store) : Prop where
  absent : s.blocks = [] → s.state = none
  state : ∀ b, s.latestBlock = some b → ∃ nodeId, s.state = some ⟨nodeId, Number.ofNat b.height,
    s.images.length, s.blocks.head?.map (·.blockHash), some b.timestamp⟩
  ordered : (s.blocks.flatMap fun b => s.rowsAt b.height) = s.transactions

theorem booked_empty : empty.Booked := by
  constructor <;> simp [empty, latestBlock]

theorem Booked.sameLedger {s t : Store} (hs : s.Booked) (h : s.SameLedger t) : t.Booked := by
  rw [h]
  exact ⟨hs.absent, hs.state, hs.ordered⟩

section Extend

variable {s : Store} {p : Proposal} {new : List Entry} {nodeId : String}

/-- Only the first block of a chain is proposed for the height zero. -/
theorem Accepts.height_eq_zero (ha : s.Accepts p new) (hs : s.Linked) :
    p.height = 0 ↔ s.blocks = [] := by
  rw [ha.height_eq, Number.ofNat_eq_zero, hs.expected_height, List.length_eq_zero_iff]

/-- A new block becomes the one that the node's state points at. -/
theorem Booked.state_extend (hs : s.Booked) (hlinked : s.Linked) (ha : s.Accepts p new) :
    (s.extend nodeId p new).state = some ⟨nodeId, Number.ofNat (s.nextBlock p).height,
      (s.extend nodeId p new).images.length,
      (s.extend nodeId p new).blocks.head?.map (·.blockHash), some (s.nextBlock p).timestamp⟩ := by
  have hheight : p.height = Number.ofNat (s.nextBlock p).height := ha.height_eq
  rw [← hheight, blocks_extend]
  cases hlast : s.latestBlock with
  | none =>
    have hnil : s.blocks = [] := List.getLast?_eq_none_iff.mp hlast
    have hstate : ((s.addBlock (s.nextBlock p)).addEntries new).state = none := hs.absent hnil
    simp only [extend, writeNodeState, hstate, if_pos ((ha.height_eq_zero hlinked).mpr hnil), hnil]
    rfl
  | some b =>
    have hne : s.blocks ≠ [] := List.ne_nil_of_mem (List.mem_of_getLast? hlast)
    obtain ⟨id, hid⟩ := hs.state b hlast
    have hstate : ((s.addBlock (s.nextBlock p)).addEntries new).state = _ := hid
    simp only [extend, writeNodeState, hstate, if_neg (mt (ha.height_eq_zero hlinked).mp hne),
      List.head?_append_of_ne_nil s.blocks hne]
    rfl

/-- The rows of a new block stand after those of the blocks below it. -/
theorem Booked.ordered_extend (hs : s.Booked) (hlinked : s.Linked) (ha : s.Accepts p new) :
    ((s.extend nodeId p new).blocks.flatMap fun b => (s.extend nodeId p new).rowsAt b.height) =
      (s.extend nodeId p new).transactions := by
  have hold : (s.blocks.flatMap fun b => (s.extend nodeId p new).rowsAt b.height) =
      s.blocks.flatMap fun b => s.rowsAt b.height :=
    List.flatMap_congr fun b hb => rowsAt_extend_old hlinked ha hb
  rw [blocks_extend, List.flatMap_append, hold, hs.ordered, List.flatMap_singleton,
    rowsAt_extend_new hlinked ha, transactions_extend]

theorem Booked.extend (hs : s.Booked) (hlinked : s.Linked) (ha : s.Accepts p new) :
    (s.extend nodeId p new).Booked where
  absent := by simp
  state := by
    intro b hb
    rw [latestBlock, blocks_extend, List.getLast?_concat] at hb
    obtain rfl := Option.some.inj hb
    exact ⟨nodeId, hs.state_extend hlinked ha⟩
  ordered := hs.ordered_extend hlinked ha

end Extend

/-- Every step of the ledger keeps the books. -/
theorem Booked.step {s t : Store} (hs : s.Booked) (hsound : s.Sound) (h : s.LedgerStep t) :
    t.Booked := by
  rcases h with hsame | ⟨nodeId, p, new, ha, hsame⟩
  · exact hs.sameLedger hsame
  · exact (hs.extend hsound.linked ha).sameLedger hsame

namespace Recorded

variable {s : Store} {entries : List Entry}

theorem length_images (h : s.Recorded entries) :
    s.images.length = (s.transactions.map (·.batchSize)).sum := by
  have hlength : ∀ e : Entry, e.images.length = e.hashes.length := fun e => by simp [Entry.images]
  rw [h.images_eq, h.transactions_eq, List.length_flatMap, List.map_map]
  simp only [hlength]
  rfl

theorem length_proofs (h : s.Recorded entries) :
    s.proofs.length = (s.transactions.map (·.batchSize)).sum := by
  rw [h.proofs_eq, h.transactions_eq, List.length_flatMap, List.map_map]
  simp only [Entry.length_proofs]
  rfl

/-- A transaction has as many image records as its size says. -/
theorem countP_images (h : s.Recorded entries) {tx : LedgerTransaction}
    (htx : tx ∈ s.transactions) : tx.batchSize = s.images.countP (·.txId = tx.txId) := by
  obtain ⟨e, he, rfl⟩ := h.exists_row htx
  have hrows : s.images.filter (·.txId = e.row.txId) = e.images := h.images_of_txId he
  rw [List.countP_eq_length_filter, hrows]
  simp [Entry.images, Entry.row]

/-- A transaction has as many inclusion proofs as its size says. -/
theorem countP_proofs (h : s.Recorded entries) {tx : LedgerTransaction}
    (htx : tx ∈ s.transactions) : tx.batchSize = s.proofs.countP (·.txId = tx.txId) := by
  obtain ⟨e, he, rfl⟩ := h.exists_row htx
  have hrows : s.proofs.filter (·.txId = e.row.txId) = e.proofs := h.proofs_of_txId he
  rw [List.countP_eq_length_filter, hrows, Entry.length_proofs]
  rfl

end Recorded

/-- The highest block is the last one. -/
theorem Linked.le_latest {s : Store} (h : s.Linked) {b c : Block} (hb : s.latestBlock = some b)
    (hc : c ∈ s.blocks) : c.height ≤ b.height := by
  have hlt := h.height_lt hc
  rw [latestBlock, List.getLast?_eq_getElem?] at hb
  have hheight := h.height_eq_of_getElem? hb
  omega

theorem Linked.height_head {s : Store} (h : s.Linked) {b : Block} (hb : s.blocks.head? = some b) :
    b.height = 0 := by
  rw [List.head?_eq_getElem?] at hb
  exact h.height_eq_of_getElem? hb

/-- Books that are kept along a sound chain agree with all of its rows. -/
theorem Booked.bookkeeping {s : Store} (h : s.Booked) (hsound : s.Sound) : s.Bookkeeping := by
  obtain ⟨⟨entries, hrec⟩, hlinked⟩ := hsound
  refine ⟨?_, ?_, fun tx htx => hrec.countP_images htx, fun tx htx => hrec.countP_proofs htx, ?_⟩
  · cases hlast : s.latestBlock with
    | none =>
      have hnil : s.blocks = [] := List.getLast?_eq_none_iff.mp hlast
      simp [h.absent hnil, hnil]
    | some b =>
      obtain ⟨nodeId, hstate⟩ := h.state b hlast
      have hne : s.blocks ≠ [] := List.ne_nil_of_mem (List.mem_of_getLast? hlast)
      simp [hstate, hne]
  · intro state hstate
    cases hlast : s.latestBlock with
    | none =>
      rw [h.absent (List.getLast?_eq_none_iff.mp hlast)] at hstate
      cases hstate
    | some b =>
      have hmem : b ∈ s.blocks := List.mem_of_getLast? hlast
      obtain ⟨first, hfirst⟩ : ∃ first, s.blocks.head? = some first :=
        ⟨_, List.head?_eq_some_head (List.ne_nil_of_mem hmem)⟩
      obtain ⟨nodeId, hbooked⟩ := h.state b hlast
      rw [hstate] at hbooked
      obtain rfl := Option.some.inj hbooked
      refine ⟨⟨b, hmem, fun c hc => hlinked.le_latest hlast hc, rfl, rfl⟩, ?_, rfl, ?_, ?_⟩
      · exact ⟨first, List.mem_of_mem_head? hfirst, hlinked.height_head hfirst, by rw [hfirst]; rfl⟩
      · exact hrec.length_images.trans hrec.length_proofs.symm
      · exact hrec.length_images
  · rw [← List.map_flatMap, h.ordered]
    exact hrec.ascending

end Store

namespace Node

/-- What empty tables have and every step on sound tables keeps holds in all states that a node
reaches. -/
theorem ReachableFrom.invariant {P : Store → Prop} (hfirst : P .empty)
    (hstep : ∀ s t : Store, s.Sound → P s → s.LedgerStep t → P t) {start n : Node}
    (hempty : start.store = .empty) (h : start.ReachableFrom n) : P n.store := by
  obtain ⟨pool, hreach⟩ := h
  have hstart : start.store.Sound ∧ P start.store := by
    rw [hempty]
    exact ⟨Store.sound_empty, hfirst⟩
  have hboth : n.store.Sound ∧ P n.store :=
    hreach.invariant (P := fun n => n.store.Sound ∧ P n.store) hstart (fun a ha => ha.within)
      fun n m hnm hn => ⟨hn.1.step hnm, hstep n.store m.store hn.1 hn.2 hnm⟩
  exact hboth.2

/-- The books of a node that started with empty tables agree with its chain, whatever the node was
asked to do and in whatever order the steps were taken. -/
theorem bookkeeping_of_reachable (start n : Node) (hempty : start.store = Store.empty)
    (h : start.ReachableFrom n) : n.store.Bookkeeping := by
  have hbooked : n.store.Booked := h.invariant Store.booked_empty
    (fun s t hsound hs hstep => hs.step hsound hstep) hempty
  exact hbooked.bookkeeping (h.sound hempty)

/-- The books of a chain with one block for one hash. -/
theorem bookkeeping_founded : founded.store.Bookkeeping ∧
    founded.store.state.map (·.totalHashes) = some 1 :=
  ⟨bookkeeping_of_reachable lone founded rfl reachableFrom_lone, by decide +kernel⟩

end Node

end ImageLedger
