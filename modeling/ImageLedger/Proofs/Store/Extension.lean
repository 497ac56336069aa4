import ImageLedger.Consensus.Engine
import ImageLedger.Proofs.Chain.Commitment
import ImageLedger.Proofs.Merkle.Existence
import ImageLedger.Proofs.Store.InclusionProof

namespace ImageLedger

theorem roundToMinute_ne_nan {t : Number} (h : t.isFinite = true) : roundToMinute t ≠ .nan := by
  cases t with
  | finite q =>
    have hsixty : (60 : Number) = .finite 60 := by decide
    have hne : ¬ ((60 : Rat) = 0) := by norm_num
    rw [roundToMinute, hsixty, Number.rem, if_neg hne]
    exact Number.ofRat_ne_nan _
  | infinite negative => cases h
  | nan => cases h

namespace Store

/-- A text that the hash of a stored block or transaction was made of. -/
def Hashed (s : Store) (text : String) : Prop :=
  (∃ b ∈ s.blocks, b.blockHash = hashText text ∧ text = blockText (Number.ofNat b.height)
    b.previousHash b.timestamp ((s.rowsAt b.height).map (·.txHash)) b.validatorId) ∨
  ∃ tx ∈ s.transactions, tx.txHash = hashText text ∧
    ∃ times, text = transactionText (s.hashesOf tx.txId) times tx.submitterId

/-- Another text with the same digest was hashed for a stored block or transaction. -/
def Collides (s : Store) (text : String) : Prop :=
  ∃ old, s.Hashed old ∧ old ≠ text ∧ hashText old = hashText text

/-- Submissions have no part in the texts that were hashed. -/
theorem collides_sameLedger {s t : Store} (h : s.SameLedger t) {text : String} :
    t.Collides text ↔ s.Collides text := by
  rw [h]
  rfl

/-- The text that the hash of a proposed block is made of. -/
def proposalText (p : Proposal) : String :=
  blockText p.height p.previousHash p.timestamp (p.transactions.map hashOf) p.validatorId

/-- The text that the hash of a transaction is made of. -/
def batchText (tx : BatchTransaction) : String :=
  transactionText (lowerHashes tx) tx.timestamps tx.submitterId

/-- Whether the ledger can take a transaction: it has image hashes, all well-formed, different and
new, and a time for each. -/
structure Takes (s : Store) (tx : BatchTransaction) : Prop where
  nonempty : tx.imageHashes ≠ []
  wellFormed : HashesWellFormed tx
  nodup : (lowerHashes tx).Nodup
  fresh : ∀ r ∈ s.images, r.imageHash ∉ lowerHashes tx
  times : tx.timestamps.length = tx.imageHashes.length
  finite : ∀ t ∈ tx.timestamps, t.isFinite = true

variable {s : Store} {tx : BatchTransaction}

theorem mem_sort {texts : List String} {text : String} : text ∈ Text.sort texts ↔ text ∈ texts :=
  List.mem_mergeSort

/-- Transactions whose texts are the same have an image hash in common. -/
theorem exists_common_of_batchText {old new : BatchTransaction} (hne : new.imageHashes ≠ [])
    (h : batchText old = batchText new) :
    ∃ hash, hash ∈ lowerHashes old ∧ hash ∈ lowerHashes new := by
  have hhead := head?_of_transactionText h
  cases hsort : Text.sort (lowerHashes new) with
  | nil =>
    have hnil : lowerHashes new = [] := List.eq_nil_iff_forall_not_mem.mpr fun hash hmem => by
      rw [← mem_sort, hsort] at hmem
      cases hmem
    exact absurd (List.map_eq_nil_iff.mp hnil) hne
  | cons hash rest =>
    rw [hsort, List.head?_cons] at hhead
    refine ⟨hash, mem_sort.mp (List.mem_of_head? hhead), mem_sort.mp ?_⟩
    rw [hsort]
    exact List.mem_cons_self

/-- The entry that a transaction becomes. -/
theorem Takes.exists_entry (h : s.Takes tx) (height : Nat) : ∃ e : Entry,
    e.batch = tx ∧ e.blockHeight = height ∧ e.txId = s.transactions.length + 1 := by
  have hwell : ∀ hash ∈ lowerHashes tx, HashText.wellFormed hash = true := by
    intro hash hmem
    obtain ⟨g, hg, rfl⟩ := List.mem_map.mp hmem
    rw [HashText.wellFormed_lower]
    exact h.wellFormed g hg
  have hne : lowerHashes tx ≠ [] := fun hnil => h.nonempty (List.map_eq_nil_iff.mp hnil)
  obtain ⟨tree, htree⟩ := Merkle.exists_build hne hwell h.nodup
  have htree' : treeOf (lowerHashes tx) = .ok (some tree) := by
    rw [treeOf, if_neg (by simpa using hne), htree]
  exact ⟨⟨s.transactions.length + 1, height, tx, some tree, h.wellFormed, htree'⟩, rfl, rfl, rfl⟩

/-- No record of a transaction that the ledger takes lacks a time. -/
theorem Takes.numbers (h : s.Takes tx) {e : Entry} (he : e.batch = tx) :
    ∀ r ∈ e.images, r.timestamp ≠ .nan := by
  subst he
  intro r hr
  obtain ⟨i, hi, rfl⟩ := List.mem_mapIdx.mp hr
  have hlt : i < e.batch.timestamps.length := by
    have hlen : e.hashes.length = e.batch.imageHashes.length := List.length_map _
    rw [h.times]
    omega
  have htime : e.batch.timestamps[i]? = some e.batch.timestamps[i] := List.getElem?_eq_getElem hlt
  simp only [imageRow, htime, Option.getD_some]
  exact roundToMinute_ne_nan (h.finite _ (List.getElem_mem hlt))

/-- The text of a stored transaction differs from that of a new one. -/
theorem Takes.txHash_new (h : s.Takes tx) (hs : s.Sound) (hnone : ¬ s.Collides (batchText tx)) :
    ∀ row ∈ s.transactions, row.txHash ≠ hashOf tx := by
  intro row hrow heq
  obtain ⟨entries, hrec⟩ := hs.recorded
  obtain ⟨e, he, rfl⟩ := hrec.exists_row hrow
  have hhashed : s.Hashed (batchText e.batch) := by
    refine Or.inr ⟨e.row, hrow, rfl, e.batch.timestamps, ?_⟩
    have hid : e.row.txId = e.txId := rfl
    rw [hid, hrec.hashesOf_txId he]
    rfl
  refine hnone ⟨batchText e.batch, hhashed, fun hsame => ?_, heq⟩
  obtain ⟨hash, hold, hnew⟩ := exists_common_of_batchText h.nonempty hsame
  have hstored : hash ∈ s.images.map (·.imageHash) := by
    rw [hrec.map_imageHash]
    exact List.mem_flatMap.mpr ⟨e, he, hold⟩
  obtain ⟨r, hr, rfl⟩ := List.mem_map.mp hstored
  exact h.fresh r hr hnew

/-- No stored block has the hash of the next one. -/
theorem blockHash_new (hs : s.Sound) (hlen : s.blocks.length ≤ Number.wholeLimit) {p : Proposal}
    (hheight : p.height = Number.ofNat s.expected.1) (hnone : ¬ s.Collides (proposalText p)) :
    ∀ b ∈ s.blocks, b.blockHash ≠ (s.nextBlock p).blockHash := by
  intro b hb heq
  have hlt := hs.linked.height_lt hb
  have hcommitted := hs.linked.committed b hb
  refine hnone ⟨_, Or.inl ⟨b, hb, hcommitted, rfl⟩, fun hsame => ?_, hcommitted.symm.trans heq⟩
  rw [proposalText, hheight, hs.linked.expected_height] at hsame
  have := height_of_blockText (by omega) hlen hsame
  omega

/-- A transaction that the ledger takes can be stored in the block that extends the chain. -/
theorem Takes.exists_accepts (h : s.Takes tx) (hs : s.Sound)
    (hlen : s.blocks.length ≤ Number.wholeLimit) {p : Proposal} (htx : p.transactions = [tx])
    (hhashes : p.transactionHashes = [hashOf tx]) (hheight : p.height = Number.ofNat s.expected.1)
    (hprevious : p.previousHash = s.expected.2) (htime : p.timestamp ≠ .nan)
    (hblock : ¬ s.Collides (proposalText p)) (hbatch : ¬ s.Collides (batchText tx)) :
    ∃ e : Entry, s.Accepts p [e] := by
  obtain ⟨e, he, heheight, hid⟩ := h.exists_entry s.expected.1
  have hadmits : (s.addBlock (s.nextBlock p)).Admits e := by
    refine ⟨hid, ?_, h.numbers he, ?_, ?_⟩
    · rw [he]
      exact h.txHash_new hs hbatch
    · rw [Entry.hashes, he]
      exact h.nodup
    · rw [Entry.hashes, he]
      exact h.fresh
  have hnext : s.expected.1 ≤ Number.wholeLimit := hs.linked.expected_height.trans_le hlen
  refine ⟨e, ?_, hheight, hnext, hprevious, htime, blockHash_new hs hlen hheight hblock, ?_, ?_,
    hadmits, trivial⟩
  · rw [hhashes, htx]
    rfl
  · rw [htx, ← he]
    rfl
  · intro f hf
    obtain rfl := List.mem_singleton.mp hf
    exact heheight

end Store

/-- A node's next proposal extends its chain. -/
theorem Consensus.extends_buildProposal (s : Store) (sign : String → String) (validatorId : String)
    (transactions : List BatchTransaction) (timestamp : Number) :
    (buildProposal sign validatorId (s.latestBlock.map Block.tip) transactions timestamp).height =
      s.expectedHeight ∧
    (buildProposal sign validatorId (s.latestBlock.map Block.tip) transactions
      timestamp).previousHash = s.expected.2 := by
  unfold Store.expectedHeight Store.expected
  cases s.latestBlock <;> exact ⟨rfl, rfl⟩

end ImageLedger
