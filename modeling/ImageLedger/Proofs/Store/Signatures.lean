import ImageLedger.Proofs.Store.InclusionProof

namespace ImageLedger

/-- A proposal that is signed for what it says. -/
def Proposal.SignedBy (sign : String → String) (p : Proposal) : Prop :=
  p.signature = sign (signingPayload p.height p.previousHash p.timestamp
    (p.transactions.map Store.hashOf) p.validatorId)

/-- A transaction that is signed for its small image hashes, in order. -/
def BatchTransaction.SignedBy (sign : String → String) (tx : BatchTransaction) : Prop :=
  tx.signature = sign (batchPayload (Store.lowerHashes tx))

namespace Store

/-- The hashes of the transactions under a height, in the order of their numbers. -/
def hashesAt (s : Store) (height : Nat) : List String :=
  ((s.rowsAt height).mergeSort fun a b => a.txId ≤ b.txId).map (·.txHash)

/-- Every block is signed for what its row says and for the hashes of its transactions. -/
def BlocksSigned (sign : String → String) (s : Store) : Prop :=
  ∀ b ∈ s.blocks, b.signature = sign (signingPayload (Number.ofNat b.height) b.previousHash
    b.timestamp (s.hashesAt b.height) b.validatorId)

/-- The ledger stays as it is, or grows by a signed block whose transactions meet `wanted`. -/
def SignedStep (sign : String → String) (wanted : BatchTransaction → Prop) (s t : Store) : Prop :=
  s.SameLedger t ∨ ∃ nodeId p new, s.Accepts p new ∧ p.SignedBy sign ∧
    (∀ e ∈ new, wanted e.batch) ∧ (s.extend nodeId p new).SameLedger t

/-- Entries that the rows come from stay, and others follow them. -/
def EntriesKept (s t : Store) : Prop :=
  ∀ entries, s.Recorded entries → ∃ more, t.Recorded (entries ++ more)

variable {sign : String → String} {s t u : Store} {entries : List Entry}

theorem Recorded.hashesAt_eq (h : s.Recorded entries) (height : Nat) :
    s.hashesAt height = (s.rowsAt height).map (·.txHash) := by
  have hsorted : (s.rowsAt height).Pairwise fun a b => a.txId ≤ b.txId := by
    have hall := List.pairwise_map.mp h.ascending
    exact (hall.imp fun hlt => Nat.le_of_lt hlt).filter _
  rw [hashesAt, List.mergeSort_of_pairwise (by simpa using hsorted)]

theorem SignedStep.ledgerStep {wanted : BatchTransaction → Prop} (h : s.SignedStep sign wanted t) :
    s.LedgerStep t := by
  rcases h with hsame | ⟨nodeId, p, new, ha, -, -, hsame⟩
  · exact Or.inl hsame
  · exact Or.inr ⟨nodeId, p, new, ha, hsame⟩

theorem SignedStep.mono {wanted wanted' : BatchTransaction → Prop}
    (h : s.SignedStep sign wanted t) (himp : ∀ tx, wanted tx → wanted' tx) :
    s.SignedStep sign wanted' t := by
  rcases h with hsame | ⟨nodeId, p, new, ha, hsigned, hwanted, hsame⟩
  · exact Or.inl hsame
  · exact Or.inr ⟨nodeId, p, new, ha, hsigned, fun e he => himp _ (hwanted e he), hsame⟩

theorem SignedStep.refl {wanted : BatchTransaction → Prop} (s : Store) :
    s.SignedStep sign wanted s :=
  Or.inl s.sameLedger_refl

/-- Storing a signed proposal. Only transactions with well-formed hashes are stored. -/
theorem SignedStep.storeBlock {wanted : BatchTransaction → Prop} {nodeId : String} {p : Proposal}
    {after : AfterBlock} {stored : StoredBlock} (hafter : after.KeepsLedger)
    (hsigned : p.SignedBy sign) (hwanted : ∀ tx ∈ p.transactions, HashesWellFormed tx → wanted tx)
    (h : s.storeBlock nodeId p after = .ok (stored, t)) : s.SignedStep sign wanted t := by
  obtain ⟨new, ha, rfl, hok⟩ := storeBlock_eq_ok.mp h
  refine Or.inr ⟨nodeId, p, new, ha, hsigned, fun e he => ?_, hafter _ _ _ hok⟩
  apply hwanted e.batch _ e.wellFormed
  rw [← ha.batches]
  exact List.mem_map_of_mem he

theorem BlocksSigned.sameLedger (h : s.BlocksSigned sign) (hsame : s.SameLedger t) :
    t.BlocksSigned sign := by
  rw [hsame]
  exact h

/-- A signed proposal leaves a signed block, and changes nothing that was signed before. -/
theorem BlocksSigned.extend (h : s.BlocksSigned sign) (hs : s.Sound) {nodeId : String}
    {p : Proposal} {new : List Entry} (ha : s.Accepts p new) (hp : p.SignedBy sign) :
    (s.extend nodeId p new).BlocksSigned sign := by
  obtain ⟨⟨entries, hrec⟩, hlinked⟩ := hs
  intro b hb
  rw [(hrec.extend ha).hashesAt_eq]
  rcases mem_blocks_extend.mp hb with hb | rfl
  · rw [rowsAt_extend_old hlinked ha hb, ← hrec.hashesAt_eq]
    exact h b hb
  · have hhashes : (new.map Entry.row).map (·.txHash) = p.transactions.map hashOf := by
      rw [← ha.batches, List.map_map, List.map_map]
      rfl
    have hheight : Number.ofNat (s.nextBlock p).height = p.height := ha.height_eq.symm
    rw [rowsAt_extend_new hlinked ha, hhashes, hheight]
    exact hp

theorem BlocksSigned.step {wanted : BatchTransaction → Prop} (h : s.BlocksSigned sign)
    (hs : s.Sound) (hstep : s.SignedStep sign wanted t) : t.BlocksSigned sign := by
  rcases hstep with hsame | ⟨nodeId, p, new, ha, hp, -, hsame⟩
  · exact h.sameLedger hsame
  · exact (h.extend hs ha hp).sameLedger hsame

theorem EntriesKept.refl (s : Store) : s.EntriesKept s :=
  fun entries h => ⟨[], by rwa [List.append_nil]⟩

theorem EntriesKept.trans (h : s.EntriesKept t) (h' : t.EntriesKept u) : s.EntriesKept u := by
  intro entries hs
  obtain ⟨more, ht⟩ := h entries hs
  obtain ⟨rest, hu⟩ := h' _ ht
  exact ⟨more ++ rest, by rwa [← List.append_assoc]⟩

theorem Recorded.sameLedger (h : s.Recorded entries) (hsame : s.SameLedger t) :
    t.Recorded entries := by
  rw [hsame]
  exact h.congr rfl rfl rfl

theorem LedgerStep.entriesKept (h : s.LedgerStep t) : s.EntriesKept t := by
  intro entries hs
  rcases h with hsame | ⟨nodeId, p, new, ha, hsame⟩
  · exact ⟨[], (List.append_nil entries).symm ▸ hs.sameLedger hsame⟩
  · exact ⟨new, (hs.extend ha).sameLedger hsame⟩

/-- A transaction that came with a step stays, and its signature is the one for its image records,
as long as the entries are kept. -/
theorem SignedStep.signature_eq (h : s.SignedStep sign (·.SignedBy sign) t)
    (hs : s.Recorded entries) (hkept : t.EntriesKept u) {tx : LedgerTransaction}
    (htx : tx ∈ t.transactions) (hnew : tx ∉ s.transactions) :
    tx ∈ u.transactions ∧ tx.signature = sign (batchPayload (u.hashesOf tx.txId)) := by
  rcases h with hsame | ⟨nodeId, p, new, ha, -, hsigned, hsame⟩
  · rw [hsame] at htx
    exact absurd htx hnew
  · rw [hsame] at htx
    rcases List.mem_append.mp htx with hold | hrow
    · exact absurd hold hnew
    · obtain ⟨e, he, rfl⟩ := List.mem_map.mp hrow
      obtain ⟨more, hu⟩ := hkept _ ((hs.extend ha).sameLedger hsame)
      have hmem : e ∈ entries ++ new ++ more := by simp [he]
      constructor
      · exact hu.row_mem hmem
      · change e.batch.signature = sign (batchPayload (u.hashesOf e.txId))
        rw [hu.hashesOf_txId hmem]
        exact hsigned e he

end Store

end ImageLedger
