import ImageLedger.Proofs.Node.Perform
import ImageLedger.Proofs.Node.Reachable
import ImageLedger.Proofs.Rules
import ImageLedger.Proofs.Store.Extension
import ImageLedger.Proofs.Store.Lookup

namespace ImageLedger

namespace Store

variable {s : Store} {options : Rules.Options} {now : Number} {tx : BatchTransaction}

/-- A least size of one or more keeps empty batches out. -/
theorem nonempty_of_checkSize (hmin : Number.le 1 options.batchSizeMin = true)
    (h : Rules.checkSize options tx.imageHashes.length = none) : tx.imageHashes ≠ [] := by
  intro hnil
  have hsmall : Number.lt (Number.ofNat 0) options.batchSizeMin = true :=
    Number.lt_of_lt_of_le (by decide) hmin
  rw [hnil, List.length_nil, Rules.checkSize, if_pos hsmall] at h
  cases h

theorem isFinite_of_checkTimestamp {t : Number}
    (h : Rules.checkTimestamp now (some (.number t)) = none) : t.isFinite = true := by
  rw [Rules.checkTimestamp] at h
  split at h
  · cases h
  · next hfinite => simpa using hfinite

/-- A batch that is accepted can be taken by the ledger that was asked. -/
theorem Takes.of_accepts (hmin : Number.le 1 options.batchSizeMin = true)
    (h : Rules.Accepts options s.existingOf now tx) : s.Takes tx where
  nonempty := nonempty_of_checkSize hmin h.size
  wellFormed := h.wellFormed
  nodup := h.nodup
  fresh := existingOf_eq_nil.mp h.fresh
  times := by
    have hlengths := h.lengths
    rw [Rules.checkLengths, List.findSome?_cons] at hlengths
    simp only [BatchTransaction.received, List.length_map] at hlengths
    by_contra hne
    simp [hne] at hlengths
  finite := fun t ht => isFinite_of_checkTimestamp (h.times t ht)

end Store

namespace Node

variable {n : Node}

/-- A batch of the right form with a hash that is on the ledger breaks the rule against that. -/
theorem exists_alreadyOnChain {tx : BatchTransaction} {text : String} {r : ImageRecord}
    (htext : text ∈ tx.imageHashes) (hr : r ∈ n.store.images)
    (hnorm : HashText.normalize? text = some r.imageHash)
    (hform : Rules.checkForm n.ruleOptions tx.received = none) (now : Number) :
    ∃ hashes, n.violation now tx.received = some (.alreadyOnChain hashes) := by
  obtain ⟨hwell, hlower⟩ := HashText.normalize?_eq_some.mp hnorm
  have hmem : r.imageHash ∈ Rules.normalizedHashes tx.received := by
    refine List.mem_filterMap.mpr ⟨.text text, List.mem_map_of_mem htext, ?_⟩
    simp only [HashText.ofJson?, if_pos hwell, Option.map_some, hlower]
  have hfound : r.imageHash ∈ n.store.existingOf (Rules.normalizedHashes tx.received) :=
    Store.mem_existingOf.mpr ⟨hmem, r, hr, rfl⟩
  have hsome : ¬ (n.store.existingOf (Rules.normalizedHashes tx.received)).isEmpty = true := by
    intro hempty
    rw [List.isEmpty_iff.mp hempty] at hfound
    cases hfound
  rw [violation, Rules.validate, hform, Rules.checkOnChain, if_neg hsome]
  exact ⟨_, rfl⟩

/-- A batch with a hash that is on the ledger breaks a rule. -/
theorem exists_violation {tx : BatchTransaction} {text : String} {r : ImageRecord}
    (htext : text ∈ tx.imageHashes) (hr : r ∈ n.store.images)
    (hnorm : HashText.normalize? text = some r.imageHash) (now : Number) :
    ∃ v, n.violation now tx.received = some v := by
  cases hform : Rules.checkForm n.ruleOptions tx.received with
  | some v => exact ⟨v, by rw [violation, Rules.validate, hform, Option.some_or]⟩
  | none =>
    obtain ⟨hashes, hv⟩ := exists_alreadyOnChain htext hr hnorm hform now
    exact ⟨_, hv⟩

/-- A node alone proposes the next block at once, and stays as it is. -/
theorem perform_propose_single (hmode : n.engine.mode = .single) (network : Consensus.Network)
    {transactions : List BatchTransaction} (htxs : transactions ≠ []) (time : Option Number) :
    (propose network transactions time).perform n = some (.ok (some
      (Consensus.buildProposal n.sign n.engine.validatorId n.tip transactions
        (time.getD n.seconds))), n) := by
  have hlook : (Operation.look fun m => .ok m.tip).perform n = some (.ok n.tip, n) := rfl
  rw [propose, Operation.perform_bind hlook, Operation.perform_attempt, Consensus.Engine.propose,
    if_neg (by simpa using htxs), hmode]
  rfl

/-- The next proposal for a transaction that the ledger takes is stored, or shares a digest with a
stored block or transaction. -/
theorem exists_storeBlock (hs : n.store.Sound) (hlen : n.store.blocks.length ≤ Number.wholeLimit)
    {tx : BatchTransaction} (htakes : n.store.Takes tx) {p : Proposal} {time : Number}
    (hp : p = Consensus.buildProposal n.sign n.engine.validatorId n.tip [tx] time)
    (htime : time ≠ .nan) {after : Store.AfterBlock}
    (hafter : ∀ s stored, ∃ t, after s stored = .ok t)
    (hblock : ¬ n.store.Collides (Store.proposalText p))
    (hbatch : ¬ n.store.Collides (Store.batchText tx)) :
    ∃ e stored t, n.store.Accepts p [e] ∧
      after (n.store.extend n.settings.nodeId p [e]) stored = .ok t ∧
      stored = ⟨n.store.nextBlock p, [e.txId]⟩ ∧
      n.store.storeBlock n.settings.nodeId p after = .ok (stored, t) := by
  obtain ⟨hheight, hprevious⟩ := Consensus.extends_buildProposal n.store n.sign
    n.engine.validatorId [tx] time
  rw [Store.expectedHeight_eq (hs.linked.expected_height.trans_le hlen)] at hheight
  subst hp
  obtain ⟨e, he⟩ := htakes.exists_accepts hs hlen rfl rfl hheight hprevious htime hblock hbatch
  obtain ⟨t, ht⟩ := hafter (n.store.extend n.settings.nodeId _ [e]) ⟨n.store.nextBlock _, [e.txId]⟩
  exact ⟨e, _, t, he, ht, rfl, Store.storeBlock_eq_ok.mpr ⟨[e], he, rfl, ht⟩⟩

theorem getD_seconds_ne_nan {time : Option Number} (htime : time ≠ some .nan) (n : Node) :
    time.getD n.seconds ≠ .nan := by
  cases time with
  | none => exact Number.ofRat_ne_nan _
  | some t => exact fun h => htime (congrArg some h)

/-- Whatever a validator accepts on the ledger of a node alone, with any options that ask for one
hash at least, is proposed and stored if nothing else is written in between, unless the new block or
transaction shares its digest with another text that was hashed for a stored one. Heights are
counted exactly for so many blocks. -/
theorem accepted_is_stored (start n : Node) (hempty : start.store = Store.empty)
    (hreach : start.ReachableFrom n) (hmode : n.engine.mode = .single)
    (hlen : n.store.blocks.length ≤ Number.wholeLimit) (options : Rules.Options)
    (hmin : Number.le 1 options.batchSizeMin = true) (now : Number) (tx : BatchTransaction)
    (haccept : Rules.validate options n.store.existingOf now tx.received = none)
    (network : Consensus.Network) (time : Option Number) (htime : time ≠ some .nan) :
    ∃ p, (propose network [tx] time).perform n = some (.ok (some p), n) ∧
      ((∃ stored m, (storeBlock p Store.nothingAfter).perform n = some (.ok stored, m)) ∨
        n.store.Collides (Store.proposalText p) ∨ n.store.Collides (Store.batchText tx)) := by
  refine ⟨_, perform_propose_single hmode network (List.cons_ne_nil tx []) time, ?_⟩
  by_cases hblock : n.store.Collides (Store.proposalText
      (Consensus.buildProposal n.sign n.engine.validatorId n.tip [tx] (time.getD n.seconds)))
  · exact Or.inr (Or.inl hblock)
  · by_cases hbatch : n.store.Collides (Store.batchText tx)
    · exact Or.inr (Or.inr hbatch)
    · left
      have htakes := Store.Takes.of_accepts hmin (Rules.validate_eq_none.mp haccept)
      obtain ⟨e, stored, t, -, -, -, hstored⟩ := exists_storeBlock (hreach.sound hempty) hlen htakes
        rfl (getD_seconds_ne_nan htime n) (fun s stored => ⟨s, rfl⟩) hblock hbatch
      exact ⟨stored, _, storeBlock_run hstored⟩

theorem not_collides_empty (text : String) : ¬ Store.empty.Collides text := by
  rintro ⟨old, ⟨b, hb, -⟩ | ⟨tx, htx, -⟩, -⟩
  · cases hb
  · cases htx

/-- The first hash of a ledger is stored. -/
theorem accepted_is_stored_lone : ∃ p stored m,
    (propose .silent [loneBatch] none).perform lone = some (.ok (some p), lone) ∧
    (storeBlock p Store.nothingAfter).perform lone = some (.ok stored, m) := by
  obtain ⟨p, hp, hstored⟩ := accepted_is_stored lone lone rfl ⟨[], .start⟩ rfl (Nat.zero_le _)
    ⟨some ["lone"], 1, 100⟩ (by decide) 120 loneBatch (by decide +kernel) .silent none nofun
  rcases hstored with ⟨stored, m, hm⟩ | hcollides | hcollides
  · exact ⟨p, stored, m, hp, hm⟩
  · exact absurd hcollides (not_collides_empty _)
  · exact absurd hcollides (not_collides_empty _)

end Node

end ImageLedger
