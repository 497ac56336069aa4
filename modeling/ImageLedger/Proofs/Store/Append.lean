import ImageLedger.Store.Append
import ImageLedger.Proofs.Digest.HashText
import ImageLedger.Proofs.Number.Whole
import Mathlib.Data.List.Basic

namespace ImageLedger

/-- A computation of two parts ends well when both do. -/
theorem bind_eq_ok {ε α β : Type} {x : Except ε α} {f : α → Except ε β} {r : β} :
    x >>= f = .ok r ↔ ∃ a, x = .ok a ∧ f a = .ok r := by
  cases x with
  | error e => simp [bind, Except.bind]
  | ok a => simp [bind, Except.bind]

/-- A computation of two parts fails when the first does, or the second after it. -/
theorem bind_eq_error {ε α β : Type} {x : Except ε α} {f : α → Except ε β} {e : ε} :
    x >>= f = .error e ↔ x = .error e ∨ ∃ a, x = .ok a ∧ f a = .error e := by
  cases x <;> simp [bind, Except.bind]

/-- A list is worked through without an error when every item allows it, and gives the images of
the items. -/
theorem mapM_eq_ok {ε α β : Type} {f : α → Except ε β} {p : α → Prop} {g : α → β}
    (hf : ∀ a b, f a = .ok b ↔ p a ∧ g a = b) {l : List α} {r : List β} :
    l.mapM f = .ok r ↔ (∀ a ∈ l, p a) ∧ l.map g = r := by
  induction l generalizing r with
  | nil => simp [pure, Except.pure]
  | cons a rest ih =>
    rw [List.mapM_cons]
    cases ha : f a with
    | error e =>
      have hp : ¬ p a := fun hp => by
        rw [(hf a (g a)).mpr ⟨hp, rfl⟩] at ha
        cases ha
      simp [bind, Except.bind, hp]
    | ok b =>
      obtain ⟨hp, rfl⟩ := (hf a b).mp ha
      cases hrest : rest.mapM f with
      | error e =>
        have hnone : ¬ ∀ x ∈ rest, p x := fun h => by
          rw [ih.mpr ⟨h, rfl⟩] at hrest
          cases hrest
        simp only [bind, Except.bind, reduceCtorEq, List.mem_cons, forall_eq_or_imp, false_iff]
        exact fun h => hnone h.1.2
      | ok bs =>
        obtain ⟨hall, rfl⟩ := ih.mp hrest
        simp only [bind, Except.bind, pure, Except.pure, Except.ok.injEq, List.mem_cons,
          forall_eq_or_imp, hp, true_and, List.map_cons]
        exact ⟨fun h => ⟨hall, h⟩, fun h => h.2⟩

/-- A list is not worked through because of one of its items. -/
theorem exists_of_mapM_eq_error {ε α β : Type} {f : α → Except ε β} {as : List α} {e : ε}
    (h : as.mapM f = .error e) : ∃ a ∈ as, f a = .error e := by
  induction as with
  | nil => cases h
  | cons a rest ih =>
    rw [List.mapM_cons] at h
    cases ha : f a with
    | error e' =>
      rw [ha] at h
      obtain rfl := Except.error.inj h
      exact ⟨a, List.mem_cons_self, ha⟩
    | ok b =>
      rw [ha] at h
      cases hrest : rest.mapM f with
      | ok bs =>
        change (rest.mapM f >>= fun bs => pure (b :: bs)) = _ at h
        rw [hrest] at h
        cases h
      | error e' =>
        change (rest.mapM f >>= fun bs => pure (b :: bs)) = _ at h
        rw [hrest] at h
        obtain rfl := Except.error.inj h
        obtain ⟨other, hother, hfails⟩ := ih hrest
        exact ⟨other, List.mem_cons_of_mem a hother, hfails⟩

namespace Store

/-- Whether all image hashes of a transaction name digests. -/
def HashesWellFormed (tx : BatchTransaction) : Prop :=
  ∀ h ∈ tx.imageHashes, HashText.wellFormed h = true

/-- The lowercase image hashes of a transaction. -/
def lowerHashes (tx : BatchTransaction) : List String := tx.imageHashes.map HashText.lower

/-- The hash that a transaction is stored under. -/
def hashOf (tx : BatchTransaction) : String :=
  transactionHash (lowerHashes tx) tx.timestamps tx.submitterId

theorem normalizeAll_eq_ok {hashes lowered : List String} :
    normalizeAll hashes = .ok lowered ↔
      (∀ h ∈ hashes, HashText.wellFormed h = true) ∧ hashes.map HashText.lower = lowered := by
  refine mapM_eq_ok fun hash h => ?_
  cases hn : HashText.normalize? hash with
  | some t =>
    rw [HashText.normalize?_eq_some] at hn
    simp [hn.1, hn.2]
  | none =>
    unfold HashText.normalize? at hn
    split at hn
    · cases hn
    · next hw => simp [hw]

/-- Hashes are refused for one of them that is malformed. -/
theorem exists_malformed_of_normalizeAll {hashes : List String} {e : StoreError}
    (h : normalizeAll hashes = .error e) :
    ∃ hash ∈ hashes, HashText.wellFormed hash = false ∧ e = .malformedHash hash := by
  obtain ⟨hash, hmem, hfails⟩ := exists_of_mapM_eq_error h
  by_cases hw : HashText.wellFormed hash = true
  · rw [HashText.normalize?, if_pos hw] at hfails
    cases hfails
  · rw [HashText.normalize?, if_neg hw] at hfails
    exact ⟨hash, hmem, Bool.eq_false_iff.mpr hw, (Except.error.inj hfails).symm⟩

theorem storedHash_eq_ok {tx : BatchTransaction} {h : String} :
    storedHash tx = .ok h ↔ HashesWellFormed tx ∧ hashOf tx = h := by
  unfold storedHash
  cases hn : normalizeAll tx.imageHashes with
  | ok hashes =>
    obtain ⟨hw, rfl⟩ := normalizeAll_eq_ok.mp hn
    have hw' : HashesWellFormed tx := hw
    simp [hw', hashOf, lowerHashes]
  | error e =>
    have hw : ¬ HashesWellFormed tx := fun hw => by
      rw [normalizeAll_eq_ok.mpr ⟨hw, rfl⟩] at hn
      cases hn
    simp [hw]

theorem mapM_storedHash_eq_ok {txs : List BatchTransaction} {hashes : List String} :
    txs.mapM storedHash = .ok hashes ↔
      (∀ tx ∈ txs, HashesWellFormed tx) ∧ txs.map hashOf = hashes :=
  mapM_eq_ok fun _ _ => storedHash_eq_ok

theorem insertImage_eq_ok {s t : Store} {row : ImageRecord} :
    s.insertImage row = .ok t ↔ row.timestamp ≠ .nan ∧
      (∀ r ∈ s.images, r.imageHash ≠ row.imageHash) ∧
      { s with images := s.images ++ [row] } = t := by
  unfold insertImage
  split_ifs with hnan hany
  · simp [hnan]
  · simp only [List.any_eq_true, decide_eq_true_eq] at hany
    obtain ⟨r, hr, he⟩ := hany
    simp only [false_iff]
    exact fun h => h.2.1 r hr he
  · simp only [List.any_eq_true, decide_eq_true_eq, not_exists, not_and] at hany
    simp only [Except.ok.injEq, ne_eq, hnan, not_false_eq_true, true_and]
    exact ⟨fun h => ⟨hany, h⟩, fun h => h.2⟩

/-- Records are added together when their times are numbers and no hash is there twice. -/
theorem insertImages_eq_ok {s t : Store} {rows : List ImageRecord} :
    rows.foldlM insertImage s = .ok t ↔ (∀ r ∈ rows, r.timestamp ≠ .nan) ∧
      (rows.map (·.imageHash)).Nodup ∧
      (∀ r ∈ s.images, ∀ r' ∈ rows, r.imageHash ≠ r'.imageHash) ∧
      { s with images := s.images ++ rows } = t := by
  induction rows generalizing s with
  | nil => simp [pure, Except.pure]
  | cons row rest ih =>
    rw [List.foldlM_cons]
    cases hrow : s.insertImage row with
    | error e =>
      simp only [bind, Except.bind, reduceCtorEq, false_iff]
      intro hparts
      obtain ⟨hnum, -, hnew, -⟩ := hparts
      have hok := insertImage_eq_ok.mpr ⟨hnum row List.mem_cons_self,
        fun r hr => hnew r hr row List.mem_cons_self, rfl⟩
      rw [hok] at hrow
      cases hrow
    | ok u =>
      obtain ⟨hnum, hnew, rfl⟩ := insertImage_eq_ok.mp hrow
      change rest.foldlM insertImage _ = Except.ok t ↔ _
      rw [ih]
      simp only [List.mem_cons, forall_eq_or_imp, List.map_cons, List.nodup_cons, List.mem_map,
        List.mem_append, List.append_assoc, List.singleton_append, List.not_mem_nil, or_false]
      constructor
      · intro hparts
        obtain ⟨hnums, hnodup, hfresh, rfl⟩ := hparts
        refine ⟨⟨hnum, hnums⟩, ⟨?_, hnodup⟩, ?_, rfl⟩
        · intro hparts
          obtain ⟨r, hr, he⟩ := hparts
          exact hfresh row (Or.inr rfl) r hr he.symm
        · exact fun r hr => ⟨hnew r hr, fun r' hr' => hfresh r (Or.inl hr) r' hr'⟩
      · intro hparts
        obtain ⟨⟨-, hnums⟩, ⟨hrow', hnodup⟩, hfresh, rfl⟩ := hparts
        refine ⟨hnums, hnodup, ?_, rfl⟩
        intro r hr r' hr'
        rcases hr with hr | rfl
        · exact (hfresh r hr).2 r' hr'
        · exact fun he => hrow' ⟨r', hr', he.symm⟩

end Store

/-- A stored transaction with the tree over its hashes. All rows of the transaction follow from it.
-/
structure Entry where
  txId : Nat
  blockHeight : Nat
  batch : BatchTransaction
  tree : Option Merkle.Tree
  wellFormed : Store.HashesWellFormed batch
  tree_eq : Store.treeOf (Store.lowerHashes batch) = .ok tree

namespace Entry

def hashes (e : Entry) : List String := Store.lowerHashes e.batch

def row (e : Entry) : LedgerTransaction where
  txId := e.txId
  txHash := Store.hashOf e.batch
  blockHeight := e.blockHeight
  submitterId := e.batch.submitterId
  batchSize := e.hashes.length
  signature := e.batch.signature
  merkleRoot := e.tree.map (·.root)
  treeDepth := e.tree.map (·.depth)

def images (e : Entry) : List ImageRecord :=
  e.hashes.mapIdx fun i hash => Store.imageRow e.blockHeight e.txId e.batch i hash

def proofs (e : Entry) : List StoredProof :=
  match e.tree with
  | some tree => tree.proofs.map (Store.proofRow e.txId)
  | none => []

@[simp] theorem map_imageHash_images (e : Entry) : e.images.map (·.imageHash) = e.hashes := by
  refine List.ext_getElem (by simp [images]) fun i _ _ => ?_
  simp [images, Store.imageRow]

theorem imageHash_mem_hashes {e : Entry} {r : ImageRecord} (h : r ∈ e.images) :
    r.imageHash ∈ e.hashes :=
  e.map_imageHash_images ▸ List.mem_map_of_mem h

theorem txId_of_mem_images {e : Entry} {r : ImageRecord} (h : r ∈ e.images) :
    r.txId = e.txId ∧ r.blockHeight = e.blockHeight := by
  obtain ⟨i, hi, rfl⟩ := List.mem_mapIdx.mp h
  exact ⟨rfl, rfl⟩

theorem txId_of_mem_proofs {e : Entry} {r : StoredProof} (h : r ∈ e.proofs) :
    r.txId = e.txId := by
  unfold proofs at h
  split at h
  · obtain ⟨p, -, rfl⟩ := List.mem_map.mp h
    rfl
  · cases h

/-- The hashes of a stored transaction are normal forms. -/
theorem lowercase_of_mem_hashes {e : Entry} {h : String} (hh : h ∈ e.hashes) :
    HashText.Lowercase h := by
  obtain ⟨g, hg, rfl⟩ := List.mem_map.mp hh
  rw [← HashText.normalize?_self_iff]
  exact HashText.normalize?_of_normalize?
    (HashText.normalize?_eq_some.mpr ⟨e.wellFormed g hg, rfl⟩)

end Entry

namespace Store

/-- The tables with the rows of some entries added. -/
def addEntries (s : Store) (entries : List Entry) : Store :=
  { s with
    transactions := s.transactions ++ entries.map Entry.row
    images := s.images ++ entries.flatMap Entry.images
    proofs := s.proofs ++ entries.flatMap Entry.proofs }

@[simp] theorem addEntries_nil (s : Store) : s.addEntries [] = s := by
  simp [addEntries]

theorem addEntries_append (s : Store) (a b : List Entry) :
    s.addEntries (a ++ b) = (s.addEntries a).addEntries b := by
  simp [addEntries]

/-- Whether an entry's rows can be added: its hash and its records are new, and its times are
numbers. -/
structure Admits (s : Store) (e : Entry) : Prop where
  txId_eq : e.txId = s.transactions.length + 1
  txHash_new : ∀ row ∈ s.transactions, row.txHash ≠ hashOf e.batch
  numbers : ∀ r ∈ e.images, r.timestamp ≠ .nan
  nodup : e.hashes.Nodup
  images_new : ∀ r ∈ s.images, r.imageHash ∉ e.hashes

/-- A transaction is added as an entry that the tables admit. -/
theorem insertTransaction_eq_ok {s t : Store} {height txId : Nat} {tx : BatchTransaction} :
    s.insertTransaction height tx (hashOf tx) = .ok (txId, t) ↔
      ∃ e : Entry, e.batch = tx ∧ e.blockHeight = height ∧ e.txId = txId ∧ s.Admits e ∧
        s.addEntries [e] = t := by
  unfold insertTransaction
  simp only [bind_eq_ok, normalizeAll_eq_ok]
  constructor
  · intro hparts
    obtain ⟨_, ⟨hw, rfl⟩, tree, htree, h⟩ := hparts
    split at h
    · simp [bind, Except.bind, throw, throwThe, MonadExceptOf.throw] at h
    · next hnew =>
      obtain ⟨u, hu, h⟩ := bind_eq_ok.mp h
      obtain ⟨hnum, hnodup, hfresh, rfl⟩ := insertImages_eq_ok.mp hu
      obtain ⟨rfl, rfl⟩ := Prod.mk.inj (Except.ok.inj h)
      let e : Entry := ⟨s.transactions.length + 1, height, tx, tree, hw, htree⟩
      have hhashes : e.images.map (·.imageHash) = e.hashes := e.map_imageHash_images
      refine ⟨e, rfl, rfl, rfl, ⟨rfl, fun row hrow he => hnew ?_, hnum, ?_, ?_⟩, ?_⟩
      · exact List.any_eq_true.mpr ⟨row, hrow, decide_eq_true he⟩
      · exact hhashes ▸ hnodup
      · intro r hr hmem
        rw [← hhashes, List.mem_map] at hmem
        obtain ⟨r', hr', he⟩ := hmem
        exact hfresh r hr r' hr' he.symm
      · simp only [addEntries, List.map_cons, List.map_nil, List.flatMap_cons, List.flatMap_nil,
          List.append_nil]
        rfl
  · intro hparts
    obtain ⟨e, rfl, rfl, rfl, ha, rfl⟩ := hparts
    refine ⟨_, ⟨e.wellFormed, rfl⟩, e.tree, e.tree_eq, ?_⟩
    rw [← ha.txId_eq, if_neg, bind_eq_ok]
    · refine ⟨{ s with
          transactions := s.transactions ++ [e.row]
          images := s.images ++ e.images }, insertImages_eq_ok.mpr ⟨ha.numbers, ?_, ?_, rfl⟩, ?_⟩
      · exact e.map_imageHash_images ▸ ha.nodup
      · exact fun r hr r' hr' he => ha.images_new r hr (he ▸ Entry.imageHash_mem_hashes hr')
      · simp only [addEntries, List.map_cons, List.map_nil, List.flatMap_cons, List.flatMap_nil,
          List.append_nil]
        rfl
    · simp only [List.any_eq_true, decide_eq_true_eq, not_exists, not_and]
      exact ha.txHash_new

/-- Whether entries can be added one after another. -/
def AdmitsAll (s : Store) : List Entry → Prop
  | [] => True
  | e :: rest => s.Admits e ∧ (s.addEntries [e]).AdmitsAll rest

/-- Transactions are added as entries that the tables admit in turn. -/
theorem insertTransactions_eq_ok {s t : Store} {height : Nat} {txs : List BatchTransaction}
    {txIds : List Nat} :
    s.insertTransactions height (txs.map fun tx => (tx, hashOf tx)) = .ok (txIds, t) ↔
      ∃ entries : List Entry, entries.map (·.batch) = txs ∧
        (∀ e ∈ entries, e.blockHeight = height) ∧ entries.map (·.txId) = txIds ∧
        s.AdmitsAll entries ∧ s.addEntries entries = t := by
  induction txs generalizing s t txIds with
  | nil =>
    simp only [List.map_nil, insertTransactions, Except.ok.injEq, Prod.mk.injEq]
    constructor
    · intro hparts
      obtain ⟨rfl, rfl⟩ := hparts
      exact ⟨[], rfl, by simp, rfl, trivial, s.addEntries_nil⟩
    · intro hparts
      obtain ⟨entries, hbatch, -, rfl, -, rfl⟩ := hparts
      obtain rfl := List.map_eq_nil_iff.mp hbatch
      exact ⟨rfl, s.addEntries_nil.symm⟩
  | cons tx rest ih =>
    simp only [List.map_cons, insertTransactions, bind_eq_ok, Prod.exists]
    constructor
    · intro hparts
      obtain ⟨txId, u, hfirst, ids, v, hrest, h⟩ := hparts
      obtain ⟨e, rfl, rfl, rfl, hentry, rfl⟩ := insertTransaction_eq_ok.mp hfirst
      obtain ⟨entries, rfl, hheights, rfl, hadmits, rfl⟩ := ih.mp hrest
      obtain ⟨rfl, rfl⟩ := Prod.mk.inj (Except.ok.inj h)
      refine ⟨e :: entries, rfl, ?_, rfl, ⟨hentry, hadmits⟩, ?_⟩
      · exact List.forall_mem_cons.mpr ⟨rfl, hheights⟩
      · exact s.addEntries_append [e] entries
    · intro hparts
      obtain ⟨entries, hbatch, hheights, rfl, hadmits, rfl⟩ := hparts
      obtain ⟨e, entries, rfl, rfl, rfl⟩ := List.map_eq_cons_iff.mp hbatch
      have hheight : e.blockHeight = height := hheights e List.mem_cons_self
      refine ⟨e.txId, s.addEntries [e], ?_, entries.map (·.txId),
        (s.addEntries [e]).addEntries entries, ?_, ?_⟩
      · exact insertTransaction_eq_ok.mpr ⟨e, rfl, hheight, rfl, hadmits.1, rfl⟩
      · exact ih.mpr ⟨entries, rfl, fun f hf => hheights f (List.mem_cons_of_mem e hf), rfl,
          hadmits.2, rfl⟩
      · rw [← addEntries_append]
        rfl

def addBlock (s : Store) (b : Block) : Store := { s with blocks := s.blocks ++ [b] }

/-- The block that a proposal becomes on top of the chain. -/
def nextBlock (s : Store) (p : Proposal) : Block where
  height := s.expected.1
  blockHash := blockHash p.height p.previousHash p.timestamp (p.transactions.map hashOf)
    p.validatorId
  previousHash := p.previousHash
  timestamp := p.timestamp
  validatorId := p.validatorId
  transactionCount := p.transactions.length
  signature := p.signature

/-- Whether a proposal can be stored, with the entries of its transactions. -/
structure Accepts (s : Store) (p : Proposal) (entries : List Entry) : Prop where
  hashes_agree : Text.join "," (Text.sort p.transactionHashes) =
    Text.join "," (Text.sort (p.transactions.map hashOf))
  height_eq : p.height = Number.ofNat s.expected.1
  height_le : s.expected.1 ≤ Number.wholeLimit
  previousHash_eq : p.previousHash = s.expected.2
  timestamp_number : p.timestamp ≠ .nan
  blockHash_new : ∀ b ∈ s.blocks, b.blockHash ≠ (s.nextBlock p).blockHash
  batches : entries.map (·.batch) = p.transactions
  heights : ∀ e ∈ entries, e.blockHeight = s.expected.1
  admitted : (s.addBlock (s.nextBlock p)).AdmitsAll entries

/-- The tables after a proposal is stored, before the work that belongs to it. -/
def extend (s : Store) (nodeId : String) (p : Proposal) (entries : List Entry) : Store :=
  ((s.addBlock (s.nextBlock p)).addEntries entries).writeNodeState nodeId p.height
    (s.nextBlock p).blockHash (some p.timestamp)

/-- Up to the last whole number that is kept, heights are counted as they are. -/
theorem expectedHeight_eq {s : Store} (h : s.expected.1 ≤ Number.wholeLimit) :
    s.expectedHeight = Number.ofNat s.expected.1 := by
  unfold expected at h ⊢
  unfold expectedHeight
  cases hlast : s.latestBlock with
  | none => rfl
  | some b =>
    rw [hlast] at h
    exact Number.add_ofNat_one h

theorem insertBlock_eq_ok {s t : Store} {p : Proposal} {height : Nat} {hash : String} {b : Block} :
    s.insertBlock height hash p = .ok (b, t) ↔ p.timestamp ≠ .nan ∧ height ≤ Number.wholeLimit ∧
      (∀ b' ∈ s.blocks, b'.blockHash ≠ hash) ∧
      b = ⟨height, hash, p.previousHash, p.timestamp, p.validatorId, p.transactions.length,
        p.signature⟩ ∧ s.addBlock b = t := by
  unfold insertBlock
  split_ifs with hnan hheight hany
  · simp [hnan]
  · simp only [false_iff]
    exact fun h => Nat.not_le_of_lt hheight h.2.1
  · simp only [List.any_eq_true, decide_eq_true_eq] at hany
    obtain ⟨b', hb', he⟩ := hany
    simp only [false_iff]
    exact fun h => h.2.2.1 b' hb' he
  · simp only [List.any_eq_true, decide_eq_true_eq, not_exists, not_and] at hany
    constructor
    · intro h
      obtain ⟨rfl, rfl⟩ := Prod.mk.inj (Except.ok.inj h)
      exact ⟨hnan, Nat.le_of_not_lt hheight, hany, rfl, rfl⟩
    · intro hparts
      obtain ⟨-, -, -, rfl, rfl⟩ := hparts
      rfl

/-- A proposal is stored as the next block with one entry for each transaction, unless it is
refused or the work that belongs to it fails. -/
theorem storeBlock_eq_ok {s t : Store} {nodeId : String} {p : Proposal} {after : AfterBlock}
    {stored : StoredBlock} :
    s.storeBlock nodeId p after = .ok (stored, t) ↔ ∃ entries : List Entry, s.Accepts p entries ∧
      stored = ⟨s.nextBlock p, entries.map (·.txId)⟩ ∧
      after (s.extend nodeId p entries) stored = .ok t := by
  unfold storeBlock
  simp only [bind_eq_ok, mapM_storedHash_eq_ok]
  have hzip : p.transactions.zip (p.transactions.map hashOf) =
      p.transactions.map fun tx => (tx, hashOf tx) := by
    simp [List.zip_eq_zipWith, List.zipWith_map_right, List.zipWith_self]
  constructor
  · intro hparts
    obtain ⟨_, ⟨hw, rfl⟩, h⟩ := hparts
    split at h
    · simp [bind, Except.bind, throw, throwThe, MonadExceptOf.throw] at h
    next hagree =>
    split at h
    · simp [bind, Except.bind, throw, throwThe, MonadExceptOf.throw] at h
    next hplace =>
    rw [not_or, not_not, not_not] at hplace
    rw [hzip] at h
    obtain ⟨⟨b, u⟩, hblock, h⟩ := bind_eq_ok.mp h
    obtain ⟨hnum, hheight, hnew, rfl, rfl⟩ := insertBlock_eq_ok.mp hblock
    obtain ⟨⟨txIds, v⟩, htxs, h⟩ := bind_eq_ok.mp h
    obtain ⟨entries, hbatch, hheights, rfl, hadmits, rfl⟩ := insertTransactions_eq_ok.mp htxs
    obtain ⟨w, hafter, h⟩ := bind_eq_ok.mp h
    obtain ⟨rfl, rfl⟩ := Prod.mk.inj (Except.ok.inj h)
    exact ⟨entries, ⟨not_not.mp hagree, hplace.1.trans (expectedHeight_eq hheight), hheight,
      hplace.2, hnum, hnew, hbatch, hheights, hadmits⟩, rfl, hafter⟩
  · intro hparts
    obtain ⟨entries, ha, rfl, hafter⟩ := hparts
    refine ⟨_, ⟨fun tx htx => ?_, rfl⟩, ?_⟩
    · rw [← ha.batches] at htx
      obtain ⟨e, -, rfl⟩ := List.mem_map.mp htx
      exact e.wellFormed
    · have hheight := ha.height_eq.trans (expectedHeight_eq ha.height_le).symm
      rw [if_neg (not_not.mpr ha.hashes_agree), if_neg (by simp [hheight, ha.previousHash_eq]),
        hzip]
      have hblock : s.insertBlock s.expected.1 (s.nextBlock p).blockHash p =
          .ok (s.nextBlock p, s.addBlock (s.nextBlock p)) :=
        insertBlock_eq_ok.mpr ⟨ha.timestamp_number, ha.height_le, ha.blockHash_new, rfl, rfl⟩
      have htxs := insertTransactions_eq_ok.mpr
        ⟨entries, ha.batches, ha.heights, rfl, ha.admitted, rfl⟩
      exact bind_eq_ok.mpr ⟨_, hblock, bind_eq_ok.mpr ⟨_, htxs, bind_eq_ok.mpr ⟨t, hafter, rfl⟩⟩⟩

end Store

end ImageLedger
