import ImageLedger.Proofs.Chain.SigningPayload
import ImageLedger.Proofs.Consensus.Engine
import ImageLedger.Proofs.Node.Reachable
import ImageLedger.Proofs.Text.Order

namespace ImageLedger

/-- A proposal that declares the hashes of its transactions, in any order. -/
def Proposal.DeclaresOwn (p : Proposal) : Prop :=
  p.transactionHashes.Perm (p.transactions.map Store.hashOf)

/-- An error about the image hashes or the declared hashes of a proposal. -/
def StoreError.AboutHashes : StoreError → Prop
  | malformedHash _ => True
  | hashesDisagree => True
  | _ => False

namespace Store

variable {s t : Store} {nodeId : String} {p : Proposal} {after : AfterBlock} {stored : StoredBlock}
  {error : StoreError}

theorem wellFormed_hashOf (tx : BatchTransaction) : HashText.wellFormed (hashOf tx) = true :=
  HashText.wellFormed_toHex _

theorem length_sort (texts : List String) : (Text.sort texts).length = texts.length :=
  List.length_mergeSort texts

/-- What is stored declares the hashes of its transactions when it declares as many. They are
compared as sorted texts joined by commas, in which a declared text with commas stands for several
hashes and an empty one for none. -/
theorem declaresOwn_iff_length (h : s.storeBlock nodeId p after = .ok (stored, t)) :
    p.DeclaresOwn ↔ p.transactionHashes.length = p.transactions.length := by
  obtain ⟨entries, haccepts, -⟩ := storeBlock_eq_ok.mp h
  have hfree : ∀ hash ∈ Text.sort (p.transactions.map hashOf), ',' ∉ hash.toList := by
    intro hash hmem
    obtain ⟨tx, -, rfl⟩ := List.mem_map.mp (List.mem_mergeSort.mp hmem)
    exact HashText.comma_not_mem (wellFormed_hashOf tx)
  have htold := Text.eq_iff_length_of_join_eq (a := ',') haccepts.hashes_agree hfree
  rw [length_sort, length_sort, List.length_map] at htold
  exact Text.sort_eq_sort_iff.symm.trans htold

section Errors

theorem not_aboutHashes_of_insertImages {rows : List ImageRecord}
    (h : rows.foldlM insertImage s = .error error) : ¬ error.AboutHashes := by
  induction rows generalizing s with
  | nil => cases h
  | cons row rest ih =>
    rw [List.foldlM_cons] at h
    rcases bind_eq_error.mp h with hrow | ⟨u, -, hrest⟩
    · unfold insertImage at hrow
      split_ifs at hrow
      all_goals
        obtain rfl := Except.error.inj hrow
        exact id
    · exact ih hrest

theorem not_aboutHashes_of_treeOf {hashes : List String} (h : treeOf hashes = .error error) :
    ¬ error.AboutHashes := by
  unfold treeOf at h
  split at h
  · cases h
  · split at h
    · cases h
    · obtain rfl := Except.error.inj h
      exact id

theorem not_aboutHashes_of_insertTransaction {height : Nat} {tx : BatchTransaction} {hash : String}
    (hwell : HashesWellFormed tx) (h : s.insertTransaction height tx hash = .error error) :
    ¬ error.AboutHashes := by
  rcases bind_eq_error.mp h with hnormal | ⟨hashes, -, h⟩
  · rw [normalizeAll_eq_ok.mpr ⟨hwell, rfl⟩] at hnormal
    cases hnormal
  rcases bind_eq_error.mp h with htree | ⟨tree, -, h⟩
  · exact not_aboutHashes_of_treeOf htree
  dsimp only at h
  split at h
  · obtain rfl := Except.error.inj h
    exact id
  · rcases bind_eq_error.mp h with himages | ⟨u, -, h⟩
    · exact not_aboutHashes_of_insertImages himages
    · cases h

theorem not_aboutHashes_of_insertTransactions {height : Nat}
    {txs : List (BatchTransaction × String)} (hwell : ∀ tx ∈ txs, HashesWellFormed tx.1)
    (h : s.insertTransactions height txs = .error error) : ¬ error.AboutHashes := by
  induction txs generalizing s with
  | nil => cases h
  | cons tx rest ih =>
    obtain ⟨htx, hrest⟩ := List.forall_mem_cons.mp hwell
    rcases bind_eq_error.mp h with hfirst | ⟨r, -, h⟩
    · exact not_aboutHashes_of_insertTransaction htx hfirst
    rcases bind_eq_error.mp h with hlater | ⟨r, -, h⟩
    · exact ih hrest hlater
    · cases h

theorem not_aboutHashes_of_insertBlock {height : Nat} {hash : String}
    (h : s.insertBlock height hash p = .error error) : ¬ error.AboutHashes := by
  unfold insertBlock at h
  split_ifs at h
  all_goals
    obtain rfl := Except.error.inj h
    exact id

end Errors

end Store

namespace Proposal

/-- A proposal with well-formed image hashes that declares its own hashes is not refused for
hashes, unless by the work that belongs to it. -/
theorem DeclaresOwn.exists_after {s : Store} {nodeId : String} {p : Proposal}
    {after : Store.AfterBlock} {error : StoreError} (hown : p.DeclaresOwn)
    (hwell : ∀ tx ∈ p.transactions, Store.HashesWellFormed tx)
    (h : s.storeBlock nodeId p after = .error error) (habout : error.AboutHashes) :
    ∃ u stored, after u stored = .error error := by
  have hhashes : p.transactions.mapM Store.storedHash = .ok (p.transactions.map Store.hashOf) :=
    Store.mapM_storedHash_eq_ok.mpr ⟨hwell, rfl⟩
  rcases bind_eq_error.mp h with hfails | ⟨hashes, hok, h⟩
  · rw [hhashes] at hfails
    cases hfails
  obtain rfl := Except.ok.inj (hhashes.symm.trans hok)
  have hagree := congrArg (Text.join ",") (Text.sort_eq_sort_iff.mpr hown)
  dsimp only at h
  rw [if_neg (not_not.mpr hagree)] at h
  split at h
  · obtain rfl := Except.error.inj h
    exact habout.elim
  rcases bind_eq_error.mp h with hblock | ⟨b, -, h⟩
  · exact absurd habout (Store.not_aboutHashes_of_insertBlock hblock)
  rcases bind_eq_error.mp h with htxs | ⟨r, -, h⟩
  · refine absurd habout (Store.not_aboutHashes_of_insertTransactions (fun tx htx => ?_) htxs)
    exact hwell tx.1 (List.of_mem_zip htx).1
  rcases bind_eq_error.mp h with hafter | ⟨u, -, h⟩
  · exact ⟨_, _, hafter⟩
  · cases h

theorem declaresOwn_buildProposal (sign : String → String) (validatorId : String)
    (tip : Option Tip) (txs : List BatchTransaction) (time : Number) :
    (Consensus.buildProposal sign validatorId tip txs time).DeclaresOwn :=
  List.Perm.refl _

/-- What is stored declares just the hashes of its transactions exactly when it declares as many as
it has transactions. What an engine proposes declares them, and no ledger refuses it for hashes. -/
theorem declared_hashes (s : Store) (nodeId : String) (p : Proposal) (after : Store.AfterBlock) :
    (∀ (t : Store) (stored : StoredBlock), s.storeBlock nodeId p after = .ok (stored, t) →
      (p.DeclaresOwn ↔ p.transactionHashes.length = p.transactions.length)) ∧
    ∀ (e : Consensus.Engine) (sign : String → String) (network : Consensus.Network)
        (tip : Option Tip) (txs : List BatchTransaction) (time : Number),
      (e.propose sign network tip txs time).1 = .ok (some p) →
      (∀ tx ∈ txs, Store.HashesWellFormed tx) →
      p.transactions = txs ∧ p.DeclaresOwn ∧
        ∀ error : StoreError, s.storeBlock nodeId p after = .error error → error.AboutHashes →
          ∃ u stored, after u stored = .error error := by
  constructor
  · intro t stored h
    exact Store.declaresOwn_iff_length h
  · intro e sign network tip txs time h hwell
    have hp : p = Consensus.buildProposal sign e.validatorId tip txs time := by
      rcases e.propose_cases sign network tip txs time with hnone | hsome | ⟨_, _, _, _, hrefused⟩
      · cases hnone.symm.trans h
      · exact (Option.some.inj (Except.ok.inj (hsome.symm.trans h))).symm
      · cases hrefused.symm.trans h
    have hown := declaresOwn_buildProposal sign e.validatorId tip txs time
    rw [← hp] at hown
    have htxs : p.transactions = txs := congrArg transactions hp
    refine ⟨htxs, hown, fun error hfails habout => ?_⟩
    exact hown.exists_after (htxs ▸ hwell) hfails habout

/-- One image hash in capitals: its first block is stored, and a single node's proposal of it
declares its hash. -/
theorem declared_hashes_lone :
    Node.loneProposal.DeclaresOwn ∧
      ∃ p, (Consensus.Engine.single "lone").propose id .silent none [Node.loneBatch] 120 =
          (.ok (some p), .single "lone") ∧
        p.DeclaresOwn ∧ ∀ (s : Store) (error : StoreError),
          s.storeBlock "lone" p Store.nothingAfter = .error error → ¬ error.AboutHashes := by
  have hstored : Store.empty.storeBlock "lone" Node.loneProposal Store.nothingAfter =
      .ok (⟨Store.empty.nextBlock Node.loneProposal, [1]⟩,
        Store.empty.extend "lone" Node.loneProposal [Node.loneEntry]) :=
    Store.storeBlock_eq_ok.mpr ⟨[Node.loneEntry], Node.accepts_loneProposal, rfl, rfl⟩
  have hproposed : (Consensus.Engine.single "lone").propose id .silent none [Node.loneBatch] 120 =
      (.ok (some (Consensus.buildProposal id "lone" none [Node.loneBatch] 120)),
        .single "lone") := rfl
  have hwell : ∀ tx ∈ [Node.loneBatch], Store.HashesWellFormed tx := by
    intro tx htx
    obtain rfl := List.mem_singleton.mp htx
    exact Node.loneEntry.wellFormed
  have hdeclares := fun s : Store => (declared_hashes s "lone" _ Store.nothingAfter).2
    (.single "lone") id .silent none _ 120 (congrArg Prod.fst hproposed) hwell
  refine ⟨?_, _, hproposed, (hdeclares .empty).2.1, fun s error hfails habout => ?_⟩
  · exact ((declared_hashes .empty "lone" _ Store.nothingAfter).1 _ _ hstored).mpr rfl
  · obtain ⟨u, stored, hnothing⟩ := (hdeclares s).2.2 error hfails habout
    cases hnothing

/-- A first block without transactions that declares one hash, which is empty. -/
def nameless : Proposal where
  height := 0
  previousHash := HashText.zero
  timestamp := 120
  validatorId := "v"
  transactions := []
  transactionHashes := [""]
  signature := ""

theorem storeBlock_nameless : ∃ stored t,
    Store.empty.storeBlock "v" nameless Store.nothingAfter = .ok (stored, t) := by
  refine ⟨_, _, Store.storeBlock_eq_ok.mpr ⟨[], ?_, rfl, rfl⟩⟩
  exact {
    hashes_agree := by simp [nameless, Text.sort, Text.join]
    height_eq := rfl
    height_le := Nat.zero_le _
    previousHash_eq := rfl
    timestamp_number := by decide
    blockHash_new := nofun
    batches := rfl
    heights := nofun
    admitted := trivial }

/-- A proposal is stored although it declares a hash that none of its transactions has. -/
theorem stored_with_foreign_hash :
    (∃ stored t, Store.empty.storeBlock "v" nameless Store.nothingAfter = .ok (stored, t)) ∧
      ¬ nameless.DeclaresOwn := by
  refine ⟨storeBlock_nameless, fun hown => ?_⟩
  have hlength := hown.length_eq
  cases hlength

end Proposal

end ImageLedger
