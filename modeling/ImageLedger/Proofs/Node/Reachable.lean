import ImageLedger.Proofs.Merkle.Existence
import ImageLedger.Proofs.Node.Changes

namespace ImageLedger.Node

/-- The operations that bring hashes onto the ledger: a direct submission and a batching cycle. -/
inductive Commits (network : Consensus.Network) : {α : Type} → Operation α → Prop
  | submit (input : SubmitInput) : Commits network (Node.submit network input)
  | batchingCycle (now : Option Number) : Commits network (Node.batchingCycle network now)

/-- What a node is asked to do. A proposal to be stored may be any at all, and what is done with it
in the same transaction may fail or change submissions. -/
inductive Task : Activity.Some Node → Prop
  | storeBlock (p : Proposal) (after : Store.AfterBlock) :
      after.KeepsLedger → Task ⟨_, (Node.storeBlock p after).run⟩
  | createGenesis (validatorId : Option String) (time : Option Number) :
      Task ⟨_, (Node.createGenesis validatorId time).run⟩
  | submit (network : Consensus.Network) (input : SubmitInput) :
      Task ⟨_, (Node.submit network input).run⟩
  | batchingCycle (network : Consensus.Network) (now : Option Number) :
      Task ⟨_, (Node.batchingCycle network now).run⟩
  | validationCycle (replies : Nat → Authority.Reply) (now limit : Option Number) :
      Task ⟨_, (Node.validationCycle replies now limit).run⟩
  | stage (d : Draft) : Task ⟨_, (Node.stage d).run⟩
  | intake (d : Draft) : Task ⟨_, (Node.intake d).run⟩
  | clock (milliseconds : Int) :
      Task ⟨_, Activity.change fun n : Node => n.advance milliseconds⟩

/-- A state that the node reaches from the first one. -/
def ReachableFrom (start n : Node) : Prop :=
  ∃ pool : List (Activity.Some Node), Activity.Reach Task start pool n

/-- The scope of tasks: they do anything, but leave the ledger to the blocks that they store. -/
def Scope.ledger : Scope := ⟨Store.AfterBlock.KeepsLedger, fun _ => True, True, True⟩

theorem Task.changes {a : Activity.Some Node} (h : Task a) : a.2.Within (Change .ledger) := by
  cases h with
  | storeBlock p after hafter => exact storeBlock_changes p hafter
  | createGenesis validatorId time =>
    exact createGenesis_changes Store.nothingAfter_keepsLedger validatorId time
  | submit network input => exact submit_changes Store.nothingAfter_keepsLedger network input
  | batchingCycle network now =>
    exact batchingCycle_changes trivial Store.markBatched_keepsLedger network now
  | validationCycle replies now limit => exact validationCycle_changes trivial replies now limit
  | stage d => exact stage_changes trivial
  | intake d => exact intake_changes trivial
  | clock milliseconds => exact Activity.Within.atomic fun n => .beside rfl rfl rfl rfl

/-- A step leaves the ledger or adds a block to it. -/
theorem Change.ledgerStep {n m : Node} (h : n.Change .ledger m) :
    n.store.LedgerStep m.store := by
  cases h with
  | beside _ _ hstore _ => exact Or.inl (hstore ▸ n.store.sameLedger_refl)
  | block hafter hstored => exact Store.LedgerStep.storeBlock hafter hstored
  | reject | record | stage => exact Or.inl rfl

/-- Every step of every task leaves the ledger or adds a block to it. -/
theorem Task.within {a : Activity.Some Node} (h : Task a) :
    a.2.Within fun n m => n.store.LedgerStep m.store :=
  h.changes.mono fun _ _ => Change.ledgerStep

/-- The tables are sound in every state that is reached from empty ones. -/
theorem ReachableFrom.sound {start n : Node} (hempty : start.store = Store.empty)
    (h : ReachableFrom start n) : n.store.Sound := by
  obtain ⟨pool, hreach⟩ := h
  have hstart : start.store.Sound := hempty ▸ Store.sound_empty
  exact hreach.invariant (P := fun n => n.store.Sound) hstart (fun a ha => ha.within)
    fun n m hstep hn => hn.step hstep

/-- A node alone with empty tables. -/
def lone : Node where
  settings := ((Settings.read fun _ => none).run []).1
  sign := id
  clock := 0
  receipts := 0
  store := .empty
  cache := ⟨0, 0, [], 0, 0⟩
  engine := .single "lone"
  lock := ⟨[], 0⟩
  batching := .idle
  validation := .idle

/-- One image hash, spelt in capitals. -/
def loneBatch : BatchTransaction :=
  ⟨[String.ofList (List.replicate 64 'A')], [90], "lone", "", none, none, none, none⟩

def loneProposal : Proposal where
  height := 0
  previousHash := HashText.zero
  timestamp := 120
  validatorId := "lone"
  transactions := [loneBatch]
  transactionHashes := [Store.hashOf loneBatch]
  signature := ""

/-- What the hash is stored as: its small form, the root of its own tree. -/
def loneEntry : Entry where
  txId := 1
  blockHeight := 0
  batch := loneBatch
  tree :=
    let hash := String.ofList (List.replicate 64 'a')
    some ⟨hash, 0, [⟨hash, 0, []⟩]⟩
  wellFormed := by
    intro h hh
    obtain rfl := List.mem_singleton.mp hh
    decide
  tree_eq := by rfl

/-- The node once the hash is in its first block. -/
def founded : Node :=
  { lone with store := Store.empty.extend lone.settings.nodeId loneProposal [loneEntry] }

theorem accepts_loneProposal : Store.empty.Accepts loneProposal [loneEntry] where
  hashes_agree := rfl
  height_eq := rfl
  height_le := Nat.zero_le _
  previousHash_eq := rfl
  timestamp_number := by decide
  blockHash_new := by simp [Store.empty]
  batches := rfl
  heights := by
    intro e he
    obtain rfl := List.mem_singleton.mp he
    rfl
  admitted := by
    refine ⟨⟨rfl, ?_, ?_, ?_, ?_⟩, trivial⟩
    · simp [Store.addBlock, Store.empty]
    · intro r hr
      obtain rfl := List.mem_singleton.mp hr
      decide +kernel
    · exact by simp [Entry.hashes, Store.lowerHashes, loneEntry, loneBatch]
    · simp [Store.addBlock, Store.empty]

/-- A node alone gets to whatever its empty tables accept as their first block. -/
theorem reachableFrom_lone_extend {p : Proposal} {entries : List Entry}
    (h : Store.empty.Accepts p entries) :
    ReachableFrom lone
      { lone with store := Store.empty.extend lone.settings.nodeId p entries } := by
  have hstore : lone.store.storeBlock lone.settings.nodeId p Store.nothingAfter =
      .ok (⟨Store.empty.nextBlock p, entries.map (·.txId)⟩,
        Store.empty.extend lone.settings.nodeId p entries) :=
    Store.storeBlock_eq_ok.mpr ⟨entries, h, rfl, rfl⟩
  have hbegin : Activity.Reach Task lone
      [⟨_, (Node.storeBlock p Store.nothingAfter).run⟩] lone :=
    .begin _ (.storeBlock p _ Store.nothingAfter_keepsLedger) .start
  exact ⟨_, hbegin.run (storeBlock_run hstore)⟩

theorem reachableFrom_lone : ReachableFrom lone founded :=
  reachableFrom_lone_extend accepts_loneProposal

/-- Two hashes, the first one the parent of the second. -/
def derivedBatch : BatchTransaction where
  imageHashes := [String.ofList (List.replicate 64 'A'), String.ofList (List.replicate 64 'B')]
  timestamps := [90, 90]
  submitterId := "lone"
  signature := ""
  modificationLevels := none
  parentImageHashes := some [none, some (String.ofList (List.replicate 64 'A'))]
  gpsHashes := none
  ownerHashes := none

def derivedProposal : Proposal where
  height := 0
  previousHash := HashText.zero
  timestamp := 120
  validatorId := "lone"
  transactions := [derivedBatch]
  transactionHashes := [Store.hashOf derivedBatch]
  signature := ""

theorem exists_tree_derivedBatch :
    ∃ tree, Merkle.build (Store.lowerHashes derivedBatch) = .ok tree :=
  Merkle.exists_build (by decide) (by decide) (by decide)

def derivedEntry : Entry where
  txId := 1
  blockHeight := 0
  batch := derivedBatch
  tree :=
    match Merkle.build (Store.lowerHashes derivedBatch) with
    | .ok tree => some tree
    | .error _ => none
  wellFormed := by
    unfold Store.HashesWellFormed
    decide
  tree_eq := by
    obtain ⟨tree, htree⟩ := exists_tree_derivedBatch
    have hne : ¬ (Store.lowerHashes derivedBatch).isEmpty = true := by decide
    rw [Store.treeOf, if_neg hne, htree]

/-- A node alone with both hashes in its first block. -/
def derived : Node :=
  { lone with store := Store.empty.extend lone.settings.nodeId derivedProposal [derivedEntry] }

theorem accepts_derivedProposal : Store.empty.Accepts derivedProposal [derivedEntry] where
  hashes_agree := rfl
  height_eq := rfl
  height_le := Nat.zero_le _
  previousHash_eq := rfl
  timestamp_number := by decide
  blockHash_new := by simp [Store.empty]
  batches := rfl
  heights := by
    intro e he
    obtain rfl := List.mem_singleton.mp he
    rfl
  admitted := by
    refine ⟨⟨rfl, ?_, ?_, ?_, ?_⟩, trivial⟩
    · simp [Store.addBlock, Store.empty]
    · decide +kernel
    · decide +kernel
    · simp [Store.addBlock, Store.empty]

theorem reachableFrom_lone_derived : ReachableFrom lone derived :=
  reachableFrom_lone_extend accepts_derivedProposal

end ImageLedger.Node
