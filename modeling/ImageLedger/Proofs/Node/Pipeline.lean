import ImageLedger.Proofs.Node.BatchingCycle
import ImageLedger.Proofs.Node.Changes
import ImageLedger.Proofs.Node.ValidationCycle

namespace ImageLedger

/-- A cycle that has begun: the states that its steps found so far, and what is left of it. -/
structure CycleRun (α : Type) where
  seen : List Node
  rest : Activity Node (Except Fault α)

/-- Whether no cycle is under way. -/
def CycleRun.Over {α : Type} (slot : Option (CycleRun α)) : Prop :=
  ∀ run, slot = some run → ∃ result, run.rest = .done result

/-- A node and all that is under way on it. -/
structure Pipeline where
  node : Node
  batching : Option (CycleRun CycleResult)
  validation : Option (CycleRun (ValidationCounts × List Authority.Call))
  others : List (Activity.Some Node)
  /-- The transactions that batching cycles have stored. -/
  committed : List LedgerTransaction

namespace Pipeline

/-- What goes on beside the workers. -/
inductive Task : Activity.Some Node → Prop
  | submit (network : Consensus.Network) (input : SubmitInput) :
      Task ⟨_, (Node.submit network input).run⟩
  | createGenesis (validatorId : Option String) (time : Option Number) :
      Task ⟨_, (Node.createGenesis validatorId time).run⟩
  | stage (d : Draft) : Task ⟨_, (Node.stage d).run⟩
  | intake (d : Draft) : Task ⟨_, (Node.intake d).run⟩
  | clock (milliseconds : Int) :
      Task ⟨_, Activity.change fun n : Node => n.advance milliseconds⟩

/-- Something begins, or takes one step. -/
inductive Step : Pipeline → Pipeline → Prop
  | beginBatching {p : Pipeline} (network : Consensus.Network) (now : Option Number) :
      CycleRun.Over p.batching →
      Step p { p with batching := some ⟨[], (Node.batchingCycle network now).run⟩ }
  | beginValidation {p : Pipeline} (replies : Nat → Authority.Reply) (now limit : Option Number) :
      CycleRun.Over p.validation →
      Step p { p with validation := some ⟨[], (Node.validationCycle replies now limit).run⟩ }
  | beginOther {p : Pipeline} (a : Activity.Some Node) : Task a →
      Step p { p with others := a :: p.others }
  | batch {p : Pipeline} {run : CycleRun CycleResult}
      {rest : Activity Node (Except Fault CycleResult)} {n : Node} :
      p.batching = some run → run.rest.advance p.node = some (rest, n) →
      Step p { p with
        node := n
        batching := some ⟨run.seen ++ [p.node], rest⟩
        committed := p.committed ++
          n.store.transactions.drop p.node.store.transactions.length }
  | validate {p : Pipeline} {run : CycleRun (ValidationCounts × List Authority.Call)}
      {rest : Activity Node (Except Fault (ValidationCounts × List Authority.Call))} {n : Node} :
      p.validation = some run → run.rest.advance p.node = some (rest, n) →
      Step p { p with
        node := n
        validation := some ⟨run.seen ++ [p.node], rest⟩ }
  | other {p : Pipeline} {before after : List (Activity.Some Node)} {α : Type}
      {a b : Activity Node α} {n : Node} : p.others = before ++ ⟨α, a⟩ :: after →
      a.advance p.node = some (b, n) →
      Step p { p with
        node := n
        others := before ++ ⟨α, b⟩ :: after }

/-- What is reached from a node on which nothing is under way. -/
inductive Reach (start : Node) : Pipeline → Prop
  | start : Reach start ⟨start, none, none, [], []⟩
  | step {p q : Pipeline} : Reach start p → Step p q → Reach start q

/-- The batcher's cycle keeps to its moves as long as the others do. -/
def BatcherKeeps (run : CycleRun CycleResult) (n : Node) : Prop :=
  Operation.Guarded Node.BatcherRely Store.BatchMove
    (fun seen result s => Node.CycleEnd result seen s) (ExceptT.mk run.rest) run.seen n

/-- The validator's cycle keeps to its moves as long as the others do. -/
def ValidatorKeeps (run : CycleRun (ValidationCounts × List Authority.Call)) (n : Node) : Prop :=
  Operation.Guarded Node.ValidatorRely Store.ValidationMove (fun _ _ _ => True)
    (ExceptT.mk run.rest) run.seen n

/-- What holds all along: the tables are healthy, all that is under way keeps to its moves, and the
batcher's transactions have their submissions. -/
structure Consistent (p : Pipeline) : Prop where
  healthy : p.node.store.Healthy
  batching : ∀ run, p.batching = some run → BatcherKeeps run p.node
  validation : ∀ run, p.validation = some run → ValidatorKeeps run p.node
  others : ∀ a ∈ p.others, a.2.Within fun n m => n.store.FreeMove m.store
  sizes : ∀ tx ∈ p.committed, tx ∈ p.node.store.transactions ∧
    tx.batchSize = p.node.store.carrying tx.txId

theorem freeMove_storeBlock {s t : Store} {nodeId : String} {p : Proposal} {stored : StoredBlock}
    (h : s.storeBlock nodeId p Store.nothingAfter = .ok (stored, t)) : s.FreeMove t := by
  obtain ⟨entries, ha, -, hafter⟩ := Store.storeBlock_eq_ok.mp h
  obtain rfl : s.extend nodeId p entries = t := Except.ok.inj hafter
  exact .block nodeId ha

/-- The scope of what goes on beside the workers. -/
def besideWorkers : Node.Scope := ⟨(· = Store.nothingAfter), fun _ => True, False, False⟩

theorem freeMove_of_change {n m : Node} (h : n.Change besideWorkers m) :
    n.store.FreeMove m.store := by
  cases h with
  | beside _ _ hstore _ => exact hstore ▸ Store.FreeMove.idle n.store
  | block hafter hstored => exact freeMove_storeBlock (hafter ▸ hstored)
  | reject _ _ hrejects => exact hrejects.elim
  | record _ _ hrecords => exact hrecords.elim
  | stage _ => exact Store.FreeMove.stage n.store _ _ _

/-- What goes on beside the workers keeps to the moves that they leave to others. -/
theorem Task.within {a : Activity.Some Node} (h : Task a) :
    a.2.Within fun n m => n.store.FreeMove m.store := by
  refine Activity.Within.mono (fun _ _ => freeMove_of_change) ?_
  cases h with
  | submit network input => exact Node.submit_changes rfl network input
  | createGenesis validatorId time => exact Node.createGenesis_changes rfl validatorId time
  | stage d => exact Node.stage_changes trivial
  | intake d => exact Node.intake_changes trivial
  | clock milliseconds => exact Activity.Within.atomic fun n => .beside rfl rfl rfl rfl

section Interference

variable {n m : Node}

theorem BatcherKeeps.interfere {run : CycleRun CycleResult} (h : BatcherKeeps run n)
    (hnm : Node.BatcherRely n.store m.store) : BatcherKeeps run m := by
  apply Activity.Guarded.interfere _ h hnm
  exact fun _ _ _ h h' => Node.BatcherRely.trans h h'

theorem ValidatorKeeps.interfere {run : CycleRun (ValidationCounts × List Authority.Call)}
    (h : ValidatorKeeps run n) (hnm : Node.ValidatorRely n.store m.store) :
    ValidatorKeeps run m := by
  apply Activity.Guarded.interfere _ h hnm
  exact fun _ _ _ h h' => Node.ValidatorRely.trans h h'

end Interference

/-- Counts that are kept keep the sizes. -/
theorem sizes_kept {txs : List LedgerTransaction} {s t : Store} (h : s.CountsKept t)
    (hs : ∀ tx ∈ txs, tx ∈ s.transactions ∧ tx.batchSize = s.carrying tx.txId) :
    ∀ tx ∈ txs, tx ∈ t.transactions ∧ tx.batchSize = t.carrying tx.txId := by
  intro tx htx
  obtain ⟨hmem, hsize⟩ := hs tx htx
  obtain ⟨hmem', hsame⟩ := h tx hmem
  exact ⟨hmem', hsize.trans hsame.symm⟩

/-- One step of anyone keeps what holds all along. -/
theorem Consistent.step {p q : Pipeline} (h : p.Consistent) (hstep : p.Step q) : q.Consistent := by
  cases hstep with
  | beginBatching network now hover =>
    refine { h with batching := fun run hrun => ?_ }
    obtain rfl := Option.some.inj hrun
    exact Node.batchingCycle_guarded network now h.healthy
  | beginValidation replies now limit hover =>
    refine { h with validation := fun run hrun => ?_ }
    obtain rfl := Option.some.inj hrun
    exact Node.validationCycle_guarded replies now limit h.healthy
  | beginOther a ha =>
    refine { h with others := fun b hb => ?_ }
    rcases List.mem_cons.mp hb with rfl | hb
    · exact ha.within
    · exact h.others b hb
  | @batch run rest n hrun hadv =>
    obtain ⟨hmove, hrest⟩ := Activity.Guarded.advance (fun n => Node.BatcherRely.refl n.store)
      (h.batching run hrun) hadv
    obtain ⟨hhealthy, hpending, hcounts, hnew⟩ := hmove.keeps h.healthy
    refine ⟨hhealthy, fun run' hrun' => ?_, fun run' hrun' => ?_, h.others, ?_⟩
    · obtain rfl := Option.some.inj hrun'
      exact hrest
    · exact (h.validation run' hrun').interfere ⟨fun _ => hhealthy, hpending⟩
    · intro tx htx
      rcases List.mem_append.mp htx with htx | htx
      · exact sizes_kept hcounts h.sizes tx htx
      · exact ⟨List.mem_of_mem_drop htx, hnew tx htx⟩
  | @validate run rest n hrun hadv =>
    obtain ⟨hmove, hrest⟩ := Activity.Guarded.advance (fun n => Node.ValidatorRely.refl n.store)
      (h.validation run hrun) hadv
    obtain ⟨hhealthy, hsettled, hcounts⟩ := hmove.keeps h.healthy
    refine ⟨hhealthy, fun run' hrun' => ?_, fun run' hrun' => ?_, h.others, ?_⟩
    · exact (h.batching run' hrun').interfere ⟨fun _ => hhealthy, hsettled⟩
    · obtain rfl := Option.some.inj hrun'
      exact hrest
    · exact sizes_kept hcounts h.sizes
  | @other before after α a b n hothers hadv =>
    have ha : (⟨α, a⟩ : Activity.Some Node) ∈ p.others := by
      rw [hothers]
      exact List.mem_append_right before List.mem_cons_self
    obtain ⟨hmove, hb⟩ := (h.others ⟨α, a⟩ ha).advance hadv
    obtain ⟨hhealthy, hsettled, hpending, hcounts⟩ := hmove.keeps h.healthy
    refine ⟨hhealthy, fun run hrun => ?_, fun run hrun => ?_, fun c hc => ?_, ?_⟩
    · exact (h.batching run hrun).interfere ⟨fun _ => hhealthy, hsettled⟩
    · exact (h.validation run hrun).interfere ⟨fun _ => hhealthy, hpending⟩
    · rcases List.mem_append.mp hc with hc | hc
      · exact h.others c (hothers ▸ List.mem_append_left _ hc)
      · rcases List.mem_cons.mp hc with rfl | hc
        · exact hb
        · exact h.others c (hothers ▸ List.mem_append_right _ (List.mem_cons_of_mem _ hc))
    · exact sizes_kept hcounts h.sizes

/-- It holds in every state that is reached from empty tables. -/
theorem Reach.consistent {start : Node} (hempty : start.store = Store.empty) {p : Pipeline}
    (h : Reach start p) : p.Consistent := by
  induction h with
  | start =>
    refine ⟨?_, ?_, ?_, ?_, ?_⟩
    · change start.store.Healthy
      rw [hempty]
      exact Store.healthy_empty
    · exact fun run hrun => nomatch hrun
    · exact fun run hrun => nomatch hrun
    · exact fun a ha => absurd ha List.not_mem_nil
    · exact fun tx htx => absurd htx List.not_mem_nil
  | step _ hstep ih => exact ih.step hstep

end Pipeline

end ImageLedger
