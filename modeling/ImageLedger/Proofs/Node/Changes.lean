import ImageLedger.Node.Intake
import ImageLedger.Node.Workers
import ImageLedger.Proofs.Activity.Interleaving
import ImageLedger.Proofs.Store.Chain

namespace ImageLedger

namespace Consensus.Engine

variable {e : Engine} {network : Network}

theorem mode_propose {sign : String → String} {tip : Option Tip}
    {transactions : List BatchTransaction} {timestamp : Number} :
    (e.propose sign network tip transactions timestamp).2.mode = e.mode := by
  unfold propose
  split_ifs
  · rfl
  · cases hmode : e.mode with
    | single => exact hmode
    | poa =>
      dsimp only
      split_ifs <;> exact hmode

theorem mode_broadcast {height : Option Number} :
    (e.broadcast network height).2.mode = e.mode := by
  unfold broadcast
  cases hmode : e.mode with
  | single => exact hmode
  | poa => cases network.announcementFailure <;> rfl

end Consensus.Engine

/-- What operations may do: the work that they have done in the transaction of a block, the drafts
that they stage, and whether they reject submissions or record attempts. -/
structure Node.Scope where
  hooks : Store.AfterBlock → Prop
  drafts : Draft → Prop
  rejects : Prop
  records : Prop

/-- One step of an operation that keeps to its scope. -/
inductive Node.Change (scope : Node.Scope) : Node → Node → Prop
  | beside {n m : Node} : m.settings = n.settings → m.engine.mode = n.engine.mode →
      m.store = n.store → m.receipts = n.receipts → Change scope n m
  | block {n : Node} {p : Proposal} {after : Store.AfterBlock} {stored : StoredBlock} {t : Store} :
      scope.hooks after → n.store.storeBlock n.settings.nodeId p after = .ok (stored, t) →
      Change scope n { n with store := t }
  | reject (n : Node) (id : Nat) (message : String) : scope.rejects →
      Change scope n { n with store := n.store.markRejected id message }
  | record (n : Node) (id : Nat) (u : AttemptUpdate) : scope.records →
      Change scope n { n with store := n.store.recordAttempt id u }
  | stage (n : Node) {d : Draft} : scope.drafts d →
      Change scope n { n with
        receipts := n.receipts + 1
        store := n.store.stage (Node.receiptId (n.receipts + 1)) n.seconds d }

section Changes

variable {scope : Node.Scope} {α β : Type}

theorem Node.Change.idle (n : Node) : Node.Change scope n n := .beside rfl rfl rfl rfl

namespace Operation

section Tables

variable {R : Store → Store → Prop}

/-- Every step of the operation changes the tables as `R` allows. -/
def Within (R : Store → Store → Prop) (op : Operation α) : Prop :=
  Activity.Within (fun n m => R n.store m.store) op.run

theorem Within.pure (a : α) : Within R (pure a : Operation α) := trivial

theorem Within.throw (e : Fault) : Within R (throw e : Operation α) := trivial

theorem Within.bind {op : Operation α} {f : α → Operation β} (hop : op.Within R)
    (hf : ∀ a, (f a).Within R) : (op >>= f).Within R := by
  refine Activity.Within.andThen hop fun result => ?_
  cases result with
  | error e => trivial
  | ok a => exact hf a

theorem Within.look (refl : ∀ s, R s s) (f : Node → Except Fault α) : (look f).Within R :=
  Activity.Within.atomic fun n => refl n.store

end Tables

/-- Every step of the operation keeps to the scope. -/
def Changes (scope : Node.Scope) (op : Operation α) : Prop := op.run.Within (Node.Change scope)

namespace Changes

theorem pure (a : α) : (pure a : Operation α).Changes scope := trivial

theorem throw (e : Fault) : (throw e : Operation α).Changes scope := trivial

theorem bind {op : Operation α} {f : α → Operation β} (hop : op.Changes scope)
    (hf : ∀ a, (f a).Changes scope) : (op >>= f).Changes scope := by
  refine Activity.Within.andThen hop fun result => ?_
  cases result with
  | error e => trivial
  | ok a => exact hf a

theorem outcome {op : Operation α} (hop : op.Changes scope) :
    op.outcome.Changes scope :=
  Activity.Within.andThen hop fun _ => trivial

theorem look (f : Node → Except Fault α) : (look f).Changes scope :=
  Activity.Within.atomic .idle

/-- What comes after a look may count on what was seen. -/
theorem look_bind {f : Node → Except Fault α} {g : α → Operation β}
    (h : ∀ n a, f n = .ok a → (g a).Changes scope) :
    (Operation.look f >>= g).Changes scope := by
  intro n _
  refine ⟨.idle n, ?_⟩
  cases hf : f n with
  | error e =>
    simp only [hf]
    trivial
  | ok a =>
    simp only [hf]
    exact h n a hf

theorem act {f : Node → α × Node} (h : ∀ n, Node.Change scope n (f n).2) :
    (act f).Changes scope :=
  Activity.Within.atomic h

theorem attempt {f : Node → Except Fault α × Node}
    (h : ∀ n, Node.Change scope n (f n).2) : (attempt f).Changes scope :=
  Activity.Within.atomic h

/-- Waiting for the lock and leaving it is work beside the tables. -/
theorem exclusively {op : Operation α} (hop : op.Changes scope) :
    (exclusively op).Changes scope := by
  refine Activity.Within.andThen (Activity.Within.atomic fun _ => .beside rfl rfl rfl rfl)
    fun ticket => ?_
  refine Activity.Within.andThen (fun n _ => ⟨.idle n, trivial⟩) fun _ => ?_
  refine Activity.Within.andThen hop fun result => ?_
  exact Activity.Within.andThen (Activity.Within.atomic fun _ => .beside rfl rfl rfl rfl)
    fun _ => trivial

/-- What single steps do to the tables, the whole operation does. -/
theorem within {R : Store → Store → Prop} {op : Operation α} (h : op.Changes scope)
    (hR : ∀ {n m : Node}, n.Change scope m → R n.store m.store) : op.Within R :=
  Activity.Within.mono (fun _ _ => hR) h

end Changes

end Operation

namespace Node

open Operation

theorem propose_changes (network : Consensus.Network) (txs : List BatchTransaction)
    (time : Option Number) : (propose network txs time).Changes scope :=
  .bind (.look _) fun _ => .attempt fun _ => .beside rfl Consensus.Engine.mode_propose rfl rfl

theorem broadcast_changes (network : Consensus.Network) (height : Option Number) :
    (broadcast network height).Changes scope :=
  .attempt fun _ => .beside rfl Consensus.Engine.mode_broadcast rfl rfl

/-- A proposal that the tables take is stored in a single step. -/
theorem storeBlock_run {n : Node} {p : Proposal} {after : Store.AfterBlock} {stored : StoredBlock}
    {t : Store} (h : n.store.storeBlock n.settings.nodeId p after = .ok (stored, t)) :
    (storeBlock p after).run.run n = some (.ok stored, { n with store := t }) := by
  change some _ = _
  simp only [h]

theorem storeBlock_changes (p : Proposal) {after : Store.AfterBlock} (hafter : scope.hooks after) :
    (storeBlock p after).Changes scope := by
  refine Activity.Within.atomic fun n => ?_
  cases hstore : n.store.storeBlock n.settings.nodeId p after with
  | error e =>
    simp only [hstore]
    exact .idle n
  | ok r =>
    simp only [hstore]
    exact .block hafter hstore

/-- A proposal that is stored and announced, as a submission and a batching cycle end. -/
theorem storeAndAnnounce_changes (network : Consensus.Network) (p : Proposal)
    {after : Store.AfterBlock} (hafter : scope.hooks after) (result : StoredBlock → α) : (do
      let stored ← storeBlock p after
      broadcast network (some p.height)
      return result stored : Operation α).Changes scope :=
  .bind (storeBlock_changes p hafter) fun _ =>
    .bind (broadcast_changes network _) fun _ => .pure _

theorem submit_changes (hnothing : scope.hooks Store.nothingAfter) (network : Consensus.Network)
    (input : SubmitInput) : (submit network input).Changes scope := by
  refine .bind (.look _) fun tx => .exclusively (.bind (.look _) fun violation => ?_)
  cases violation with
  | some v => exact .throw _
  | none =>
    refine .bind (propose_changes network _ _) fun proposal => ?_
    cases proposal with
    | none => exact .throw _
    | some p => exact storeAndAnnounce_changes network p hnothing _

theorem createGenesis_changes (hnothing : scope.hooks Store.nothingAfter)
    (validatorId : Option String) (time : Option Number) :
    (createGenesis validatorId time).Changes scope := by
  refine .exclusively (.bind (.look _) fun found => ?_)
  cases found with
  | some b => exact .pure _
  | none => exact .bind (.look _) fun p => .bind (storeBlock_changes p hnothing) fun _ => .pure _

theorem rejectAll_changes (hrejects : scope.rejects)
    (dropped : List (Submission × Batching.DropReason)) : (rejectAll dropped).Changes scope := by
  induction dropped with
  | nil => exact .pure ()
  | cons d rest ih => exact .bind (.act fun n => .reject n _ _ hrejects) fun _ => ih

theorem assemble_changes (hrejects : scope.rejects) (now : Number) :
    (assemble now).Changes scope := by
  refine .bind (.look _) fun candidates => ?_
  cases candidates.isEmpty with
  | true =>
    simp only [if_true]
    exact .pure _
  | false =>
    simp only [Bool.false_eq_true, if_false]
    refine .bind (.look _) fun onChain => ?_
    exact .bind (rejectAll_changes hrejects _) fun _ => .look _

theorem batchingCycle_changes (hrejects : scope.rejects)
    (hmark : ∀ ids, scope.hooks fun s block => .ok (s.markBatched ids block.txIds.head?))
    (network : Consensus.Network) (now : Option Number) :
    (batchingCycle network now).Changes scope := by
  refine .bind (.look _) fun current => .bind (assemble_changes hrejects _) fun first => ?_
  cases first with
  | inl result => exact .pure result
  | inr batch =>
    refine .exclusively (.bind (.look _) fun violation => ?_)
    cases violation with
    | some v => exact .pure _
    | none =>
      refine .bind (propose_changes network _ _) fun proposal => ?_
      cases proposal with
      | none => exact .pure _
      | some p => exact storeAndAnnounce_changes network p (hmark _) _

theorem consult_changes (reply : Authority.Reply) (r : Authority.Request) :
    (consult reply r).Changes scope := by
  refine .bind (.act fun _ => .beside rfl rfl rfl rfl) fun kept => ?_
  cases kept with
  | some v => exact .pure _
  | none =>
    refine .act fun n => ?_
    cases Authority.verdictOf r.subject reply <;> exact .beside rfl rfl rfl rfl

theorem attemptAll_changes (hrecords : scope.records) (now : Number)
    (replies : Nat → Authority.Reply) (due : List Submission) (counts : ValidationCounts)
    (calls : List Authority.Call) : (attemptAll now replies due counts calls).Changes scope := by
  induction due generalizing counts calls with
  | nil => exact .pure _
  | cons s rest ih =>
    refine .bind (.bind (consult_changes _ _) fun answer => ?_) fun _ => ih _ _
    obtain ⟨verdict, call⟩ := answer
    cases verdict with
    | none => exact .pure _
    | some v => exact .act fun n => .record n _ _ hrecords

theorem validationCycle_changes (hrecords : scope.records) (replies : Nat → Authority.Reply)
    (now limit : Option Number) : (validationCycle replies now limit).Changes scope :=
  .bind (.look _) fun current => .bind (.look _) fun due =>
    attemptAll_changes hrecords (now.getD current) replies due _ _

theorem stage_changes {d : Draft} (hd : scope.drafts d) : (stage d).Changes scope :=
  .bind (.act fun n => .stage n hd) fun _ => .look _

theorem intake_changes {d : Draft} (hd : scope.drafts d) : (intake d).Changes scope := by
  refine .bind (.look _) fun onChain => ?_
  cases onChain with
  | true => trivial
  | false =>
    refine .bind (.look _) fun staged => ?_
    cases staged with
    | true => trivial
    | false => exact .bind (stage_changes hd) fun _ => .pure _

/-- The scope of what stores no block. -/
def Scope.noBlock : Scope := ⟨fun _ => False, fun _ => True, True, True⟩

theorem Change.sameLedger {n m : Node} (h : n.Change .noBlock m) : n.store.SameLedger m.store := by
  cases h with
  | beside _ _ hstore _ => exact hstore ▸ n.store.sameLedger_refl
  | block hafter _ => exact hafter.elim
  | reject | record | stage => exact rfl

end Node

end Changes

end ImageLedger
