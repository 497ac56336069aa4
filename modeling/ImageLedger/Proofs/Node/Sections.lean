import ImageLedger.Proofs.Activity.Follows
import ImageLedger.Proofs.Node.Failure
import ImageLedger.Proofs.Node.Guarded
import ImageLedger.Proofs.Store.Extension

namespace ImageLedger

namespace Store

/-- It does not fail for a block that does not extend the chain. -/
def Extending {α : Type} (x : Except StoreError α) : Prop :=
  ∀ expected proposed, x ≠ .error (.conflict expected proposed)

namespace Extending

variable {α β : Type}

theorem bind {x : Except StoreError α} {f : α → Except StoreError β} (hx : Extending x)
    (hf : ∀ a, Extending (f a)) : Extending (x >>= f) := by
  cases x with
  | error e => exact fun expected proposed h => hx expected proposed (by cases h; rfl)
  | ok a => exact hf a

theorem mapM {f : α → Except StoreError β} (hf : ∀ a, Extending (f a)) (l : List α) :
    Extending (l.mapM f) := by
  induction l with
  | nil => exact nofun
  | cons a rest ih =>
    rw [List.mapM_cons]
    exact (hf a).bind fun b => ih.bind fun bs => nofun

theorem foldlM {f : β → α → Except StoreError β} (hf : ∀ b a, Extending (f b a)) (l : List α)
    (b : β) : Extending (l.foldlM f b) := by
  induction l generalizing b with
  | nil => exact nofun
  | cons a rest ih =>
    rw [List.foldlM_cons]
    exact (hf b a).bind fun b' => ih b'

end Extending

theorem normalizeAll_extending (hashes : List String) : Extending (normalizeAll hashes) := by
  refine .mapM (fun hash => ?_) hashes
  split <;> exact nofun

theorem insertTransaction_extending (s : Store) (height : Nat) (tx : BatchTransaction)
    (txHash : String) : Extending (insertTransaction s height tx txHash) := by
  refine .bind (normalizeAll_extending _) fun hashes => .bind ?_ fun tree => ?_
  · unfold treeOf
    split
    · exact nofun
    · split <;> exact nofun
  · dsimp only
    split
    · exact nofun
    · refine .bind (.foldlM (fun s row => ?_) _ _) fun s => nofun
      unfold insertImage
      split
      · exact nofun
      · split <;> exact nofun

theorem insertTransactions_extending (s : Store) (height : Nat)
    (txs : List (BatchTransaction × String)) :
    Extending (insertTransactions s height txs) := by
  induction txs generalizing s with
  | nil => exact nofun
  | cons tx rest ih =>
    exact .bind (insertTransaction_extending _ _ _ _) fun r => .bind (ih r.2) fun r => nofun

/-- A proposal with the height and previous hash that come next is refused for other reasons
only. -/
theorem storeBlock_extending {s : Store} {p : Proposal} {after : AfterBlock}
    (hheight : p.height = s.expectedHeight) (hprevious : p.previousHash = s.expected.2)
    (hafter : ∀ s stored, Extending (after s stored)) (nodeId : String) :
    Extending (s.storeBlock nodeId p after) := by
  refine .bind (.mapM (fun tx => ?_) _) fun hashes => ?_
  · unfold storedHash
    cases h : normalizeAll tx.imageHashes with
    | ok hashes => exact nofun
    | error e =>
      refine fun expected proposed hconflict => ?_
      obtain rfl := Except.error.inj hconflict
      exact normalizeAll_extending _ expected proposed h
  · dsimp only
    split
    · exact nofun
    · rw [if_neg (by simp [hheight, hprevious])]
      refine .bind ?_ fun r => .bind (insertTransactions_extending _ _ _) fun r =>
        .bind (hafter _ _) fun s => nofun
      unfold insertBlock
      split_ifs <;> exact nofun

/-- A block is added. -/
def Extends (s t : Store) : Prop :=
  ∃ nodeId p new, s.Accepts p new ∧ (s.extend nodeId p new).SameLedger t

theorem SameLedger.trans {s t u : Store} (h : s.SameLedger t) (h' : t.SameLedger u) :
    s.SameLedger u := by
  rw [h] at h'
  exact h'

theorem SameLedger.blocks {s t : Store} (h : s.SameLedger t) : t.blocks = s.blocks := by
  rw [h]

theorem SameLedger.expected {s t : Store} (h : s.SameLedger t) :
    t.expectedHeight = s.expectedHeight ∧ t.expected = s.expected := by
  rw [h]
  exact ⟨rfl, rfl⟩

end Store

theorem Node.sameLedger_refl (n : Node) : n.store.SameLedger n.store := n.store.sameLedger_refl

theorem Node.sameLedger_trans (n m k : Node) (hnm : n.store.SameLedger m.store)
    (hmk : m.store.SameLedger k.store) : n.store.SameLedger k.store :=
  hnm.trans hmk

/-- An outcome that is no failure of a block that does not extend the chain. -/
def Extending {α : Type} (answer : Except Fault α) : Prop :=
  ∀ expected proposed, answer ≠ .error (.store (.conflict expected proposed))

theorem Extending.ok {α : Type} (a : α) : Extending (.ok a) := by
  intro expected proposed h
  cases h

theorem Extending.consensus {α : Type} (e : ConsensusError) :
    Extending (.error (.consensus e) : Except Fault α) := by
  intro expected proposed h
  cases h

namespace Operation

variable {α β : Type}

/-- The operation never waits and leaves the lock alone. -/
abbrev Free (op : Operation α) : Prop := op.run.Free Node.lock

theorem Free.bind {op : Operation α} {f : α → Operation β} (hop : op.Free)
    (hf : ∀ a, (f a).Free) : (op >>= f).Free := by
  refine Activity.Free.andThen hop fun result => ?_
  cases result with
  | error e => trivial
  | ok a => exact hf a

theorem Free.pure (a : α) : (pure a : Operation α).Free := trivial

theorem Free.throw (e : Fault) : (throw e : Operation α).Free := trivial

theorem Free.look (f : Node → Except Fault α) : (look f).Free := Activity.Free.atomic fun _ => rfl

theorem Free.act {f : Node → α × Node} (h : ∀ n, (f n).2.lock = n.lock) : (act f).Free :=
  Activity.Free.atomic h

theorem Free.attempt {f : Node → Except Fault α × Node} (h : ∀ n, (f n).2.lock = n.lock) :
    (attempt f).Free :=
  Activity.Free.atomic h

theorem Free.transact {f : Node → Except Fault (α × Node)}
    (h : ∀ n a m, f n = .ok (a, m) → m.lock = n.lock) : (transact f).Free := by
  refine Activity.Free.atomic fun n => ?_
  cases hf : f n with
  | error e => rfl
  | ok r => exact h n r.1 r.2 hf

/-- The operation leaves the ledger alone, or adds one block. -/
abbrev AddsOnce (op : Operation α) : Prop :=
  op.run.Turns (fun _ => True) (fun n m => n.store.SameLedger m.store)
    (fun n m => n.store.Extends m.store) (fun _ => True) fun _ => True

theorem AddsOnce.of_within {op : Operation α} (h : op.Within Store.SameLedger) : op.AddsOnce :=
  Activity.Turns.of_meets (Activity.Meets.of_within h)

theorem AddsOnce.bind {op : Operation α} {f : α → Operation β} (hop : op.Within Store.SameLedger)
    (hf : ∀ a, (f a).AddsOnce) : (op >>= f).AddsOnce := by
  refine Activity.Turns.after_meets (Activity.Meets.of_within hop) fun result _ => ?_
  cases result with
  | error e => exact of_within (.throw e)
  | ok a => exact hf a

theorem AddsOnce.andThen {op : Operation α} {f : α → Operation β} (hop : op.AddsOnce)
    (hf : ∀ a, (f a).Within Store.SameLedger) : (op >>= f).AddsOnce := by
  have hafter : ∀ result, (ExceptT.bindCont f result).Within
      fun n m : Node => n.store.SameLedger m.store := by
    intro result
    cases result with
    | error e => trivial
    | ok a => exact hf a
  exact Activity.Turns.andThen hop
    (fun result _ => Activity.Turns.of_meets (Activity.Meets.of_within (hafter result)))
    fun result _ => Activity.Meets.of_within (hafter result)

/-- While nobody else writes to the ledger, the operation does not fail for a block that does not
extend the chain; `A` holds of its result and the tables. -/
abbrev FitsFor (A : α → Store → Prop) (op : Operation α) (seen : List Node) (n : Node) : Prop :=
  op.Guarded Store.SameLedger (fun _ _ => True)
    (fun _ answer t => Extending answer ∧ ∀ a, answer = .ok a → A a t) seen n

theorem FitsFor.bind {A : α → Store → Prop} {B : β → Store → Prop} {op : Operation α}
    {f : α → Operation β} {seen : List Node} {n : Node} (hop : FitsFor A op seen n)
    (hf : ∀ seen a m, A a m.store → FitsFor B (f a) seen m) : FitsFor B (op >>= f) seen n := by
  refine Guarded.bind Store.sameLedger_refl hop (fun seen a m hmid => hf seen a m ?_) ?_
  · exact hmid.2 a rfl
  · refine fun seen e t u hmid _ => ⟨fun expected proposed h => ?_, nofun⟩
    exact hmid.1 expected proposed (congrArg Except.error (Except.error.inj h))

theorem FitsFor.pure (a : α) (seen : List Node) (n : Node) :
    FitsFor (fun _ _ => True) (pure a) seen n :=
  fun _ _ => ⟨Extending.ok a, fun _ _ => trivial⟩

theorem FitsFor.throw {e : Fault}
    (h : ∀ expected proposed, e ≠ .store (.conflict expected proposed)) (seen : List Node)
    (n : Node) : FitsFor (fun _ _ => True) (throw e : Operation α) seen n :=
  fun _ _ => ⟨fun expected proposed he => h expected proposed (Except.error.inj he),
    fun _ _ => trivial⟩

/-- What an operation keeps to that leaves the ledger alone and cannot fail for its sake. -/
structure Aside (op : Operation α) : Prop where
  free : op.Free
  within : op.Within Store.SameLedger
  fits : ∀ seen n, FitsFor (fun _ _ => True) op seen n

theorem Aside.pure (a : α) : (pure a : Operation α).Aside :=
  ⟨Free.pure a, Within.pure a, FitsFor.pure a⟩

theorem Aside.throw {e : Fault}
    (h : ∀ expected proposed, e ≠ .store (.conflict expected proposed)) :
    (throw e : Operation α).Aside :=
  ⟨Free.throw e, Within.throw e, FitsFor.throw h⟩

/-- What an operation under the lock keeps to. -/
structure Section (op : Operation α) : Prop where
  free : op.Free
  addsOnce : op.AddsOnce
  fits : ∀ n : Node, n.store.Sound → FitsFor (fun _ _ => True) op [] n

end Operation

namespace Node

open Operation

/-- What the making of the first block does under the lock. -/
def genesisLocked (validatorId : Option String) (timestamp : Option Number) :
    Operation Block := do
  let found ← .look fun n => .ok (n.store.blockByHeight 0)
  match found with
  | some block => return block
  | none =>
    let p ← .look fun n => .ok (genesisProposal n.sign (validatorId.getD n.settings.nodeId)
      (timestamp.getD n.seconds))
    return (← storeBlock p Store.nothingAfter).block

theorem createGenesis_eq (validatorId : Option String) (timestamp : Option Number) :
    createGenesis validatorId timestamp = exclusively (genesisLocked validatorId timestamp) := rfl

theorem accepts_genesisProposal (sign : String → String) (validatorId : String) {time : Number}
    (htime : time ≠ .nan) : Store.empty.Accepts (genesisProposal sign validatorId time) [] where
  hashes_agree := rfl
  height_eq := rfl
  height_le := Nat.zero_le _
  previousHash_eq := rfl
  timestamp_number := htime
  blockHash_new := nofun
  batches := rfl
  heights := nofun
  admitted := trivial

/-- With an empty ledger the first block is made and stored. -/
theorem perform_genesisLocked {n : Node} (hempty : n.store = .empty) (validatorId : Option String)
    (time : Option Number) (htime : time ≠ some .nan) :
    let p := genesisProposal n.sign (validatorId.getD n.settings.nodeId) (time.getD n.seconds)
    (genesisLocked validatorId time).perform n = some (.ok (n.store.nextBlock p),
      { n with store := n.store.extend n.settings.nodeId p [] }) := by
  intro p
  have haccepts : n.store.Accepts p [] :=
    hempty ▸ accepts_genesisProposal _ _ (getD_seconds_ne_nan htime n)
  have hfound : (Operation.look fun m => .ok (m.store.blockByHeight 0)).perform n =
      some (.ok none, n) := by
    rw [perform_look, hempty]
    rfl
  have hproposed : (Operation.look fun m => .ok (genesisProposal m.sign
      (validatorId.getD m.settings.nodeId) (time.getD m.seconds))).perform n =
      some (.ok p, n) := rfl
  have hstored := storeBlock_run (Store.storeBlock_eq_ok.mpr
    ⟨[], haccepts, rfl, show Store.nothingAfter _ _ = _ from rfl⟩)
  rw [genesisLocked, perform_bind hfound]
  dsimp only
  rw [perform_bind hproposed, perform_bind hstored]
  rfl

section Free

theorem validate_free (tx : ReceivedBatch) (now : Option Number) : (validate tx now).Free :=
  Free.look _

theorem propose_free (network : Consensus.Network) (txs : List BatchTransaction)
    (time : Option Number) : (propose network txs time).Free :=
  Free.bind (Free.look _) fun _ => Free.attempt fun _ => rfl

theorem broadcast_free (network : Consensus.Network) (height : Option Number) :
    (broadcast network height).Free :=
  Free.attempt fun _ => rfl

theorem storeBlock_free (p : Proposal) (after : Store.AfterBlock) : (storeBlock p after).Free := by
  refine Free.transact fun n a m h => ?_
  cases hs : n.store.storeBlock n.settings.nodeId p after with
  | error e => simp [hs] at h
  | ok r =>
    simp only [hs, Except.ok.injEq, Prod.mk.injEq] at h
    obtain ⟨-, rfl⟩ := h
    rfl

theorem rejectAll_free (dropped : List (Submission × Batching.DropReason)) :
    (rejectAll dropped).Free := by
  induction dropped with
  | nil => exact Free.pure ()
  | cons d rest ih => exact Free.bind (Free.act fun _ => rfl) fun _ => ih

theorem assemble_free (now : Number) : (assemble now).Free := by
  refine Free.bind (Free.look _) fun candidates => ?_
  cases candidates.isEmpty with
  | true =>
    simp only [if_true]
    exact Free.pure _
  | false =>
    simp only [Bool.false_eq_true, if_false]
    refine Free.bind (Free.look _) fun onChain => ?_
    exact Free.bind (rejectAll_free _) fun _ => Free.look _

theorem stage_free (d : Draft) : (stage d).Free :=
  Free.bind (Free.act fun _ => rfl) fun _ => Free.look _

theorem intake_free (d : Draft) : (intake d).Free := by
  refine Free.bind (Free.look _) fun onChain => ?_
  cases onChain with
  | true => trivial
  | false =>
    refine Free.bind (Free.look _) fun staged => ?_
    cases staged with
    | true => trivial
    | false => exact Free.bind (stage_free d) fun _ => Free.pure _

theorem consult_free (reply : Authority.Reply) (r : Authority.Request) :
    (consult reply r).Free := by
  refine Free.bind (Free.act fun _ => rfl) fun kept => ?_
  cases kept with
  | some v => exact Free.pure _
  | none =>
    refine Free.act fun n => ?_
    cases Authority.verdictOf r.subject reply <;> rfl

theorem attemptAll_free (now : Number) (replies : Nat → Authority.Reply) (due : List Submission)
    (counts : ValidationCounts) (calls : List Authority.Call) :
    (attemptAll now replies due counts calls).Free := by
  induction due generalizing counts calls with
  | nil => exact Free.pure _
  | cons s rest ih =>
    refine Free.bind (Free.bind (consult_free _ _) fun answer => ?_) fun _ => ih _ _
    obtain ⟨verdict, call⟩ := answer
    cases verdict with
    | none => exact Free.pure _
    | some v => exact Free.act fun _ => rfl

theorem validationCycle_free (replies : Nat → Authority.Reply) (now limit : Option Number) :
    (validationCycle replies now limit).Free := by
  refine Free.bind (Free.look _) fun current => ?_
  exact Free.bind (Free.look _) fun due => attemptAll_free _ replies due _ _

end Free

section Fits

variable {α : Type} {s : Store} {n : Node} {seen : List Node}

theorem see_fits (hn : s.SameLedger n.store) (f : Node → α) :
    FitsFor (fun a t => s.SameLedger t ∧ ∃ m : Node, s.SameLedger m.store ∧ a = f m)
      (.look fun n => .ok (f n)) seen n := by
  refine Guarded.atomic fun t ht => ⟨trivial, fun u hu => ⟨Extending.ok _, fun a ha => ?_⟩⟩
  exact ⟨(hn.trans ht).trans hu, t, hn.trans ht, (Except.ok.inj ha).symm⟩

/-- While nobody writes to the ledger, a proposal extends its tip. -/
theorem propose_fits (hn : s.SameLedger n.store) (network : Consensus.Network)
    (txs : List BatchTransaction) (time : Option Number) :
    FitsFor (fun answer t => s.SameLedger t ∧ ∀ p, answer = some p →
      p.height = s.expectedHeight ∧ p.previousHash = s.expected.2)
      (propose network txs time) seen n := by
  refine FitsFor.bind (see_fits hn Node.tip) fun seen tip m hparts => ?_
  obtain ⟨hm, found, hfound, rfl⟩ := hparts
  have htip : found.tip = s.latestBlock.map Block.tip := by
    rw [tip, Store.latestBlock, hfound.blocks]
    rfl
  refine Guarded.atomic fun t ht => ⟨trivial, fun u hu => ?_⟩
  dsimp only
  have hu := (hm.trans ht).trans hu
  -- nothing is proposed, a block on the tip that was found is, or the validators refuse it
  rcases t.engine.propose_cases t.sign network found.tip txs (time.getD t.seconds) with
    h | h | ⟨_, _, _, _, h⟩
  · rw [h]
    refine ⟨Extending.ok _, fun answer hanswer => ⟨hu, fun p hp => ?_⟩⟩
    cases hanswer.trans (congrArg _ hp)
  · rw [h]
    refine ⟨Extending.ok _, fun answer hanswer => ⟨hu, fun p hp => ?_⟩⟩
    obtain rfl := Option.some.inj ((Except.ok.inj hanswer).trans hp)
    rw [htip]
    exact Consensus.extends_buildProposal s _ _ _ _
  · rw [h]
    exact ⟨Extending.consensus _, fun answer hanswer => by cases hanswer⟩

/-- While nobody writes to the ledger, a proposal that extends its tip does so when it is stored. -/
theorem storeBlock_fits (hn : s.SameLedger n.store) {p : Proposal} {after : Store.AfterBlock}
    (hheight : p.height = s.expectedHeight) (hprevious : p.previousHash = s.expected.2)
    (hafter : ∀ s stored, Store.Extending (after s stored)) :
    FitsFor (fun _ _ => True) (storeBlock p after) seen n := by
  refine Guarded.atomic fun t ht => ⟨trivial, fun u _ => ⟨?_, fun _ _ => trivial⟩⟩
  intro expected proposed hconflict
  have hledger := (hn.trans ht).expected
  cases hstore : t.store.storeBlock t.settings.nodeId p after with
  | ok r => simp [hstore] at hconflict
  | error e =>
    simp only [hstore, Except.error.injEq, Fault.store.injEq] at hconflict
    subst hconflict
    refine Store.storeBlock_extending ?_ ?_ hafter _ expected proposed hstore
    · rw [hledger.1, hheight]
    · rw [hledger.2, hprevious]

theorem broadcast_fits (network : Consensus.Network) (height : Option Number) :
    FitsFor (fun _ _ => True) (broadcast network height) seen n := by
  refine Guarded.atomic fun t _ => ⟨trivial, fun u _ => ⟨?_, fun _ _ => trivial⟩⟩
  dsimp only
  cases (t.engine.broadcast network height).1 with
  | ok _ => exact Extending.ok _
  | error e => exact Extending.consensus e

end Fits

section Sections

theorem storeBlock_addsOnce (p : Proposal) {after : Store.AfterBlock} (hafter : after.KeepsLedger) :
    (storeBlock p after).AddsOnce := by
  intro n _ _
  cases hstore : n.store.storeBlock n.settings.nodeId p after with
  | error e =>
    left
    simp only [hstore]
    exact ⟨n.store.sameLedger_refl, trivial⟩
  | ok r =>
    right
    simp only [hstore]
    obtain ⟨new, ha, -, hok⟩ := Store.storeBlock_eq_ok.mp hstore
    exact ⟨⟨n.settings.nodeId, p, new, ha, hafter _ _ _ hok⟩, trivial⟩

section Tail

variable {α : Type} (network : Consensus.Network) (p : Proposal) (after : Store.AfterBlock)
  (result : StoredBlock → α)

/-- The last part of a section: a block is stored and announced. -/
def storeAndAnnounce : Operation α := do
  let stored ← storeBlock p after
  broadcast network (some p.height)
  return result stored

theorem storeAndAnnounce_free : (storeAndAnnounce network p after result).Free :=
  Free.bind (storeBlock_free p after) fun _ =>
    Free.bind (broadcast_free network _) fun _ => Free.pure _

theorem storeAndAnnounce_addsOnce (hafter : after.KeepsLedger) :
    (storeAndAnnounce network p after result).AddsOnce :=
  AddsOnce.andThen (storeBlock_addsOnce p hafter) fun _ =>
    Within.bind ((broadcast_changes network _).within Change.sameLedger) fun _ => Within.pure _

theorem storeAndAnnounce_fits {s : Store} {n : Node} {seen : List Node}
    (hn : s.SameLedger n.store) (hheight : p.height = s.expectedHeight)
    (hprevious : p.previousHash = s.expected.2)
    (hafter : ∀ s stored, Store.Extending (after s stored)) :
    FitsFor (fun _ _ => True) (storeAndAnnounce network p after result) seen n :=
  FitsFor.bind (storeBlock_fits hn hheight hprevious hafter) fun _ _ _ _ =>
    FitsFor.bind (broadcast_fits network _) fun _ _ _ _ => FitsFor.pure _ _ _

end Tail

section Checked

variable {α : Type} {network : Consensus.Network} {after : Store.AfterBlock}
  {result : StoredBlock → α}

/-- A section that ends quietly if a transaction is refused or nothing is proposed, and stores the
proposal otherwise. -/
theorem checked_section {tx : ReceivedBatch} {txs : List BatchTransaction}
    {now time : Option Number} {f : Option Violation → Operation α}
    {g : Option Proposal → Operation α} (hrefused : ∀ v, (f (some v)).Aside)
    (hpassed : f none = propose network txs time >>= g) (hnothing : (g none).Aside)
    (hstored : ∀ p, g (some p) = storeAndAnnounce network p after result)
    (hledger : after.KeepsLedger) (hafter : ∀ s stored, Store.Extending (after s stored)) :
    (validate tx now >>= f).Section where
  free := by
    refine Free.bind (validate_free _ _) fun violation => ?_
    cases violation with
    | some v => exact (hrefused v).free
    | none =>
      rw [hpassed]
      refine Free.bind (propose_free _ _ _) fun proposal => ?_
      cases proposal with
      | none => exact hnothing.free
      | some p => exact hstored p ▸ storeAndAnnounce_free network p after result
  addsOnce := by
    refine AddsOnce.bind (Within.look Store.sameLedger_refl _) fun violation => ?_
    cases violation with
    | some v => exact .of_within (hrefused v).within
    | none =>
      rw [hpassed]
      refine AddsOnce.bind ((propose_changes _ _ _).within Change.sameLedger) fun proposal => ?_
      cases proposal with
      | none => exact .of_within hnothing.within
      | some p => exact hstored p ▸ storeAndAnnounce_addsOnce network p after result hledger
  fits := by
    intro n _
    refine FitsFor.bind (see_fits n.store.sameLedger_refl _) fun seen violation m hm => ?_
    cases violation with
    | some v => exact (hrefused v).fits seen m
    | none =>
      rw [hpassed]
      refine FitsFor.bind (propose_fits hm.1 _ _ _) fun seen proposal m hm => ?_
      cases proposal with
      | none => exact hnothing.fits seen m
      | some p =>
        obtain ⟨hheight, hprevious⟩ := hm.2 p rfl
        rw [hstored]
        exact storeAndAnnounce_fits network p after result hm.1 hheight hprevious hafter

end Checked

theorem submitLocked_section (network : Consensus.Network) (tx : BatchTransaction) :
    (submitLocked network tx).Section :=
  checked_section (fun _ => .throw (by simp)) rfl (.throw (by simp)) (fun _ => rfl)
    Store.nothingAfter_keepsLedger fun _ _ => nofun

theorem commitLocked_section (network : Consensus.Network) (now : Number)
    (batch : Batching.Batch) : (commitLocked network now batch).Section :=
  checked_section (fun _ => .pure _) rfl (.pure _) (fun _ => rfl)
    (Store.markBatched_keepsLedger batch.ids) fun _ _ => nofun

/-- An empty chain expects a block at height zero. -/
theorem expected_of_blockByHeight {s : Store} (hs : s.Sound) (h : s.blockByHeight 0 = none) :
    s.expectedHeight = 0 ∧ s.expected.2 = HashText.zero := by
  have hnil : s.blocks = [] := by
    refine List.eq_nil_iff_length_eq_zero.mpr (Nat.eq_zero_of_not_pos fun hpos => ?_)
    have hfirst : (0 : Nat) ∈ s.blocks.map (·.height) := by
      rw [hs.linked.heights]
      exact List.mem_range.mpr hpos
    obtain ⟨b, hb, hzero⟩ := List.mem_map.mp hfirst
    exact List.find?_eq_none.mp h b hb (by simp [hzero]; rfl)
  rw [Store.expectedHeight, Store.expected, Store.latestBlock, hnil]
  exact ⟨rfl, rfl⟩

theorem genesisLocked_section (validatorId : Option String) (timestamp : Option Number) :
    (genesisLocked validatorId timestamp).Section where
  free := by
    refine Free.bind (Free.look _) fun found => ?_
    cases found with
    | some block => exact Free.pure _
    | none =>
      exact Free.bind (Free.look _) fun p => Free.bind (storeBlock_free p _) fun _ => Free.pure _
  addsOnce := by
    refine AddsOnce.bind (Within.look Store.sameLedger_refl _) fun found => ?_
    cases found with
    | some block => exact .of_within (Within.pure _)
    | none =>
      refine AddsOnce.bind (Within.look Store.sameLedger_refl _) fun p => ?_
      exact AddsOnce.andThen (storeBlock_addsOnce p Store.nothingAfter_keepsLedger)
        fun _ => Within.pure _
  fits := by
    intro n hs
    refine FitsFor.bind (see_fits n.store.sameLedger_refl _) fun seen found m hm => ?_
    cases found with
    | some block => exact FitsFor.pure _ _ _
    | none =>
      obtain ⟨hm, first, hfirst, hnone⟩ := hm
      have hempty := expected_of_blockByHeight (hs.sameLedger hfirst) hnone.symm
      rw [hfirst.expected.1, hfirst.expected.2] at hempty
      refine FitsFor.bind (see_fits hm _) fun seen p m hparts => ?_
      obtain ⟨hm, maker, -, rfl⟩ := hparts
      refine FitsFor.bind (storeBlock_fits hm hempty.1.symm hempty.2.symm fun _ _ => nofun) ?_
      exact fun _ _ _ _ => FitsFor.pure _ _ _

end Sections

end Node

end ImageLedger
