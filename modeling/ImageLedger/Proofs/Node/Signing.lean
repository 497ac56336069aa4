import ImageLedger.Node.Batching
import ImageLedger.Proofs.Activity.Course
import ImageLedger.Proofs.Node.BatchingCycle
import ImageLedger.Proofs.Node.Perform
import ImageLedger.Proofs.Store.Signatures

namespace ImageLedger

namespace Operation

variable {key : String → String} {R : Store → Store → Prop} {α β : Type}

/-- An operation of a node with the key, which it leaves in place. Its steps change the tables as
`R` allows, and its outcome meets `post`. -/
def Keyed (key : String → String) (R : Store → Store → Prop) (post : Except Fault α → Prop)
    (op : Operation α) : Prop :=
  Activity.Meets (fun n : Node => n.sign = key) (fun n m => m.sign = key ∧ R n.store m.store) post
    op.run

variable {post : Except Fault β → Prop} {mid : Except Fault α → Prop}

theorem Keyed.pure {b : β} (h : post (.ok b)) : Keyed key R post (pure b) := h

theorem Keyed.throw {e : Fault} (h : post (.error e)) : Keyed key R post (throw e) := h

theorem Keyed.bind {op : Operation α} {f : α → Operation β} (hop : op.Keyed key R mid)
    (hok : ∀ a, mid (.ok a) → (f a).Keyed key R post)
    (herr : ∀ e, mid (.error e) → post (.error e)) : (op >>= f).Keyed key R post := by
  apply Activity.Meets.andThen hop
  intro result hresult
  cases result with
  | error e => exact herr e hresult
  | ok a => exact hok a hresult

/-- A single step of any kind. -/
theorem Keyed.atomic {act : Node → Except Fault β × Node}
    (h : ∀ n, n.sign = key → (act n).2.sign = key ∧ R n.store (act n).2.store ∧ post (act n).1) :
    Keyed key R post (Activity.atomic act) := by
  apply Activity.Meets.atomic
  intro n hn
  obtain ⟨hkey, hR, hpost⟩ := h n hn
  exact ⟨⟨hkey, hR⟩, hpost⟩

theorem Keyed.look (refl : ∀ s, R s s) {f : Node → Except Fault β}
    (h : ∀ n, n.sign = key → post (f n)) : (look f).Keyed key R post :=
  Keyed.atomic fun n hn => ⟨hn, refl n.store, h n hn⟩

/-- Of the first part only the steps count. -/
theorem Keyed.bind_any {op : Operation α} {f : α → Operation β}
    (hop : op.Keyed key R fun _ => True) (hok : ∀ a, (f a).Keyed key R post)
    (herr : ∀ e, post (.error e)) : (op >>= f).Keyed key R post :=
  Keyed.bind hop (fun a _ => hok a) fun e _ => herr e

theorem Keyed.bind_look (refl : ∀ s, R s s) {f : Node → Except Fault α} {g : α → Operation β}
    (hok : ∀ a, (g a).Keyed key R post) (herr : ∀ e, post (.error e)) :
    (Operation.look f >>= g).Keyed key R post :=
  Keyed.bind_any (Keyed.look refl fun _ _ => trivial) hok herr

/-- The lock is no part of the tables and does not touch the key. -/
theorem Keyed.exclusively (refl : ∀ s, R s s) {op : Operation β} (hop : op.Keyed key R post) :
    (exclusively op).Keyed key R post := by
  have hstep : ∀ {γ : Type} (act : Node → γ × Node), (∀ n, (act n).2.sign = n.sign) →
      (∀ n, (act n).2.store = n.store) → Activity.Meets (fun n : Node => n.sign = key)
        (fun n m => m.sign = key ∧ R n.store m.store) (fun _ => True) (Activity.atomic act) := by
    intro γ act hsign hstore
    apply Activity.Meets.atomic
    intro n hn
    rw [hsign, hstore]
    exact ⟨⟨hn, refl n.store⟩, trivial⟩
  apply Activity.Meets.andThen (hstep _ (fun _ => rfl) fun _ => rfl)
  intro ticket _
  apply Activity.Meets.andThen (Activity.Meets.await fun n hn => ⟨hn, refl n.store⟩)
  intro _ _
  apply Activity.Meets.andThen hop
  intro result hresult
  exact Activity.Meets.andThen (hstep _ (fun _ => rfl) fun _ => rfl) fun _ _ => hresult

end Operation

namespace Consensus.Engine

/-- What comes out of an agreement is the proposal that went in, signed. -/
theorem signedBy_of_propose {e : Engine} {sign : String → String} {network : Network}
    {tip : Option Tip} {txs : List BatchTransaction} {time : Number} {p : Proposal}
    (h : (e.propose sign network tip txs time).1 = .ok (some p)) : p.SignedBy sign := by
  rw [eq_of_propose h]
  rfl

end Consensus.Engine

@[simp] theorem batchPayload_singleton (hash : String) : batchPayload [hash] = hash := by
  simp [batchPayload, Text.sort, Text.join]

/-- A well-formed hash is signed in small letters, as it is stored. -/
theorem SubmitInput.signedBy_transaction (input : SubmitInput) (sign : String → String)
    (h : Store.HashesWellFormed (input.transaction sign)) :
    (input.transaction sign).SignedBy sign := by
  have hwell : HashText.wellFormed input.hash = true := h _ (List.mem_singleton_self _)
  have hlower : HashText.lower input.hash = input.hash := by
    unfold SubmitInput.hash at hwell ⊢
    cases hnorm : HashText.normalize? input.imageHash with
    | none =>
      rw [hnorm, Option.getD_none] at hwell
      rw [HashText.normalize?, if_pos hwell] at hnorm
      cases hnorm
    | some text =>
      rw [Option.getD_some]
      exact (HashText.normalize?_eq_some.mp (HashText.normalize?_of_normalize? hnorm)).2
  change sign input.hash = sign (batchPayload [HashText.lower input.hash])
  rw [batchPayload_singleton, hlower]

theorem Batching.signedBy_transaction (entries : List BatchEntry) (submitterId : String)
    (sign : String → String) : (transaction entries submitterId sign).SignedBy sign := by
  have hlower : Store.lowerHashes (transaction entries submitterId sign) =
      entries.map fun e => HashText.lower e.imageHash := by
    simp only [Store.lowerHashes, transaction, List.map_map]
    exact List.map_congr_left fun e _ => HashText.lower_lower _
  rw [BatchTransaction.SignedBy, hlower]
  rfl

namespace Node

open Operation

variable {key : String → String} {R : Store → Store → Prop}

theorem validate_keyed (refl : ∀ s, R s s) (tx : ReceivedBatch) (now : Option Number) :
    (validate tx now).Keyed key R fun _ => True :=
  Keyed.look refl fun _ _ => trivial

theorem broadcast_keyed (refl : ∀ s, R s s) (network : Consensus.Network)
    (height : Option Number) : (broadcast network height).Keyed key R fun _ => True :=
  Keyed.atomic fun n hn => ⟨hn, refl n.store, trivial⟩

/-- A proposal is signed with the node's key and holds the transactions that were given. -/
theorem propose_keyed (refl : ∀ s, R s s) (network : Consensus.Network)
    (txs : List BatchTransaction) (time : Option Number) :
    (propose network txs time).Keyed key R fun answer =>
      ∀ p, answer = .ok (some p) → p.transactions = txs ∧ p.SignedBy key := by
  apply Keyed.bind_look refl
  · intro tip
    apply Keyed.atomic
    intro n hn
    refine ⟨hn, refl n.store, fun p hp => ?_⟩
    dsimp only at hp
    cases hanswer : (n.engine.propose n.sign network tip txs (time.getD n.seconds)).1 with
    | error e => simp [hanswer, Except.mapError] at hp
    | ok proposal =>
      simp only [hanswer, Except.mapError, Except.ok.injEq] at hp
      rw [hp] at hanswer
      exact ⟨transactions_of_propose hanswer, hn ▸ Consensus.Engine.signedBy_of_propose hanswer⟩
  · intro e p hp
    cases hp

theorem storeBlock_keyed (refl : ∀ s, R s s) {p : Proposal} {after : Store.AfterBlock}
    (hstore : ∀ (s t : Store) nodeId stored, s.storeBlock nodeId p after = .ok (stored, t) →
      R s t) : (storeBlock p after).Keyed key R fun _ => True := by
  apply Keyed.atomic
  intro n hn
  cases hresult : n.store.storeBlock n.settings.nodeId p after with
  | error e =>
    simp only [hresult]
    exact ⟨hn, refl n.store, trivial⟩
  | ok r =>
    simp only [hresult]
    exact ⟨hn, hstore n.store r.2 n.settings.nodeId r.1 hresult, trivial⟩

/-- The steps of operations that sign what they store. -/
abbrev OwnStep (key : String → String) : Store → Store → Prop :=
  Store.SignedStep key (BatchTransaction.SignedBy key)

theorem createGenesis_keyed (validatorId : Option String) (time : Option Number) :
    (createGenesis validatorId time).Keyed key (OwnStep key) fun _ => True := by
  have refl : ∀ s, OwnStep key s s := Store.SignedStep.refl
  apply Keyed.exclusively refl
  apply Keyed.bind_look refl
  · intro found
    cases found with
    | some b => exact Keyed.pure trivial
    | none =>
      have hproposal : (Operation.look fun n => .ok (genesisProposal n.sign
          (validatorId.getD n.settings.nodeId) (time.getD n.seconds))).Keyed key (OwnStep key)
          fun answer => ∀ p, answer = .ok p → p.transactions = [] ∧ p.SignedBy key := by
        apply Keyed.look refl
        intro n hn p hp
        obtain rfl := Except.ok.inj hp
        rw [hn]
        exact ⟨rfl, rfl⟩
      apply Keyed.bind hproposal
      · intro p hp
        obtain ⟨hnone, hsigned⟩ := hp p rfl
        have hstored : (storeBlock p Store.nothingAfter).Keyed key (OwnStep key) fun _ => True := by
          apply storeBlock_keyed refl
          intro s t nodeId stored hstore
          apply Store.SignedStep.storeBlock Store.nothingAfter_keepsLedger hsigned _ hstore
          rw [hnone]
          exact fun tx htx => absurd htx List.not_mem_nil
        exact Keyed.bind_any hstored (fun _ => Keyed.pure trivial) fun _ => trivial
      · exact fun _ _ => trivial
  · exact fun _ => trivial

/-- A direct submission signs its transaction and its block. -/
theorem submit_keyed (network : Consensus.Network) (input : SubmitInput) :
    (submit network input).Keyed key (OwnStep key) fun _ => True := by
  have refl : ∀ s, OwnStep key s s := Store.SignedStep.refl
  have htx : (Operation.look fun n => .ok (input.transaction n.sign)).Keyed key (OwnStep key)
      fun answer => answer = .ok (input.transaction key) := by
    apply Keyed.look refl
    intro n hn
    rw [hn]
  apply Keyed.bind htx
  · intro tx hsame
    obtain rfl := Except.ok.inj hsame
    apply Keyed.exclusively refl
    apply Keyed.bind_any (validate_keyed refl _ _) _ fun _ => trivial
    intro violation
    cases violation with
    | some v => exact Keyed.throw trivial
    | none =>
      apply Keyed.bind (propose_keyed refl network _ _)
      · intro proposal hproposal
        cases proposal with
        | none => exact Keyed.throw trivial
        | some p =>
          have hstored : (storeBlock p Store.nothingAfter).Keyed key (OwnStep key)
              fun _ => True := by
            obtain ⟨htxs, hsigned⟩ := hproposal p rfl
            apply storeBlock_keyed refl
            intro s t nodeId stored hstore
            apply Store.SignedStep.storeBlock Store.nothingAfter_keepsLedger hsigned _ hstore
            rw [htxs]
            intro tx hmem hwell
            obtain rfl := List.mem_singleton.mp hmem
            exact input.signedBy_transaction key hwell
          apply Keyed.bind_any hstored _ fun _ => trivial
          intro stored
          exact Keyed.bind_any (broadcast_keyed refl _ _) (fun _ => Keyed.pure trivial)
            fun _ => trivial
      · exact fun _ _ => trivial
  · exact fun _ _ => trivial

theorem rejectAll_keyed (dropped : List (Submission × Batching.DropReason)) :
    (rejectAll dropped).Keyed key (OwnStep key) fun _ => True := by
  induction dropped with
  | nil => exact Keyed.pure trivial
  | cons d rest ih =>
    have hmark : (Operation.act fun n => ((), { n with
        store := n.store.markRejected d.1.row.id d.2.message })).Keyed key (OwnStep key)
        fun _ => True :=
      Keyed.atomic fun n hn => ⟨hn, Or.inl rfl, trivial⟩
    exact Keyed.bind_any hmark (fun _ => ih) fun _ => trivial

/-- The batch that a cycle puts together is signed. -/
theorem assemble_keyed (now : Number) : (assemble now).Keyed key (OwnStep key) fun answer =>
    ∀ batch, answer = .ok (.inr batch) → batch.transaction.SignedBy key := by
  have refl : ∀ s, OwnStep key s s := Store.SignedStep.refl
  have herror : ∀ (e : Fault) (batch : Batching.Batch),
      (.error e : Except Fault (CycleResult ⊕ Batching.Batch)) = .ok (.inr batch) →
      batch.transaction.SignedBy key := fun _ _ h => nomatch h
  apply Keyed.bind_look refl _ herror
  intro candidates
  cases candidates.isEmpty with
  | true =>
    simp only [if_true]
    exact Keyed.pure fun batch h => nomatch h
  | false =>
    simp only [Bool.false_eq_true, if_false]
    apply Keyed.bind_look refl _ herror
    intro onChain
    apply Keyed.bind_any (rejectAll_keyed _) _ herror
    intro _
    apply Keyed.look refl
    intro n hn batch hbatch
    have hsum := Except.ok.inj hbatch
    split at hsum
    · cases hsum
    · obtain rfl := Sum.inr.inj hsum
      rw [hn]
      exact Batching.signedBy_transaction _ _ _

theorem commit_keyed (network : Consensus.Network) (now : Number) {batch : Batching.Batch}
    (hbatch : batch.transaction.SignedBy key) :
    (commit network now batch).Keyed key (OwnStep key) fun _ => True := by
  have refl : ∀ s, OwnStep key s s := Store.SignedStep.refl
  apply Keyed.exclusively refl
  apply Keyed.bind_any (validate_keyed refl _ _) _ fun _ => trivial
  intro violation
  cases violation with
  | some v => exact Keyed.pure trivial
  | none =>
    apply Keyed.bind (propose_keyed refl network _ _)
    · intro proposal hproposal
      cases proposal with
      | none => exact Keyed.pure trivial
      | some p =>
        have hstored : (storeBlock p fun s block =>
            .ok (s.markBatched batch.ids block.txIds.head?)).Keyed key (OwnStep key)
            fun _ => True := by
          obtain ⟨htxs, hsigned⟩ := hproposal p rfl
          apply storeBlock_keyed refl
          intro s t nodeId stored hstore
          apply Store.SignedStep.storeBlock (Store.markBatched_keepsLedger _) hsigned _ hstore
          rw [htxs]
          intro tx hmem _
          obtain rfl := List.mem_singleton.mp hmem
          exact hbatch
        apply Keyed.bind_any hstored _ fun _ => trivial
        intro stored
        exact Keyed.bind_any (broadcast_keyed refl _ _) (fun _ => Keyed.pure trivial)
          fun _ => trivial
    · exact fun _ _ => trivial

/-- A batching cycle signs its transaction and its block. -/
theorem batchingCycle_keyed (network : Consensus.Network) (now : Option Number) :
    (batchingCycle network now).Keyed key (OwnStep key) fun _ => True := by
  apply Keyed.bind_look Store.SignedStep.refl _ fun _ => trivial
  intro current
  apply Keyed.bind (assemble_keyed _)
  · intro first hfirst
    cases first with
    | inl result => exact Keyed.pure trivial
    | inr batch => exact commit_keyed network _ (hfirst batch rfl)
  · exact fun _ _ => trivial

end Node

end ImageLedger
