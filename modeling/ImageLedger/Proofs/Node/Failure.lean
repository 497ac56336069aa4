import ImageLedger.Proofs.Activity.Turns
import ImageLedger.Proofs.Node.DirectSubmission

namespace ImageLedger

namespace Store

/-- The ledger stays as it is, and so do the submissions that are on it. -/
structure CommitsNothing (s t : Store) : Prop where
  ledger : s.SameLedger t
  batched : t.submissions.map (fun row => (row.id, row.batched)) =
    s.submissions.map fun row => (row.id, row.batched)

variable {s t u : Store}

theorem CommitsNothing.refl (s : Store) : s.CommitsNothing s := ⟨s.sameLedger_refl, rfl⟩

theorem CommitsNothing.trans (h : s.CommitsNothing t) (h' : t.CommitsNothing u) :
    s.CommitsNothing u := by
  refine ⟨?_, h'.batched.trans h.batched⟩
  have hledger := h'.ledger
  rw [h.ledger] at hledger
  exact hledger

theorem CommitsNothing.blocks (h : s.CommitsNothing t) : t.blocks = s.blocks := by
  rw [h.ledger]

theorem commitsNothing_markRejected (s : Store) (id : Nat) (message : String) :
    s.CommitsNothing (s.markRejected id message) := by
  refine ⟨rfl, ?_⟩
  simp only [markRejected, updateRow, List.map_map]
  apply List.map_congr_left
  intro row _
  dsimp only [Function.comp]
  split <;> rfl

/-- A block is added. -/
def AddsBlock (s t : Store) : Prop := s.blocks.length < t.blocks.length

theorem AddsBlock.not_commitsNothing (h : s.AddsBlock t) : ¬ s.CommitsNothing t := by
  intro hnothing
  rw [AddsBlock, hnothing.blocks] at h
  exact Nat.lt_irrefl _ h

theorem addsBlock_of_storeBlock {nodeId : String} {p : Proposal} {after : AfterBlock}
    {stored : StoredBlock} (hafter : after.KeepsLedger)
    (h : s.storeBlock nodeId p after = .ok (stored, t)) : s.AddsBlock t := by
  obtain ⟨new, -, -, hok⟩ := storeBlock_eq_ok.mp h
  have hledger : (s.extend nodeId p new).SameLedger t := hafter _ _ _ hok
  rw [hledger]
  change s.blocks.length < (s.blocks ++ [s.nextBlock p]).length
  simp

end Store

/-- The failure to announce a block to the peers. -/
def Fault.OfAnnouncement (e : Fault) : Prop :=
  ∃ text, e = .consensus (.announcementFailed text)

namespace Operation

variable {I : Node → Prop} {network : Consensus.Network} {α β : Type}

/-- An outcome that is no failure of an announcement. -/
def Early (answer : Except Fault α) : Prop := ∀ e, answer = .error e → ¬ e.OfAnnouncement

/-- An outcome that is no failure other than that of an announcement to the peers of a node with
`I`. -/
def Late (network : Consensus.Network) (I : Node → Prop) (answer : Except Fault α) : Prop :=
  ∀ e, answer = .error e → ∃ text n, e = .consensus (.announcementFailed text) ∧
    network.announcementFailure = some text ∧ I n ∧ n.engine.mode = .poa

/-- The operation commits nothing, and does not fail for an announcement. -/
def Harmless (I : Node → Prop) (op : Operation α) : Prop :=
  op.run.Meets I (fun n m => n.store.CommitsNothing m.store) Early

/-- The operation adds a block once at most. Its failures are those of an announcement afterwards,
and others before. -/
def CommitsOnce (network : Consensus.Network) (I : Node → Prop) (op : Operation α) : Prop :=
  op.run.Turns I (fun n m => n.store.CommitsNothing m.store) (fun n m => n.store.AddsBlock m.store)
    Early (Late network I)

theorem Harmless.pure (a : α) : Harmless I (pure a : Operation α) := nofun

theorem Harmless.atomic {act : Node → Except Fault α × Node}
    (h : ∀ n, n.store.CommitsNothing (act n).2.store ∧ Early (act n).1) :
    Harmless I (Activity.atomic act) :=
  Activity.Meets.atomic fun n _ => h n

theorem Harmless.look {f : Node → Except Fault α} (h : ∀ n, Early (f n)) : (look f).Harmless I :=
  Harmless.atomic fun n => ⟨.refl n.store, h n⟩

theorem Harmless.see (f : Node → α) : (Operation.look fun n => .ok (f n)).Harmless I :=
  Harmless.look fun _ => nofun

theorem Harmless.bind {op : Operation α} {f : α → Operation β} (hop : op.Harmless I)
    (hf : ∀ a, (f a).Harmless I) : (op >>= f).Harmless I := by
  apply Activity.Meets.andThen hop
  intro result hearly
  cases result with
  | error e => exact fun e' he' => hearly e' (congrArg Except.error (Except.error.inj he'))
  | ok a => exact hf a

theorem CommitsOnce.of_harmless {op : Operation α} (hop : op.Harmless I) :
    op.CommitsOnce network I :=
  Activity.Turns.of_meets hop

theorem CommitsOnce.throw {e : Fault} (h : ¬ e.OfAnnouncement) :
    CommitsOnce network I (throw e : Operation α) := by
  intro e' he'
  obtain rfl := Except.error.inj he'
  exact h

theorem CommitsOnce.bind {op : Operation α} {f : α → Operation β} (hop : op.Harmless I)
    (hf : ∀ a, (f a).CommitsOnce network I) : (op >>= f).CommitsOnce network I := by
  apply Activity.Turns.after_meets hop
  intro result hearly
  cases result with
  | error e => exact fun e' he' => hearly e' (congrArg Except.error (Except.error.inj he'))
  | ok a => exact hf a

/-- The lock is no part of the tables. -/
theorem CommitsOnce.exclusively {op : Operation α} (hop : op.CommitsOnce network I) :
    (exclusively op).CommitsOnce network I := by
  have hquiet : ∀ {γ : Type} (act : Node → γ × Node), (∀ n, (act n).2.store = n.store) →
      (Activity.atomic act).Meets I (fun n m => n.store.CommitsNothing m.store) fun _ => True := by
    intro γ act hstore
    apply Activity.Meets.atomic
    intro n _
    rw [hstore]
    exact ⟨.refl n.store, trivial⟩
  apply Activity.Turns.after_meets (hquiet _ fun _ => rfl)
  intro ticket _
  apply Activity.Turns.after_meets (Activity.Meets.await fun n _ => .refl n.store)
  intro _ _
  apply Activity.Turns.andThen hop
  · intro result hearly
    exact Activity.Turns.of_meets ((hquiet _ fun _ => rfl).andThen fun _ _ => hearly)
  · intro result hlate
    exact (hquiet _ fun _ => rfl).andThen fun _ _ => hlate

end Operation

namespace Node

open Operation

variable {I : Node → Prop} {network : Consensus.Network}

theorem validate_harmless (tx : ReceivedBatch) (now : Option Number) :
    (validate tx now).Harmless I :=
  Harmless.see _

theorem propose_harmless (network : Consensus.Network) (txs : List BatchTransaction)
    (time : Option Number) : (propose network txs time).Harmless I := by
  apply Harmless.bind (Harmless.see _)
  intro tip
  apply Harmless.atomic
  intro n
  refine ⟨.refl n.store, fun e he => ?_⟩
  dsimp only at he
  cases hanswer : (n.engine.propose n.sign network tip txs (time.getD n.seconds)).1 with
  | ok proposal => simp [hanswer, Except.mapError] at he
  | error error =>
    obtain ⟨height, approvals, validators, quorum, rfl⟩ :=
      Consensus.Engine.refused_of_propose hanswer
    simp only [hanswer, Except.mapError, Except.error.injEq] at he
    rw [← he]
    exact nofun

/-- A block that is stored is announced at once; nothing else can go wrong after that. -/
theorem storeBlock_commitsOnce {α : Type} (p : Proposal) {after : Store.AfterBlock}
    (hafter : after.KeepsLedger) (height : Option Number) (result : StoredBlock → α) :
    (do
      let stored ← storeBlock p after
      broadcast network height
      return result stored : Operation α).CommitsOnce network I := by
  have hstored : (storeBlock p after).run.Turns I (fun n m => n.store.CommitsNothing m.store)
      (fun n m => n.store.AddsBlock m.store) (fun answer => ∃ e, answer = .error (.store e))
      (fun answer => ∃ stored, answer = .ok stored) := by
    intro n _ _
    cases hresult : n.store.storeBlock n.settings.nodeId p after with
    | error e =>
      left
      simp only [hresult]
      exact ⟨.refl n.store, e, rfl⟩
    | ok r =>
      right
      simp only [hresult]
      exact ⟨Store.addsBlock_of_storeBlock hafter hresult, r.1, rfl⟩
  have hannounced : (broadcast network height).run.Meets I
      (fun n m => n.store.CommitsNothing m.store) (Late network I) := by
    apply Activity.Meets.atomic
    intro n hn
    refine ⟨.refl n.store, fun e he => ?_⟩
    dsimp only at he
    cases hanswer : (n.engine.broadcast network height).1 with
    | ok _ => simp [hanswer, Except.mapError] at he
    | error error =>
      obtain ⟨hmode, text, hfailure, rfl⟩ := Consensus.Engine.failure_of_broadcast hanswer
      simp only [hanswer, Except.mapError, Except.error.injEq] at he
      exact ⟨text, n, he.symm, hfailure, hn, hmode⟩
  apply Activity.Turns.andThen hstored
  · rintro _ ⟨e, rfl⟩
    exact CommitsOnce.throw nofun
  · rintro _ ⟨stored, rfl⟩
    apply Activity.Meets.andThen hannounced
    intro answer hlate
    cases answer with
    | ok _ => exact nofun
    | error e => exact fun e' he' => hlate e' (congrArg Except.error (Except.error.inj he'))

theorem submit_commitsOnce (network : Consensus.Network) (input : SubmitInput) :
    (submit network input).CommitsOnce network I := by
  apply CommitsOnce.bind (Harmless.see _)
  intro tx
  apply CommitsOnce.exclusively
  apply CommitsOnce.bind (validate_harmless _ _)
  intro violation
  cases violation with
  | some v => exact CommitsOnce.throw nofun
  | none =>
    apply CommitsOnce.bind (propose_harmless _ _ _)
    intro proposal
    cases proposal with
    | none => exact CommitsOnce.throw nofun
    | some p => exact storeBlock_commitsOnce p Store.nothingAfter_keepsLedger _ _

theorem rejectAll_harmless (dropped : List (Submission × Batching.DropReason)) :
    (rejectAll dropped).Harmless I := by
  induction dropped with
  | nil => exact Harmless.pure ()
  | cons d rest ih =>
    have hreject : (Operation.act fun n : Node => ((), { n with
        store := n.store.markRejected d.1.row.id d.2.message })).Harmless I :=
      Harmless.atomic fun n => ⟨Store.commitsNothing_markRejected n.store _ _, nofun⟩
    exact Harmless.bind hreject fun _ => ih

theorem assemble_harmless (now : Number) : (assemble now).Harmless I := by
  have hfound : ∀ {α ε : Type} (answer : Except ε α) (f : ε → Fault),
      (∀ e text, f e ≠ .consensus (.announcementFailed text)) → Early (answer.mapError f) := by
    intro α ε answer f hf e he
    cases answer with
    | ok a => cases he
    | error error =>
      obtain rfl := Except.error.inj he
      rintro ⟨text, htext⟩
      exact hf error text htext
  apply Harmless.bind (Harmless.look fun n => hfound _ .submission fun _ _ => nofun)
  intro candidates
  cases candidates.isEmpty with
  | true =>
    simp only [if_true]
    exact Harmless.pure _
  | false =>
    simp only [Bool.false_eq_true, if_false]
    apply Harmless.bind (Harmless.look fun n => hfound _ .store fun _ _ => nofun)
    intro onChain
    apply Harmless.bind (rejectAll_harmless _)
    exact fun _ => Harmless.see _

theorem batchingCycle_commitsOnce (network : Consensus.Network) (now : Option Number) :
    (batchingCycle network now).CommitsOnce network I := by
  apply CommitsOnce.bind (Harmless.see _)
  intro current
  apply CommitsOnce.bind (assemble_harmless _)
  intro first
  cases first with
  | inl result => exact CommitsOnce.of_harmless (Harmless.pure result)
  | inr batch =>
    apply CommitsOnce.exclusively
    apply CommitsOnce.bind (validate_harmless _ _)
    intro violation
    cases violation with
    | some v => exact CommitsOnce.of_harmless (Harmless.pure _)
    | none =>
      apply CommitsOnce.bind (propose_harmless _ _ _)
      intro proposal
      cases proposal with
      | none => exact CommitsOnce.of_harmless (Harmless.pure _)
      | some p => exact storeBlock_commitsOnce p (Store.markBatched_keepsLedger batch.ids) _ _

theorem Commits.commitsOnce {α : Type} {op : Operation α} (h : Commits network op) :
    op.CommitsOnce network I := by
  cases h with
  | submit input => exact submit_commitsOnce network input
  | batchingCycle now => exact batchingCycle_commitsOnce network now

/-- A submission or a batching cycle that fails has committed nothing, whether alone or among
others, exactly when what failed is not an announcement. A failed announcement is one to the peers
of a node that asks validators. -/
theorem commitsNothing_iff_of_failure {network : Consensus.Network} {α : Type} {op : Operation α}
    (hop : Commits network op) (e : Fault) :
    (∀ {n k}, op.perform n = some (.error e, k) →
      (n.store.CommitsNothing k.store ↔ ¬ e.OfAnnouncement)) ∧
    ∀ {steps n}, op.run.Among (fun _ => True) (fun _ _ => True) steps (.done (.error e)) n →
      ((∀ own ∈ steps, own.1.store.CommitsNothing own.2.store) ↔ ¬ e.OfAnnouncement) ∧
      ∀ text, e = .consensus (.announcementFailed text) →
        network.announcementFailure = some text ∧ ∃ own ∈ steps, own.1.engine.mode = .poa := by
  constructor
  · intro n k hrun
    have honce : op.CommitsOnce network fun _ => True := hop.commitsOnce
    have hends := Activity.Turns.run (fun n => .refl n.store) (fun _ _ _ h h' => h.trans h')
      (fun n m k h h' => ?_) (fun n m k h h' => ?_) honce hrun
    · rcases hends with ⟨hnothing, hearly⟩ | ⟨hadds, hlate⟩
      · exact iff_of_true hnothing (hearly e rfl)
      · obtain ⟨text, -, he, -⟩ := hlate e rfl
        exact iff_of_false hadds.not_commitsNothing (not_not_intro ⟨text, he⟩)
    · rw [Store.AddsBlock, h.blocks] at h'
      exact h'
    · rw [Store.AddsBlock, ← h'.blocks] at h
      exact h
  · intro steps n hamong
    have honce : op.CommitsOnce network fun n => ∃ own ∈ steps, own.1 = n := hop.commitsOnce
    rcases honce.among hamong fun own hown => ⟨own, hown, rfl⟩ with
      ⟨hearly, hnothing⟩ | ⟨hlate, own, hown, hadds⟩
    · have hother : ¬ e.OfAnnouncement := hearly e rfl
      exact ⟨iff_of_true hnothing hother, fun text he => absurd ⟨text, he⟩ hother⟩
    · obtain ⟨text, n, he, hfailure, ⟨asked, hasked, rfl⟩, hmode⟩ := hlate e rfl
      refine ⟨iff_of_false (fun hall => hadds.not_commitsNothing (hall own hown))
        (not_not_intro ⟨text, he⟩), fun text' he' => ?_⟩
      rw [he] at he'
      cases he'
      exact ⟨hfailure, asked, hasked, hmode⟩

/-- No hash at all. -/
def blankInput : SubmitInput := { loneInput with imageHash := "" }

/-- A text that is no hash is refused, and nothing is committed. -/
theorem refused_commits_nothing : ∃ v k,
    (submit .silent blankInput).perform lone = some (.error (.rejected v), k) ∧
      lone.store.CommitsNothing k.store := by
  have hsome :
      (lone.violation lone.seconds (blankInput.transaction lone.sign).received).isSome = true := by
    decide +kernel
  obtain ⟨v, hv⟩ := Option.isSome_iff_exists.mp hsome
  obtain ⟨k, hrun⟩ : ∃ k, (submit .silent blankInput).perform lone =
      some (.error (.rejected v), k) := ⟨_, perform_submit_rejected rfl hv⟩
  have hcommits : Commits .silent (submit .silent blankInput) := .submit blankInput
  exact ⟨v, k, hrun, ((commitsNothing_iff_of_failure hcommits _).1 hrun).mpr nofun⟩

/-- One of two validators. -/
def paired : Node := { lone with engine := ⟨.poa, "lone", ["lone", "peer"], none, [], []⟩ }

/-- The other validator approves of every block, and cannot be told of one. -/
def unreachable : Consensus.Network where
  arrivals hash := [⟨"peer", .vote "peer" hash true⟩]
  announcementFailure := some "peer unreachable"

theorem approvals_paired (p : Proposal) :
    (paired.engine.roundOn unreachable p).approvals = ["lone", "peer"] := by
  simp [Consensus.Engine.roundOn, Consensus.Round.close, Consensus.Round.begin,
    Consensus.Round.collect, Consensus.Round.hear, Consensus.Round.record,
    Consensus.Round.approve, Consensus.Round.decided, Consensus.Round.outstanding,
    Consensus.quorumSize, Consensus.Engine.peers, paired, unreachable]

/-- A submission fails although its block is on the ledger from then on. The hash is rejected when
it is submitted again. -/
theorem failed_after_commit : ∃ k,
    (submit unreachable loneInput).perform paired =
      some (.error (.consensus (.announcementFailed "peer unreachable")), k) ∧
    k.store.blocks.length = 1 ∧ ¬ paired.store.CommitsNothing k.store ∧
    ∃ v l, (submit unreachable loneInput).perform k = some (.error (.rejected v), l) := by
  obtain ⟨p, hp⟩ : ∃ p, p = Consensus.buildProposal lone.sign paired.engine.validatorId lone.tip
      [loneInput.transaction lone.sign] lone.seconds := ⟨_, rfl⟩
  have hpropose := Consensus.Engine.propose_poa (e := paired.engine) rfl lone.sign unreachable
    lone.tip (List.cons_ne_nil (loneInput.transaction lone.sign) []) lone.seconds hp
  rw [approvals_paired] at hpropose
  obtain ⟨result, k, hfree, hblocks, -, ⟨r, hr, hrecorded⟩, hrun⟩ :=
    exists_submit_first paired.engine unreachable hp hpropose rfl
  have hadds : paired.store.AddsBlock k.store := by
    rw [Store.AddsBlock, hblocks]
    exact Nat.zero_lt_one
  have hlower : HashText.Lowercase r.imageHash := by
    rw [hrecorded.imageHash]
    exact (HashText.normalize?_self_iff _).mp (by decide +kernel)
  obtain ⟨v, hv⟩ := exists_violation_of_onChain hlower hrecorded.imageHash.symm hr k.sign k.seconds
  exact ⟨k, hrun, hblocks, hadds.not_commitsNothing, v, _, perform_submit_rejected hfree hv⟩

end Node

end ImageLedger
