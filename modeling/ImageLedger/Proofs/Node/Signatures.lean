import ImageLedger.Proofs.Node.DirectSubmission
import ImageLedger.Proofs.Node.Signing

namespace ImageLedger.Node

open Activity (Agent Course)

/-- What may begin so that all blocks are the node's own: a proposal is stored only after it was
returned to one of the present agents. What else goes on leaves the ledger and the key alone. -/
inductive OwnTask (agents : List (Agent Node)) : Activity.Some Node → Prop
  | commit {network : Consensus.Network} {α : Type} {op : Operation α} :
      Commits network op → OwnTask agents ⟨_, op.run⟩
  | createGenesis (validatorId : Option String) (time : Option Number) :
      OwnTask agents ⟨_, (Node.createGenesis validatorId time).run⟩
  | propose (network : Consensus.Network) (txs : List BatchTransaction) (time : Option Number) :
      OwnTask agents ⟨_, (Node.propose network txs time).run⟩
  | storeBlock {number : Nat} {network : Consensus.Network} {txs : List BatchTransaction}
      {time : Option Number} {p : Proposal} {steps : List (Node × Node)}
      (after : Store.AfterBlock) :
      ⟨number, (Node.propose network txs time).run, .done (.ok (some p)), steps⟩ ∈ agents →
      after.KeepsLedger → OwnTask agents ⟨_, (Node.storeBlock p after).run⟩
  | other (a : Activity.Some Node) :
      a.2.Within (fun n m => m.sign = n.sign ∧ n.store.SameLedger m.store) → OwnTask agents a

/-- A node with the key, and with tables that are sound and hold signed blocks. -/
structure Audited (key : String → String) (n : Node) : Prop where
  sign : n.sign = key
  sound : n.store.Sound
  blocks : n.store.BlocksSigned key

variable {key : String → String} {start : Node}

theorem Commits.keyed {network : Consensus.Network} {α : Type} {op : Operation α}
    (h : Commits network op) : op.Keyed key (OwnStep key) fun _ => True := by
  cases h with
  | submit input => exact submit_keyed network input
  | batchingCycle now => exact batchingCycle_keyed network now

/-- What a task does with the key in place, given what the storing of returned proposals does. -/
theorem OwnTask.meets {agents : List (Agent Node)} {a : Activity.Some Node} (h : OwnTask agents a)
    {R : Store → Store → Prop} (hown : ∀ s t, OwnStep key s t → R s t)
    (hstore : ∀ {number network txs time p steps}, (⟨number, (Node.propose network txs time).run,
        .done (.ok (some p)), steps⟩ : Agent Node) ∈ agents →
      ∀ {after : Store.AfterBlock}, after.KeepsLedger → ∀ s t nodeId stored,
        s.storeBlock nodeId p after = .ok (stored, t) → R s t) :
    a.2.Meets (fun n => n.sign = key) (fun n m => m.sign = key ∧ R n.store m.store)
      fun _ => True := by
  have refl : ∀ s, R s s := fun s => hown s s (Store.SignedStep.refl s)
  have weaken : ∀ {α : Type} {op : Operation α}, op.Keyed key (OwnStep key) (fun _ => True) →
      op.Keyed key R fun _ => True := fun hop =>
    hop.mono (fun _ hn => hn) (fun n m _ hnm => ⟨hnm.1, hown n.store m.store hnm.2⟩) fun _ h => h
  cases h with
  | commit hop => exact weaken hop.keyed
  | createGenesis validatorId time => exact weaken (createGenesis_keyed validatorId time)
  | propose network txs time =>
    exact (propose_keyed refl network txs time).mono (fun _ hn => hn) (fun _ _ _ hnm => hnm)
      fun _ _ => trivial
  | storeBlock after hmem hafter => exact storeBlock_keyed refl (hstore hmem hafter)
  | other a hwithin =>
    have hmeets : a.2.Meets (fun _ => True) (fun n m => m.sign = n.sign ∧
        n.store.SameLedger m.store) fun _ => True := Activity.Meets.of_within hwithin
    apply hmeets.mono (fun _ _ => trivial) _ fun _ h => h
    intro n m hn hnm
    exact ⟨hnm.1.trans hn, hown n.store m.store (Or.inl hnm.2)⟩

/-- The key stays in place, whatever proposals are stored. -/
theorem keeps_key (hkey : start.sign = key) :
    Course.Keeps OwnTask [] start (fun n => n.sign = key) fun _ m => m.sign = key ∧ True where
  start := hkey
  running := fun _ hag => absurd hag List.not_mem_nil
  begins := fun _ _ _ _ ha =>
    ha.meets (R := fun _ _ => True) (fun _ _ _ => trivial) fun _ _ _ _ _ _ _ _ => trivial
  lasts := fun _ _ _ hm => hm.1

/-- A returned proposal is signed with the key of the node that the course started with. -/
theorem signedBy_of_course {agents : List (Agent Node)} {n : Node}
    (h : Course OwnTask [] start agents n) {number : Nat} {network : Consensus.Network}
    {txs : List BatchTransaction} {time : Option Number} {p : Proposal}
    {steps : List (Node × Node)} (hmem : (⟨number, (propose network txs time).run,
      .done (.ok (some p)), steps⟩ : Agent Node) ∈ agents) : p.SignedBy start.sign := by
  have hamong := h.among (keeps_key rfl) (fun _ hag => absurd hag List.not_mem_nil) hmem
    (Nat.zero_le number)
  have hmeets : (propose network txs time).Keyed start.sign (fun _ _ => True) fun answer =>
      ∀ p, answer = .ok (some p) → p.transactions = txs ∧ p.SignedBy start.sign :=
    propose_keyed (fun _ => trivial) network txs time
  obtain ⟨hresult, -⟩ := hamong.meets hmeets
  exact (hresult p rfl).2

/-- Every step in a course from empty tables leaves the ledger or adds a signed block. -/
theorem keeps_audited (hempty : start.store = Store.empty) :
    Course.Keeps OwnTask [] start (Audited start.sign) fun n m =>
      m.sign = start.sign ∧ n.store.SignedStep start.sign (fun _ => True) m.store where
  start := by
    refine ⟨rfl, hempty ▸ Store.sound_empty, ?_⟩
    rw [hempty]
    exact fun b hb => absurd hb List.not_mem_nil
  running := fun _ hag => absurd hag List.not_mem_nil
  begins := by
    intro agents n a hcourse ha
    have hmeets : a.2.Meets (fun n => n.sign = start.sign) (fun n m => m.sign = start.sign ∧
        n.store.SignedStep start.sign (fun _ => True) m.store) fun _ => True := by
      apply ha.meets fun s t hst => hst.mono fun _ _ => trivial
      intro number network txs time p steps hmem after hafter s t nodeId stored hstore
      exact Store.SignedStep.storeBlock hafter (signedBy_of_course hcourse hmem)
        (fun _ _ _ => trivial) hstore
    exact hmeets.mono (fun _ hn => hn.sign) (fun _ _ _ hnm => hnm) fun _ h => h
  lasts := fun n m hn hnm => ⟨hnm.1, hn.sound.step hnm.2.ledgerStep, hn.blocks.step hn.sound hnm.2⟩

/-- On a ledger that holds the node's own blocks alone, the signature of each block is that of the
node's key for the text put together from its row and the hashes of its transactions in the order
of their numbers. A transaction that a direct submission or a batching cycle wrote carries the
signature of the key for its sorted image hashes. -/
theorem signatures_of_course (start : Node) (hempty : start.store = Store.empty)
    {agents : List (Agent Node)} {n : Node} (h : Course OwnTask [] start agents n) :
    n.store.BlocksSigned start.sign ∧
    ∀ {network : Consensus.Network} {α : Type} {op : Operation α}, Commits network op →
      ∀ {number rest steps}, (⟨number, op.run, rest, steps⟩ : Agent Node) ∈ agents →
        ∀ own ∈ steps, ∀ tx ∈ own.2.store.transactions, tx ∉ own.1.store.transactions →
          tx ∈ n.store.transactions ∧
            tx.signature = start.sign (batchPayload (n.store.hashesOf tx.txId)) := by
  have hkeeps := keeps_audited hempty
  obtain ⟨haudited, -⟩ := h.invariant hkeeps
  refine ⟨haudited.blocks, fun {network α op} hop {number rest steps} hmem => ?_⟩
  intro own hown tx htx hnew
  have hamong := h.among hkeeps (fun _ hag => absurd hag List.not_mem_nil) hmem (Nat.zero_le number)
  have hkeyed : Activity.Meets (Audited start.sign) (fun n m => m.sign = start.sign ∧
      OwnStep start.sign n.store m.store) (fun _ => True) op.run :=
    (hop.keyed).mono (fun _ hn => hn.sign) (fun _ _ _ hnm => hnm) fun _ h => h
  obtain ⟨-, hsteps⟩ := hamong.meets hkeyed
  obtain ⟨hfound, -, hstep⟩ := hsteps own hown
  have hkept : own.2.store.EntriesKept n.store := by
    have hothers : op.run.Among (Audited start.sign) (fun n m => n.store.EntriesKept m.store)
        steps rest n :=
      hamong.mono (fun _ hn => hn) fun _ _ hnm => hnm.2.ledgerStep.entriesKept
    have hmeets : op.run.Meets (Audited start.sign)
        (fun n m => n.store.EntriesKept m.store) fun _ => True :=
      hkeyed.mono (fun _ hn => hn) (fun _ _ _ hnm => hnm.2.ledgerStep.entriesKept) fun _ h => h
    exact hothers.since (fun n => .refl n.store) (fun _ _ _ hnm hmk => hnm.trans hmk) hmeets
      own hown
  obtain ⟨entries, hrec⟩ := hfound.sound.recorded
  exact hstep.signature_eq hrec hkept htx hnew

/-- One hash is submitted, and the ledger is audited. -/
theorem signatures_lone : ∃ (agents : List (Agent Node)) (n : Node),
    Course OwnTask [] lone agents n ∧ n.store.blocks.length = 1 ∧ n.store.BlocksSigned id ∧
    ∃ tx ∈ n.store.transactions, tx.signature = batchPayload (n.store.hashesOf tx.txId) := by
  obtain ⟨result, n, -, hblocks, htxs, hrun⟩ := exists_submit_lone
  have hcommits : Commits .silent (submit .silent loneInput) := .submit loneInput
  have hbegin : Course OwnTask [] lone [.fresh 0 ⟨_, (submit .silent loneInput).run⟩] lone :=
    .begin _ (.commit hcommits) .start
  obtain ⟨steps, hchained, hcourse⟩ := hbegin.run hrun
  obtain ⟨tx, htx⟩ : ∃ tx, tx ∈ n.store.transactions :=
    List.exists_mem_of_length_pos (by omega)
  have hnone : tx ∉ lone.store.transactions := List.not_mem_nil
  obtain ⟨own, hown, hnew, hthere⟩ :=
    hchained.exists_step (P := fun m => tx ∈ m.store.transactions) hnone htx
  obtain ⟨hsigned, hwritten⟩ := signatures_of_course lone rfl hcourse
  obtain ⟨hmem, hsignature⟩ :=
    hwritten hcommits (List.mem_singleton_self _) own hown tx hthere hnew
  exact ⟨_, n, hcourse, hblocks, hsigned, tx, hmem, hsignature⟩

end ImageLedger.Node
