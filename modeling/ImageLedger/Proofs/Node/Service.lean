import ImageLedger.Proofs.Json.WholeNumbers
import ImageLedger.Proofs.Node.Changes
import ImageLedger.Proofs.Node.IntakeSteps

namespace ImageLedger

/-- Work that is done with a block in service: none, or the marking of submissions. -/
inductive Store.AfterBlock.Routine : Store.AfterBlock → Prop
  | nothing : Routine Store.nothingAfter
  | mark (ids : List Nat) : Routine fun s block => .ok (s.markBatched ids block.txIds.head?)

/-- The scope of what is done in service. -/
def Node.Scope.service : Node.Scope := ⟨Store.AfterBlock.Routine, Intake.Proper, True, True⟩

/-- Every step of the operation is one that is taken in service. -/
abbrev Operation.Serves {α : Type} (op : Operation α) : Prop := op.Changes .service

namespace Http

open Operation.Changes Store.AfterBlock

variable {α : Type}

theorem answering_serves {status : Nat} {encode : α → Json} {op : Operation α} (hop : op.Serves) :
    (answering status encode op).Serves :=
  hop.bind fun _ => .pure _

theorem found_serves (resource : String) (value : Option α) : (found resource value).Serves := by
  cases value with
  | none => exact .throw _
  | some a => exact .pure a

theorem pathHash_serves (raw : String) : (pathHash raw).Serves := by
  unfold pathHash
  split
  · exact .pure _
  · exact .throw _

theorem answerBlock_serves (resource : String) (lookup : Store → Option Block) :
    (answerBlock resource lookup).Serves :=
  answering_serves (.bind (.look _) fun _ => found_serves _ _)

theorem intake_serves {r : Except FieldError Draft} (h : ∀ d, r = .ok d → Intake.Proper d) :
    (ofField r >>= Node.intake).Serves := by
  refine .look_bind fun n d hd => Node.intake_changes (h d ?_)
  cases r with
  | error e => cases hd
  | ok d' => exact congrArg Except.ok (Except.ok.inj hd)

theorem triggerBatching_serves (network : Consensus.Network) :
    (Node.triggerBatching network).Serves := by
  refine .bind (.act fun n => .beside rfl rfl rfl rfl) fun begun => ?_
  cases begun with
  | false => exact .pure _
  | true =>
    refine .bind (.outcome (Node.batchingCycle_changes trivial Routine.mark network none))
      fun result => ?_
    refine .bind (.act fun n => .beside rfl rfl rfl rfl) fun _ => ?_
    cases result with
    | error e => exact .throw e
    | ok r => exact .pure _

/-- Whatever a request asks for, its steps are those of a node in service. -/
theorem answer_serves (s : Surroundings) (body : Json) (route : Route) :
    (answer s body route).Serves := by
  cases route with
  | health | version | status | cacheStatistics => exact .look _
  | createSubmission => exact answering_serves (intake_serves fun d => Intake.proper_of_readToken)
  | createCertificateSubmission =>
    exact answering_serves (intake_serves fun d => Intake.proper_of_readCertificate)
  | submission receiptId => exact answering_serves (.bind (.look _) fun _ => found_serves _ _)
  | submitDirect =>
    exact .bind (.look _) fun input =>
      .bind (Node.submit_changes Routine.nothing _ _) fun _ => .pure _
  | verify raw => exact answering_serves (.bind (pathHash_serves raw) fun _ => .look _)
  | proof raw =>
    exact answering_serves (.bind (pathHash_serves raw) fun _ =>
      .bind (.look _) fun _ => found_serves _ _)
  | provenance raw =>
    refine .bind (pathHash_serves raw) fun _ => .bind (.look _) fun links => ?_
    cases links.isEmpty with
    | true => exact .throw _
    | false => exact .pure _
  | latestBlock => exact answerBlock_serves _ _
  | blockByHash raw =>
    simp only [answer]
    split_ifs
    · exact answerBlock_serves _ _
    · exact .throw _
  | blockByHeight raw => exact .bind (.look _) fun _ => answerBlock_serves _ _
  | cacheCleanup =>
    refine Activity.Within.atomic fun n => ?_
    exact .beside rfl rfl rfl rfl
  | runBatching =>
    refine .bind (triggerBatching_serves _) fun result => ?_
    cases result with
    | none => exact .throw _
    | some r => exact .pure _

end Http

namespace Node

open Store.AfterBlock

/-- What a node in service is asked to do. -/
inductive Duty : Activity.Some Node → Prop
  | answer (s : Http.Surroundings) (body : Json) (route : Http.Route) :
      Duty ⟨_, (Http.answer s body route).run⟩
  | batchingCycle (network : Consensus.Network) (now : Option Number) :
      Duty ⟨_, (Node.batchingCycle network now).run⟩
  | validationCycle (replies : Nat → Authority.Reply) (now limit : Option Number) :
      Duty ⟨_, (Node.validationCycle replies now limit).run⟩
  | storeBlock (p : Proposal) {after : Store.AfterBlock} : Routine after →
      Duty ⟨_, (Node.storeBlock p after).run⟩
  | createGenesis (validatorId : Option String) (time : Option Number) :
      Duty ⟨_, (Node.createGenesis validatorId time).run⟩
  | submit (network : Consensus.Network) (input : SubmitInput) :
      Duty ⟨_, (Node.submit network input).run⟩
  | clock (milliseconds : Int) :
      Duty ⟨_, Activity.change fun n : Node => n.advance milliseconds⟩

/-- A state that a node in service gets to from the first one, with any number of its duties under
way at the same time. -/
def ServesFrom (start n : Node) : Prop :=
  ∃ pool : List (Activity.Some Node), Activity.Reach Duty start pool n

theorem Duty.changes {a : Activity.Some Node} (h : Duty a) : a.2.Within (Change .service) := by
  cases h with
  | answer s body route => exact Http.answer_serves s body route
  | batchingCycle network now => exact batchingCycle_changes trivial Routine.mark network now
  | validationCycle replies now limit => exact validationCycle_changes trivial replies now limit
  | storeBlock p hafter => exact storeBlock_changes p hafter
  | createGenesis validatorId time => exact createGenesis_changes Routine.nothing validatorId time
  | submit network input => exact submit_changes Routine.nothing network input
  | clock milliseconds => exact Activity.Within.atomic fun n => .beside rfl rfl rfl rfl

/-- The number of a receipt can be read from it. -/
theorem receiptId_injective : Function.Injective receiptId := by
  have hvalue : ∀ count, Json.digitsValue
      (List.replicate (12 - (Nat.toDigits 10 count).length) '0' ++ Nat.toDigits 10 count) =
        count := by
    intro count
    rw [Json.digitsValue_append, Json.digitsValue_zeros, Nat.mul_zero, Nat.zero_add,
      Json.digitsValue_toDigits]
  intro a b h
  have hdigits := String.append_right_inj _ |>.mp h
  rw [← hvalue a, ← hvalue b, String.ofList_inj.mp hdigits]

/-- A node whose tables spell all hashes small, and whose submissions have receipts that it gave
out. -/
structure WellKept (n : Node) : Prop where
  submissions : ∀ row ∈ n.store.submissions,
    HashText.lower row.entry.imageHash = row.entry.imageHash
  images : ∀ r ∈ n.store.images, HashText.lower r.imageHash = r.imageHash
  receipts : ∀ row ∈ n.store.submissions, ∃ count ≤ n.receipts, row.receiptId = receiptId count

namespace WellKept

variable {n m : Node}

/-- Submissions may change in any way that leaves their entries and receipts alone. -/
theorem map (h : n.WellKept) {f : SubmissionRow → SubmissionRow}
    (hrows : m.store.submissions = n.store.submissions.map f)
    (hf : ∀ row, (f row).entry = row.entry ∧ (f row).receiptId = row.receiptId)
    (himages : ∀ r ∈ m.store.images, HashText.lower r.imageHash = r.imageHash)
    (hreceipts : m.receipts = n.receipts) : m.WellKept := by
  refine ⟨?_, himages, ?_⟩
  · rw [hrows]
    refine List.forall_mem_map.mpr fun row hrow => ?_
    rw [(hf row).1]
    exact h.submissions row hrow
  · rw [hrows, hreceipts]
    refine List.forall_mem_map.mpr fun row hrow => ?_
    rw [(hf row).2]
    exact h.receipts row hrow

/-- The records of a block are named by hashes that are spelt small. -/
theorem images_extend (h : n.WellKept) (nodeId : String) (p : Proposal) (entries : List Entry) :
    ∀ r ∈ (n.store.extend nodeId p entries).images, HashText.lower r.imageHash = r.imageHash := by
  intro r hr
  rcases List.mem_append.mp hr with hr | hr
  · exact h.images r hr
  · obtain ⟨e, -, hr⟩ := List.mem_flatMap.mp hr
    have hlowercase := Entry.lowercase_of_mem_hashes (Entry.imageHash_mem_hashes hr)
    rw [← HashText.normalize?_self_iff, HashText.normalize?_eq_some] at hlowercase
    exact hlowercase.2

theorem change (h : n.WellKept) (hchange : n.Change .service m) : m.WellKept := by
  cases hchange with
  | beside _ _ hstore hreceipts =>
    refine h.map (f := id) ?_ (fun _ => ⟨rfl, rfl⟩) ?_ hreceipts
    · rw [hstore, List.map_id]
    · exact hstore ▸ h.images
  | @block p after stored t hafter hstore =>
    obtain ⟨entries, -, -, hdone⟩ := Store.storeBlock_eq_ok.mp hstore
    have himages := h.images_extend n.settings.nodeId p entries
    cases hafter with
    | nothing =>
      obtain rfl := Except.ok.inj hdone
      exact h.map (f := id) (List.map_id _).symm (fun _ => ⟨rfl, rfl⟩) himages rfl
    | mark ids =>
      obtain rfl := Except.ok.inj hdone
      refine h.map rfl (fun row => ?_) himages rfl
      split_ifs <;> exact ⟨rfl, rfl⟩
  | reject id message =>
    refine h.map rfl (fun row => ?_) h.images rfl
    split_ifs <;> exact ⟨rfl, rfl⟩
  | record id u =>
    refine h.map rfl (fun row => ?_) h.images rfl
    split_ifs <;> exact ⟨rfl, rfl⟩
  | stage hd =>
    refine ⟨?_, h.images, ?_⟩
    · exact List.forall_mem_append.mpr ⟨h.submissions, List.forall_mem_singleton.mpr hd.lowercase⟩
    · refine List.forall_mem_append.mpr ⟨fun row hrow => ?_, ?_⟩
      · obtain ⟨count, hle, hid⟩ := h.receipts row hrow
        exact ⟨count, Nat.le_succ_of_le hle, hid⟩
      · exact List.forall_mem_singleton.mpr ⟨n.receipts + 1, Nat.le_refl _, rfl⟩

/-- The next receipt was not given out before. -/
theorem fresh (h : n.WellKept) :
    ∀ row ∈ n.store.submissions, row.receiptId ≠ receiptId (n.receipts + 1) := by
  intro row hrow hid
  obtain ⟨count, hle, hcount⟩ := h.receipts row hrow
  have hsame : count = n.receipts + 1 := receiptId_injective (hcount.symm.trans hid)
  omega

end WellKept

/-- A node that began with empty tables keeps them well in service. -/
theorem ServesFrom.wellKept {start n : Node} (hempty : start.store = .empty)
    (h : ServesFrom start n) : n.WellKept := by
  obtain ⟨pool, hreach⟩ := h
  have hstart : start.WellKept := by constructor <;> simp [hempty, Store.empty]
  exact hreach.invariant hstart (fun a ha => ha.changes) fun _ _ hchange hn => hn.change hchange

end Node

end ImageLedger
