import ImageLedger.Proofs.Activity.Course
import ImageLedger.Proofs.Node.AcceptedBatch
import ImageLedger.Proofs.Node.BatchingCycle
import ImageLedger.Proofs.Node.ChainIntegrity
import ImageLedger.Proofs.Node.ServedProof

namespace ImageLedger

/-- A whole number of seconds is rounded down to a whole number of minutes. -/
theorem roundToMinute_natCast (n : Nat) :
    roundToMinute (.finite n) = Number.ofNat (60 * (n / 60)) := by
  have hsixty : (60 : Number) = .finite 60 := by decide
  have hne : ¬ ((60 : Rat) = 0) := by norm_num
  have htrunc : Number.truncRat ((n : Rat) / 60) = (n / 60 : Nat) := by
    have hnonneg : ¬ ((n : Rat) / 60 < 0) := not_lt.mpr (by positivity)
    have hfloor := Rat.floor_intCast_div_natCast n 60
    rw [Int.cast_natCast, Nat.cast_ofNat] at hfloor
    rw [Number.truncRat, if_neg hnonneg, Int.natCast_div]
    exact hfloor
  rw [roundToMinute, hsixty, Number.rem, if_neg hne, htrunc, Number.sub, Number.neg, Number.add,
    Number.ofNat]
  generalize n / 60 = minutes
  congr 1
  push_cast
  ring

namespace Store

/-- Blocks and all that belongs to them are added at the end, and none is changed or removed. -/
structure Grows (s t : Store) : Prop where
  blocks : s.blocks <+: t.blocks
  transactions : s.transactions <+: t.transactions
  images : s.images <+: t.images
  proofs : s.proofs <+: t.proofs

theorem Grows.refl (s : Store) : s.Grows s :=
  ⟨List.prefix_rfl, List.prefix_rfl, List.prefix_rfl, List.prefix_rfl⟩

theorem Grows.trans {s t u : Store} (h : s.Grows t) (h' : t.Grows u) : s.Grows u :=
  ⟨h.blocks.trans h'.blocks, h.transactions.trans h'.transactions, h.images.trans h'.images,
    h.proofs.trans h'.proofs⟩

theorem SameLedger.grows {s t : Store} (h : s.SameLedger t) : s.Grows t := by
  rw [h]
  exact ⟨List.prefix_rfl, List.prefix_rfl, List.prefix_rfl, List.prefix_rfl⟩

theorem LedgerStep.grows {s t : Store} (h : s.LedgerStep t) : s.Grows t := by
  rcases h with hsame | ⟨nodeId, p, new, -, hsame⟩
  · exact hsame.grows
  · apply Grows.trans _ hsame.grows
    exact ⟨List.prefix_append _ _, List.prefix_append _ _, List.prefix_append _ _,
      List.prefix_append _ _⟩

/-- The record of a text whose small form is on the ledger. -/
theorem Recorded.image?_eq_some {s : Store} {entries : List Entry} (h : s.Recorded entries)
    {r : ImageRecord} (hr : r ∈ s.images) {text : String}
    (htext : r.imageHash = HashText.lower text) :
    s.image? text = some r := by
  have hlower : HashText.normalize? (HashText.lower text) = some (HashText.lower text) := by
    rw [HashText.normalize?_self_iff, ← htext]
    exact h.lowercase hr
  rw [HashText.normalize?_lower] at hlower
  have hfind : s.images.find? (·.imageHash = r.imageHash) = some r :=
    find?_of_nodup (k := (·.imageHash)) h.nodup_imageHash hr
  simp only [image?, hlower, ← htext, hfind]

/-- The answer for a text whose small form is on the ledger. -/
theorem Recorded.verify_eq {s : Store} {entries : List Entry} (h : s.Recorded entries)
    {r : ImageRecord} (hr : r ∈ s.images) {text : String}
    (htext : HashText.lower text = r.imageHash) : s.verify text = ⟨r.imageHash, some r⟩ := by
  have hself := (HashText.normalize?_self_iff r.imageHash).mpr (h.lowercase hr)
  have hlower : HashText.normalize? text = some r.imageHash := by
    rw [← HashText.normalize?_lower, htext, hself]
  have himage : s.image? r.imageHash = some r :=
    h.image?_eq_some hr (HashText.normalize?_eq_some.mp hself).2.symm
  simp only [verify, hlower, himage]

end Store

namespace SubmitInput

/-- The record of a hash that was submitted: it names the transaction and the block that were
answered, and holds what was submitted with the hash, its time rounded down to the minute and its
links in small letters. -/
structure RecordedAs (input : SubmitInput) (result : SubmitResult) (r : ImageRecord) : Prop where
  imageHash : r.imageHash = HashText.lower input.imageHash
  txId : result.txId = some r.txId
  blockHeight : result.blockHeight = r.blockHeight
  submitter : r.submitterId = input.submitterId
  timestamp : ∀ seconds : Nat, input.timestamp = .finite seconds →
    r.timestamp = Number.ofNat (60 * (seconds / 60))
  level : r.modificationLevel = input.modificationLevel.getD 0
  parent : r.parentImageHash = input.parentImageHash.map HashText.lower
  gps : r.gpsHash = input.gpsHash.map HashText.lower

variable {input : SubmitInput}

@[simp] theorem lower_hash (input : SubmitInput) :
    HashText.lower input.hash = HashText.lower input.imageHash := by
  unfold hash HashText.normalize?
  split_ifs
  · exact HashText.lower_lower _
  · rfl

theorem normalize?_hash (input : SubmitInput) :
    HashText.normalize? input.hash = HashText.normalize? input.imageHash := by
  rw [← HashText.normalize?_lower, lower_hash, HashText.normalize?_lower]

theorem normalize?_of_checkLink {link : Link} {cell : Option String}
    (h : Rules.checkLink link (some (textCell cell)) = none) :
    cell.bind HashText.normalize? = cell.map HashText.lower := by
  cases cell with
  | none => rfl
  | some text =>
    have hwell : HashText.wellFormed text = true := by
      by_contra hw
      simp [Rules.checkLink, textCell, Rules.ofJson?_text, hw] at h
    exact HashText.normalize?_eq_some.mpr ⟨hwell, rfl⟩

/-- The entry of a transaction that the rules accept holds the record of the hash. -/
theorem recordedAs_of_accepts {sign : String → String} {options : Rules.Options}
    {existing : List String → List String} {now : Number}
    (h : Rules.Accepts options existing now (input.transaction sign)) {e : Entry}
    (he : e.batch = input.transaction sign) :
    ∃ r ∈ e.images, input.RecordedAs ⟨some e.txId, e.blockHeight⟩ r := by
  have hfields := h.fields 0 (by simp [transaction])
  simp only [Rules.checkFields, Option.or_eq_none_iff] at hfields
  obtain ⟨-, hparent, hgps, -⟩ := hfields
  have hhashes : e.hashes = [HashText.lower input.imageHash] := by
    rw [Entry.hashes, he, ← lower_hash input]
    rfl
  refine ⟨Store.imageRow e.blockHeight e.txId e.batch 0 (HashText.lower input.imageHash), ?_, ?_⟩
  · rw [Entry.images, hhashes]
    exact List.mem_singleton_self _
  · rw [he]
    refine ⟨rfl, rfl, rfl, rfl, ?_, rfl, normalize?_of_checkLink hparent,
      normalize?_of_checkLink hgps⟩
    intro seconds hseconds
    change roundToMinute input.timestamp = _
    rw [hseconds, roundToMinute_natCast]

end SubmitInput

namespace Node

open Operation

variable {input : SubmitInput} {network : Consensus.Network}

/-- What a direct submission does under the lock. -/
def submitLocked (network : Consensus.Network) (tx : BatchTransaction) :
    Operation SubmitResult := do
  if let some v ← validate tx.received none then throw (.rejected v)
  let some p ← propose network [tx] none | throw (.consensus .nothingProposed)
  let stored ← storeBlock p Store.nothingAfter
  broadcast network (some p.height)
  return ⟨stored.txIds.head?, stored.block.height⟩

theorem submit_eq (network : Consensus.Network) (input : SubmitInput) :
    submit network input = (do
      let tx ← .look fun n => .ok (input.transaction n.sign)
      exclusively (submitLocked network tx)) := rfl

theorem perform_submit_eq (network : Consensus.Network) (input : SubmitInput) (n : Node) :
    (submit network input).perform n =
      (exclusively (submitLocked network (input.transaction n.sign))).perform n := rfl

/-- A direct submission that is accepted, proposed and stored ends as the announcement of its block
does. -/
theorem perform_submit {n : Node} (hfree : n.lock.queue = [])
    (hvalid : n.violation n.seconds (input.transaction n.sign).received = none) {p : Proposal}
    {voted announced : Consensus.Engine} {stored : StoredBlock} {t : Store}
    {answer : Except ConsensusError Unit}
    (hpropose : n.engine.propose n.sign network n.tip [input.transaction n.sign] n.seconds =
      (.ok (some p), voted))
    (hstore : n.store.storeBlock n.settings.nodeId p Store.nothingAfter = .ok (stored, t))
    (hannounce : voted.broadcast network (some p.height) = (answer, announced)) :
    (submit network input).perform n =
      some ((answer.mapError Fault.consensus).map fun _ =>
          ⟨stored.txIds.head?, stored.block.height⟩,
        { n with store := t, engine := announced, lock := ⟨[], n.lock.tickets + 1⟩ }) := by
  let locked : Node := { n with lock := n.lock.enter.2 }
  let agreed : Node := { locked with engine := voted }
  let full : Node := { agreed with store := t }
  have hvalidate : (validate (input.transaction n.sign).received none).perform locked =
      some (.ok none, locked) := by
    rw [validate, perform_look, Option.getD_none]
    exact congrArg (fun v => some (Except.ok v, locked)) hvalid
  have hproposed : (propose network [input.transaction n.sign] none).perform locked =
      some (.ok (some p), agreed) := by
    have htip : (Operation.look fun n => .ok n.tip).perform locked = some (.ok n.tip, locked) := rfl
    have hagreed : locked.engine.propose locked.sign network n.tip [input.transaction n.sign]
        (none.getD locked.seconds) = (.ok (some p), voted) := hpropose
    rw [propose, perform_bind htip, perform_attempt]
    simp only [hagreed]
    rfl
  have hstored : (storeBlock p Store.nothingAfter).perform agreed = some (.ok stored, full) :=
    storeBlock_run (n := agreed) hstore
  have hannounced : (broadcast network (some p.height)).perform full =
      some (answer.mapError Fault.consensus, { full with engine := announced }) := by
    have hanswer : full.engine.broadcast network (some p.height) = (answer, announced) := hannounce
    rw [broadcast, perform_attempt]
    simp only [hanswer]
  rw [perform_submit_eq]
  refine perform_exclusively (m := { full with engine := announced }) hfree ?_ rfl
  rw [submitLocked, perform_bind hvalidate]
  dsimp only
  rw [perform_bind hproposed]
  dsimp only
  rw [perform_bind hstored]
  cases answer with
  | ok _ => exact perform_bind hannounced
  | error e => exact perform_bind_error hannounced

theorem perform_submitLocked_rejected (network : Consensus.Network) {n : Node}
    {tx : BatchTransaction} {v : Violation}
    (hviolation : n.violation n.seconds tx.received = some v) :
    (submitLocked network tx).perform n = some (.error (.rejected v), n) := by
  have hvalidate : (validate tx.received none).perform n = some (.ok (some v), n) := by
    rw [validate, perform_look, Option.getD_none, hviolation]
  rw [submitLocked, perform_bind hvalidate]
  rfl

/-- A direct submission that breaks a rule ends in a rejection. -/
theorem perform_submit_rejected {n : Node} (hfree : n.lock.queue = []) {v : Violation}
    (hviolation : n.violation n.seconds (input.transaction n.sign).received = some v) :
    (submit network input).perform n =
      some (.error (.rejected v), { n with lock := ⟨[], n.lock.tickets + 1⟩ }) := by
  have hlocked := perform_submitLocked_rejected network
    (n := { n with lock := n.lock.enter.2 }) hviolation
  rw [perform_submit_eq]
  exact perform_exclusively (m := { n with lock := n.lock.enter.2 }) hfree hlocked rfl

/-- The tables hold the record that was answered. -/
def Recorded (input : SubmitInput) (answer : Except Fault SubmitResult) (s : Store) : Prop :=
  ∀ result, answer = .ok result → ∃ r ∈ s.images, input.RecordedAs result r

theorem steady_recorded (input : SubmitInput) (answer : Except Fault SubmitResult) :
    Steady Store.Grows fun _ s => Recorded input answer s where
  rely := by
    intro _ s t h hst result hresult
    obtain ⟨r, hr, hrecorded⟩ := h result hresult
    exact ⟨r, hst.images.subset hr, hrecorded⟩
  seen := fun _ _ _ h => h

theorem steady_true : Steady Store.Grows fun _ _ => True :=
  ⟨fun _ _ _ _ _ => trivial, fun _ _ _ _ => trivial⟩

/-- A batch that passes the check of the rules is accepted by them in the state that was found. -/
theorem validate_accepts (tx : BatchTransaction) :
    Quiet (fun answer => answer = .ok none → ∃ options existing now,
      Rules.Accepts options existing now tx) (validate tx.received none).run := by
  apply Quiet.atomic
  intro n
  refine ⟨rfl, fun hnone => ?_⟩
  have hvalid : n.violation (none.getD n.seconds) tx.received = none := Except.ok.inj hnone
  exact ⟨_, _, _, Rules.validate_eq_none.mp hvalid⟩

/-- Storing a proposal of the submitted transaction alone leaves the record that is answered. -/
theorem storeSubmitted_guarded {sign : String → String} {p : Proposal}
    {options : Rules.Options} {existing : List String → List String} {now : Number}
    (haccepts : Rules.Accepts options existing now (input.transaction sign))
    (hp : p.transactions = [input.transaction sign]) {seen : List Node} {n : Node} :
    (storeBlock p Store.nothingAfter).Guarded Store.Grows (fun _ _ => True)
      (fun _ answer s => ∀ stored, answer = .ok stored →
        ∃ r ∈ s.images, input.RecordedAs ⟨stored.txIds.head?, stored.block.height⟩ r) seen n := by
  apply Guarded.atomic
  intro t _
  refine ⟨trivial, fun u hu stored hstored => ?_⟩
  cases hresult : t.store.storeBlock t.settings.nodeId p Store.nothingAfter with
  | error e => simp [hresult] at hstored
  | ok answer =>
    simp only [hresult, Except.ok.injEq] at hstored hu
    obtain ⟨entries, ha, hblock, hafter⟩ := Store.storeBlock_eq_ok.mp hresult
    have hbatches := ha.batches
    rw [hp] at hbatches
    obtain ⟨e, rfl, hbatch⟩ := List.map_eq_singleton_iff.mp hbatches
    obtain ⟨r, hr, hrecorded⟩ := SubmitInput.recordedAs_of_accepts haccepts hbatch
    have hheight : e.blockHeight = t.store.expected.1 := ha.heights e List.mem_cons_self
    have hstore : t.store.extend t.settings.nodeId p [e] = answer.2 := Except.ok.inj hafter
    refine ⟨r, hu.images.subset ?_, ?_⟩
    · rw [← hstore]
      exact List.mem_append_right _ (by simpa using hr)
    · rw [hheight] at hrecorded
      rw [← hstored, hblock]
      exact hrecorded

/-- A direct submission among others answers with the record that it left. -/
theorem submit_guarded (network : Consensus.Network) (input : SubmitInput) (seen : List Node)
    (n : Node) : (submit network input).Guarded Store.Grows (fun _ _ => True)
      (fun _ answer s => Recorded input answer s) seen n := by
  have herror : ∀ {e : Fault} {s : Store}, Recorded input (.error e) s :=
    fun result hresult => nomatch hresult
  have htx : Quiet (fun answer => ∃ sign, answer = .ok (input.transaction sign))
      (Operation.look fun n => .ok (input.transaction n.sign)).run :=
    Quiet.atomic fun n => ⟨rfl, n.sign, rfl⟩
  apply Guarded.bind Store.Grows.refl (Guarded.quiet steady_true (fun _ => trivial) htx trivial)
  · intro seen tx m hparts
    obtain ⟨-, sign, hsign⟩ := hparts
    obtain rfl := Except.ok.inj hsign
    apply Guarded.exclusively (A := fun _ _ => True) Store.Grows.refl (fun _ => trivial)
      steady_true (steady_recorded input) _ trivial
    intro seen n _
    apply Guarded.bind Store.Grows.refl
      (Guarded.quiet steady_true (fun _ => trivial) (validate_accepts _) trivial)
    · intro seen violation m hparts
      obtain ⟨-, haccepts⟩ := hparts
      cases violation with
      | some v => exact fun t _ => herror
      | none =>
        obtain ⟨options, existing, now, haccepts⟩ := haccepts rfl
        apply Guarded.bind Store.Grows.refl
          (Guarded.quiet steady_true (fun _ => trivial) (propose_quiet _ _ _) trivial)
        · intro seen proposal m hparts
          obtain ⟨-, hproposal⟩ := hparts
          cases proposal with
          | none => exact fun t _ => herror
          | some p =>
            apply Guarded.bind Store.Grows.refl
              (storeSubmitted_guarded haccepts (hproposal p rfl))
            · intro seen stored m hstored
              have hkept := hstored stored rfl
              apply Guarded.bind Store.Grows.refl (Guarded.quiet
                (steady_recorded input (.ok ⟨stored.txIds.head?, stored.block.height⟩))
                (fun _ => trivial) (broadcast_quiet _ _) ?_)
              · intro seen _ m hparts
                apply Guarded.pure
                exact fun t ht => (steady_recorded input _).rely seen _ _ hparts.1 ht
              · exact fun _ _ _ _ _ _ => herror
              · intro result hresult
                obtain rfl := Except.ok.inj hresult
                exact hkept
            · exact fun _ _ _ _ _ _ => herror
        · exact fun _ _ _ _ _ _ => herror
    · exact fun _ _ _ _ _ _ => herror
  · exact fun _ _ _ _ _ _ => herror

/-- The transaction of a hash that is on the ledger breaks a rule. -/
theorem exists_violation_of_onChain {n : Node} {r : ImageRecord}
    (hlower : HashText.Lowercase r.imageHash) (hhash : HashText.lower input.imageHash = r.imageHash)
    (hr : r ∈ n.store.images) (sign : String → String) (now : Number) :
    ∃ v, n.violation now (input.transaction sign).received = some v := by
  have hnorm : HashText.normalize? input.hash = some r.imageHash := by
    rw [SubmitInput.normalize?_hash, ← HashText.normalize?_lower, hhash]
    exact (HashText.normalize?_self_iff _).mpr hlower
  have hmem : input.hash ∈ (input.transaction sign).imageHashes := List.mem_singleton_self _
  exact exists_violation hmem hr hnorm now

/-- A direct submission among others is rejected if its hash is on the ledger when it begins. -/
theorem submit_rejected_guarded {r : ImageRecord} (hlower : HashText.Lowercase r.imageHash)
    (hhash : HashText.lower input.imageHash = r.imageHash) (network : Consensus.Network)
    (seen : List Node) (n : Node) (hr : r ∈ n.store.images) :
    (submit network input).Guarded Store.Grows (fun _ _ => True)
      (fun _ answer _ => ∃ v, answer = .error (.rejected v)) seen n := by
  have hsteady : Steady Store.Grows fun _ s => r ∈ s.images :=
    ⟨fun _ _ _ h hst => hst.images.subset h, fun _ _ _ h => h⟩
  have htx : Quiet (fun answer => ∃ sign, answer = .ok (input.transaction sign))
      (Operation.look fun n => .ok (input.transaction n.sign)).run :=
    Quiet.atomic fun n => ⟨rfl, n.sign, rfl⟩
  apply Guarded.bind Store.Grows.refl (Guarded.quiet hsteady (fun _ => trivial) htx hr)
  · intro seen tx m hparts
    obtain ⟨hm, sign, hsign⟩ := hparts
    obtain rfl := Except.ok.inj hsign
    apply Guarded.exclusively Store.Grows.refl (fun _ => trivial) hsteady
      (B := fun answer _ _ => ∃ v, answer = .error (.rejected v))
      (fun _ => ⟨fun _ _ _ h _ => h, fun _ _ _ h => h⟩) _ hm
    intro seen n hn
    have hvalidate : (validate (input.transaction sign).received none).Guarded Store.Grows
        (fun _ _ => True) (fun _ answer _ => ∃ v, answer = .ok (some v)) seen n := by
      apply Guarded.atomic
      intro t ht
      obtain ⟨v, hv⟩ := exists_violation_of_onChain hlower hhash (ht.images.subset hn) sign
        t.seconds
      exact ⟨trivial, fun _ _ => ⟨v, congrArg Except.ok hv⟩⟩
    apply Guarded.bind Store.Grows.refl hvalidate
    · intro seen violation m hparts
      obtain ⟨v, hv⟩ := hparts
      obtain rfl := Except.ok.inj hv
      exact fun t _ => ⟨v, rfl⟩
    · intro seen e s t hparts
      obtain ⟨v, hv⟩ := hparts
      cases hv
  · intro seen e s t hparts
    obtain ⟨-, sign, hsign⟩ := hparts
    cases hsign

open Activity (Agent Course)

/-- All steps in a course of tasks are steps of the ledger. -/
theorem keeps_of_task {start : Node} {I : Node → Prop} (hstart : I start)
    (hlasts : ∀ n m, I n → n.store.LedgerStep m.store → I m) :
    Course.Keeps (fun _ => Task) [] start I fun n m => n.store.LedgerStep m.store where
  start := hstart
  running := fun _ hag => absurd hag List.not_mem_nil
  begins := fun _ _ _ _ ha => Activity.Meets.of_within ha.within
  lasts := hlasts

/-- In a course of tasks from empty tables, the ledger only grows. A hash whose submission succeeded
is found in any spelling, for ever after, as it was submitted and answered. A later submission of
it is rejected at once when nobody holds the lock, and ends in a rejection whatever comes in
between. -/
theorem submitted_stays (start : Node) (hempty : start.store = Store.empty)
    {agents later : List (Agent Node)} {n m : Node} (h : Course (fun _ => Task) [] start agents n)
    (hlater : Course (fun _ => Task) agents n later m) :
    n.store.Grows m.store ∧
    ∀ {number network input steps result},
      (⟨number, (submit network input).run, .done (.ok result), steps⟩ : Agent Node) ∈ agents →
      ∃ r, input.RecordedAs result r ∧
        (∀ text, HashText.lower text = HashText.lower input.imageHash →
          m.store.verify text = ⟨HashText.lower input.imageHash, some r⟩) ∧
        ∀ network' input', HashText.lower input'.imageHash = HashText.lower input.imageHash →
          (m.lock.queue = [] →
            ∃ v k, (submit network' input').perform m = some (.error (.rejected v), k)) ∧
          ∀ {number' steps' answer},
            (⟨number', (submit network' input').run, .done answer, steps'⟩ : Agent Node) ∈ later →
            agents.length ≤ number' → ∃ v, answer = .error (.rejected v) := by
  have hsound : Course.Keeps (fun _ => Task) [] start (fun n => n.store.Sound)
      fun n m => n.store.LedgerStep m.store :=
    keeps_of_task (hempty ▸ Store.sound_empty) fun n m hn hstep => hn.step hstep
  have hgrow : ∀ n m : Node, n.store.LedgerStep m.store → n.store.Grows m.store :=
    fun n m hstep => hstep.grows
  have hrefl : ∀ n : Node, n.store.Grows n.store := fun n => .refl n.store
  have htrans : ∀ n m k : Node, n.store.Grows m.store → m.store.Grows k.store →
      n.store.Grows k.store := fun n m k hnm hmk => hnm.trans hmk
  have hgrows : n.store.Grows m.store :=
    hlater.related (Q := fun n m => n.store.Grows m.store) (h.keeps hsound) hgrow hrefl htrans
  obtain ⟨entries, hrec⟩ := ((h.trans hlater).invariant hsound).1.recorded
  refine ⟨hgrows, fun {number network input steps result} hmem => ?_⟩
  have hamong :=
    h.among hsound (fun ag hag => absurd hag List.not_mem_nil) hmem (Nat.zero_le number)
  have hguarded := (hamong.mono (fun n hn => hn) hgrow).guarded hrefl htrans
    fun n _ => submit_guarded network input [] n
  obtain ⟨r, hr, hrecorded⟩ := hguarded n (hrefl n) result rfl
  have hkept : r ∈ m.store.images := hgrows.images.subset hr
  refine ⟨r, hrecorded, fun text htext => ?_, ?_⟩
  · rw [← hrecorded.imageHash]
    exact hrec.verify_eq hkept (htext.trans hrecorded.imageHash.symm)
  · intro network' input' hsame
    have hhash : HashText.lower input'.imageHash = r.imageHash :=
      hsame.trans hrecorded.imageHash.symm
    have hlower : HashText.Lowercase r.imageHash := hrec.lowercase hkept
    refine ⟨fun hfree => ?_, fun {number' steps' answer} hmem' hnew => ?_⟩
    · obtain ⟨v, hv⟩ := exists_violation_of_onChain hlower hhash hkept m.sign m.seconds
      exact ⟨v, _, perform_submit_rejected hfree hv⟩
    · have hpresent : Course.Keeps (fun _ => Task) agents n
          (fun k => k.store.Sound ∧ r ∈ k.store.images)
          fun n m => n.store.LedgerStep m.store := by
        apply (h.keeps hsound).restrict ⟨(h.invariant hsound).1, hr⟩ (fun _ hk => hk.1)
        intro k l hk hkl
        exact ⟨hk.1.step hkl, hkl.grows.images.subset hk.2⟩
      have hnumber : ∀ ag ∈ agents, ag.number < agents.length :=
        h.number_lt fun ag hag => absurd hag List.not_mem_nil
      have hamong' := (hlater.among hpresent hnumber hmem' hnew).mono (fun k hk => hk.2) hgrow
      exact hamong'.guarded hrefl htrans (submit_rejected_guarded hlower hhash network' []) m
        (hrefl m)

/-- The hash of the batch above, submitted directly. -/
def loneInput : SubmitInput where
  imageHash := String.ofList (List.replicate 64 'A')
  timestamp := 90
  submitterId := "camera"
  modificationLevel := none
  parentImageHash := none
  gpsHash := none
  ownerHash := none

/-- The first hash of a ledger makes the first block if the node's engine agrees. The submission
ends as the announcement of the block does. -/
theorem exists_submit_first (engine : Consensus.Engine) (network : Consensus.Network)
    {p : Proposal} {voted : Consensus.Engine} {answer : Except ConsensusError Unit}
    (hp : p = Consensus.buildProposal lone.sign engine.validatorId lone.tip
      [loneInput.transaction lone.sign] lone.seconds)
    (hpropose : engine.propose lone.sign network lone.tip [loneInput.transaction lone.sign]
      lone.seconds = (.ok (some p), voted))
    (hannounce : (voted.broadcast network (some p.height)).1 = answer) :
    ∃ result n, n.lock.queue = [] ∧ n.store.blocks.length = 1 ∧
      n.store.transactions.length = 1 ∧ (∃ r ∈ n.store.images, loneInput.RecordedAs result r) ∧
      (submit network loneInput).perform { lone with engine } =
        some ((answer.mapError Fault.consensus).map fun _ => result, n) := by
  have hvalid : lone.violation lone.seconds (loneInput.transaction lone.sign).received = none := by
    decide +kernel
  have haccepts : Rules.Accepts lone.ruleOptions lone.store.existingOf lone.seconds
      (loneInput.transaction lone.sign) := Rules.validate_eq_none.mp hvalid
  have htakes := Store.Takes.of_accepts (by decide +kernel) haccepts
  have hnow : (none : Option Number) ≠ some .nan := nofun
  have htime : lone.seconds ≠ .nan := getD_seconds_ne_nan hnow lone
  obtain ⟨e, stored, t, ha, hextend, hstored, hstore⟩ :=
    exists_storeBlock (n := { lone with engine }) Store.sound_empty (Nat.zero_le _) htakes hp htime
      (fun s stored => ⟨s, rfl⟩) (not_collides_empty _) (not_collides_empty _)
  obtain rfl := Except.ok.inj hextend
  have hbatches := ha.batches
  rw [hp] at hbatches
  have hbatch : e.batch = loneInput.transaction lone.sign := List.head_eq_of_cons_eq hbatches
  obtain ⟨r, hr, hrecorded⟩ := SubmitInput.recordedAs_of_accepts haccepts hbatch
  obtain ⟨announced, hanswer⟩ : ∃ announced, voted.broadcast network (some p.height) =
      (answer, announced) := ⟨_, Prod.ext hannounce rfl⟩
  have hheight : e.blockHeight = stored.block.height := by
    rw [hstored]
    exact ha.heights e List.mem_cons_self
  have hid : stored.txIds.head? = some e.txId := by
    rw [hstored]
    rfl
  refine ⟨⟨stored.txIds.head?, stored.block.height⟩, _, rfl, rfl, rfl, ⟨r, ?_, ?_⟩,
    perform_submit (n := { lone with engine }) rfl hvalid hpropose hstore hanswer⟩
  · exact List.mem_append_right _ (by simpa using hr)
  · rw [hid, ← hheight]
    exact hrecorded

/-- The first hash of a ledger is accepted, and makes the first block. -/
theorem exists_submit_lone : ∃ result n, n.lock.queue = [] ∧ n.store.blocks.length = 1 ∧
    n.store.transactions.length = 1 ∧
    (submit .silent loneInput).perform lone = some (.ok result, n) := by
  obtain ⟨result, n, hfree, hblocks, htxs, -, hrun⟩ :=
    exists_submit_first lone.engine .silent rfl rfl rfl
  exact ⟨result, n, hfree, hblocks, htxs, hrun⟩

/-- A hash is submitted in capitals and found in small letters. Submitted again in small letters it
is rejected. -/
theorem submitted_stays_lone : ∃ (later : List (Agent Node)) (m : Node) (r : ImageRecord),
    Course (fun _ => Task) [] lone later m ∧ later.length = 2 ∧ r.timestamp = 60 ∧
    m.store.verify (HashText.lower loneInput.imageHash) =
      ⟨HashText.lower loneInput.imageHash, some r⟩ ∧
    ∃ v steps, (⟨1, (submit .silent { loneInput with
        imageHash := HashText.lower loneInput.imageHash }).run, .done (.error (.rejected v)),
      steps⟩ : Agent Node) ∈ later := by
  obtain ⟨result, n, hfree, -, -, hrun⟩ := exists_submit_lone
  have hbegin : Course (fun _ => Task) [] lone
      [.fresh 0 ⟨_, (submit .silent loneInput).run⟩] lone :=
    .begin _ (.submit .silent loneInput) .start
  obtain ⟨steps, -, hcourse⟩ := hbegin.run hrun
  have hsmall : HashText.lower (HashText.lower loneInput.imageHash) =
      HashText.lower loneInput.imageHash := HashText.lower_lower _
  let again : SubmitInput := { loneInput with imageHash := HashText.lower loneInput.imageHash }
  obtain ⟨-, hserved⟩ := submitted_stays lone rfl hcourse .start
  obtain ⟨r, -, -, hrejects⟩ := hserved (List.mem_singleton_self _)
  obtain ⟨v, k, hagain⟩ := (hrejects .silent again hsmall).1 hfree
  let first : Agent Node := ⟨0, (submit .silent loneInput).run, .done (.ok result), steps⟩
  have hnext : Course (fun _ => Task) [first] n
      [.fresh 1 ⟨_, (submit .silent again).run⟩, first] n :=
    .begin ⟨_, (submit .silent again).run⟩ (.submit .silent again) .start
  obtain ⟨steps', -, hlater⟩ := hnext.run hagain
  obtain ⟨-, hserved⟩ := submitted_stays lone rfl hcourse hlater
  obtain ⟨r, hrecorded, hverify, -⟩ := hserved (List.mem_singleton_self _)
  exact ⟨_, _, r, hcourse.trans hlater, rfl, hrecorded.timestamp 90 (by decide), hverify _ hsmall,
    v, steps', List.mem_cons_self⟩

end Node

end ImageLedger
