import ImageLedger.Proofs.Node.Sections
import ImageLedger.Proofs.Node.Setup
import ImageLedger.Proofs.Node.UndisturbedCycle
import ImageLedger.Proofs.Settings

namespace ImageLedger

namespace Rules

variable {options : Options}

theorem checkSize_one (hone : options.batchSizeMin = 1)
    (hmax : Number.le 1 options.batchSizeMax = true) : checkSize options 1 = none := by
  have hleast : ¬ Number.lt (Number.ofNat 1) options.batchSizeMin = true := by
    rw [hone]
    decide
  have hmost : ¬ Number.lt options.batchSizeMax (Number.ofNat 1) = true :=
    Number.not_lt_of_le hmax
  rw [checkSize, if_neg hleast, if_neg hmost]

theorem checkSize_one_of_ne (hmin : Number.le 1 options.batchSizeMin = true)
    (hne : options.batchSizeMin ≠ 1) :
    checkSize options 1 = some (.tooSmall 1 options.batchSizeMin) :=
  if_pos (Number.lt_of_le_of_ne hmin hne)

end Rules

namespace Node

open Operation

/-- A submission that breaks no rule but perhaps the one on sizes. -/
structure Proper (n : Node) (input : SubmitInput) : Prop where
  wellFormed : HashText.wellFormed input.imageHash = true
  fresh : ∀ r ∈ n.store.images, r.imageHash ≠ HashText.lower input.imageHash
  authorized : ∀ allowed, n.settings.authorizedSubmitters = some allowed →
    input.submitterId ∈ allowed
  level : ∀ level ∈ input.modificationLevel, level = 0 ∨ level = 1 ∨ level = 2
  parent : ∀ hash ∈ input.parentImageHash, HashText.wellFormed hash = true
  gps : ∀ hash ∈ input.gpsHash, HashText.wellFormed hash = true
  owner : ∀ hash ∈ input.ownerHash, HashText.wellFormed hash = true
  finite : input.timestamp.isFinite = true
  recent : Number.le (Number.sub n.seconds Rules.maxAge) input.timestamp = true
  begun : Number.le input.timestamp (Number.add n.seconds Rules.maxSkew) = true

/-- The block or the transaction of a submission would share its digest with another text, or the
heights of blocks are used up. -/
def Blocked (n : Node) (input : SubmitInput) : Prop :=
  n.store.Collides (Store.proposalText (n.proposalOf n.seconds (input.transaction n.sign))) ∨
    n.store.Collides (Store.batchText (input.transaction n.sign)) ∨
    Number.wholeLimit < n.store.blocks.length

/-- The submitted hash is all that the next block brings. -/
structure CommitsAlone (n : Node) (input : SubmitInput) (result : SubmitResult) (m : Node) :
    Prop where
  height : result.blockHeight = n.store.blocks.length
  block : ∃ b, m.store.blocks = n.store.blocks ++ [b] ∧ b.height = result.blockHeight ∧
    b.transactionCount = 1
  transaction : ∃ tx, m.store.transactions = n.store.transactions ++ [tx] ∧
    result.txId = some tx.txId ∧ tx.blockHeight = result.blockHeight ∧ tx.batchSize = 1
  image : ∃ r, m.store.images = n.store.images ++ [r] ∧ input.RecordedAs result r

variable {n : Node} {input : SubmitInput} {network : Consensus.Network}

theorem checkLink_textCell (link : Link) {cell : Option String}
    (h : ∀ hash ∈ cell, HashText.wellFormed hash = true) :
    Rules.checkLink link (some (textCell cell)) = none := by
  cases cell with
  | none => rfl
  | some hash => simp [Rules.checkLink, textCell, Rules.ofJson?_text, h hash rfl]

namespace Proper

theorem hash_eq (h : n.Proper input) : input.hash = HashText.lower input.imageHash := by
  rw [SubmitInput.hash, HashText.normalize?_eq_some.mpr ⟨h.wellFormed, rfl⟩, Option.getD_some]

theorem hashesWellFormed (h : n.Proper input) (sign : String → String) :
    Store.HashesWellFormed (input.transaction sign) := by
  intro hash hmem
  obtain rfl := List.mem_singleton.mp hmem
  rw [h.hash_eq, HashText.wellFormed_lower]
  exact h.wellFormed

theorem checkFields (h : n.Proper input) (sign : String → String) :
    Rules.checkFields (Rules.entryAt (input.transaction sign).received 0) = none := by
  have hlevel : Rules.checkLevel (some (.number (input.modificationLevel.getD 0))) = none := by
    cases hgiven : input.modificationLevel with
    | none => rfl
    | some level => rcases h.level level hgiven with rfl | rfl | rfl <;> rfl
  have hparent := checkLink_textCell .parent h.parent
  have hgps := checkLink_textCell .gps h.gps
  have howner := checkLink_textCell .owner h.owner
  simp only [Rules.checkFields, Option.or_eq_none_iff]
  exact ⟨hlevel, hparent, hgps, howner⟩

theorem checkTimestamp (h : n.Proper input) :
    Rules.checkTimestamp n.seconds (some (.number input.timestamp)) = none := by
  rw [Rules.checkTimestamp, if_neg (by simp [h.finite]), if_neg (Number.not_lt_of_le h.begun),
    if_neg (Number.not_lt_of_le h.recent)]

theorem checkForm (h : n.Proper input) (sign : String → String) :
    Rules.checkForm n.ruleOptions (input.transaction sign).received = none := by
  simp only [Rules.checkForm, Option.or_eq_none_iff]
  refine ⟨Rules.checkSubmitter_eq_none.mpr h.authorized, Rules.checkHashes_eq_none.mpr
    (h.hashesWellFormed sign), rfl, ?_, ?_⟩
  · exact List.findSome?_eq_none_iff.mpr fun i hi => by
      obtain rfl : i = 0 := by simpa [SubmitInput.transaction, BatchTransaction.received] using hi
      exact h.checkFields sign
  · rw [Rules.normalizedHashes_received (h.hashesWellFormed sign)]
    exact Rules.checkRepeats_eq_none.mpr (List.nodup_singleton _)

/-- Only the sizes of batches decide. -/
theorem violation_eq (h : n.Proper input) (sign : String → String) :
    n.violation n.seconds (input.transaction sign).received = Rules.checkSize n.ruleOptions 1 := by
  have hlower : Rules.normalizedHashes (input.transaction sign).received =
      [HashText.lower input.imageHash] := by
    rw [Rules.normalizedHashes_received (h.hashesWellFormed sign), ← SubmitInput.lower_hash]
    rfl
  have hfresh : n.store.existingOf [HashText.lower input.imageHash] = [] :=
    Store.existingOf_eq_nil.mpr fun r hr hmem => h.fresh r hr (List.mem_singleton.mp hmem)
  have htimes : (input.transaction sign).received.timestamps.findSome?
      (fun t => Rules.checkTimestamp n.seconds (some t)) = none := by
    simpa [SubmitInput.transaction, BatchTransaction.received] using h.checkTimestamp
  rw [violation, Rules.validate, h.checkForm sign, hlower, hfresh, Rules.checkRanges, htimes]
  rfl

end Proper

theorem images_of_transaction {e : Entry} {sign : String → String}
    (he : e.batch = input.transaction sign) : ∃ r, e.images = [r] := by
  have hlength : (e.images.map (·.imageHash)).length = 1 := by
    rw [Entry.map_imageHash_images, Entry.hashes, he]
    rfl
  rw [List.length_map] at hlength
  exact List.length_eq_one_iff.mp hlength

/-- A node alone commits what its rules accept by itself. -/
theorem exists_commitsAlone (hs : n.store.Sound) (hmode : n.engine.mode = .single)
    (hfree : n.lock.queue = []) (hmin : Number.le 1 n.settings.batchSizeMin = true)
    (hvalid : n.violation n.seconds (input.transaction n.sign).received = none)
    (hblocked : ¬ n.Blocked input) : ∃ result m,
      (submit network input).perform n = some (.ok result, m) ∧
        n.CommitsAlone input result m := by
  obtain ⟨hblock, hbatch, hlength⟩ : ¬ n.store.Collides (Store.proposalText
      (n.proposalOf n.seconds (input.transaction n.sign))) ∧
      ¬ n.store.Collides (Store.batchText (input.transaction n.sign)) ∧
      n.store.blocks.length ≤ Number.wholeLimit := by
    simpa [Blocked, not_or] using hblocked
  have haccepts := Rules.validate_eq_none.mp hvalid
  obtain ⟨e, stored, t, ha, hextend, hstored, hstore⟩ := exists_storeBlock hs hlength
    (Store.Takes.of_accepts hmin haccepts) rfl (Number.ofRat_ne_nan _) (fun s _ => ⟨s, rfl⟩) hblock
    hbatch
  obtain rfl := Except.ok.inj hextend
  have hpropose : n.engine.propose n.sign network n.tip [input.transaction n.sign] n.seconds =
      (.ok (some (n.proposalOf n.seconds (input.transaction n.sign))), n.engine) := by
    simp [Consensus.Engine.propose, hmode, proposalOf]
  have hannounce : n.engine.broadcast network
      (some (n.proposalOf n.seconds (input.transaction n.sign)).height) = (.ok (), n.engine) := by
    simp [Consensus.Engine.broadcast, hmode]
  have he : e.batch = input.transaction n.sign := List.head_eq_of_cons_eq ha.batches
  have hheight : e.blockHeight = n.store.blocks.length :=
    (ha.heights e List.mem_cons_self).trans hs.linked.expected_height
  obtain ⟨r, hr, hrecorded⟩ := SubmitInput.recordedAs_of_accepts haccepts he
  obtain ⟨r', himages⟩ := images_of_transaction he
  rw [himages] at hr
  obtain rfl := List.mem_singleton.mp hr
  subst hstored
  refine ⟨_, _, perform_submit hfree hvalid hpropose hstore hannounce, ?_⟩
  have hexpected : n.store.expected.1 = n.store.blocks.length := hs.linked.expected_height
  rw [hheight, ← hexpected] at hrecorded
  exact {
    height := hexpected
    block := ⟨_, rfl, rfl, rfl⟩
    transaction := ⟨e.row, rfl, rfl, hheight.trans hexpected.symm, by
      change e.hashes.length = 1
      rw [Entry.hashes, he]
      rfl⟩
    image := ⟨r, by
      change n.store.images ++ [e].flatMap Entry.images = _
      simp [himages], hrecorded⟩ }

/-- A node with settings that were read, alone and not making a block, commits a submission that
breaks no other rule exactly when a batch of one is large enough, and as the only entry of the next
block; the greatest size plays no part. It refuses the submission otherwise, and nothing changes on
the ledger. -/
theorem submit_alone {env : Settings.Environment} {settings : Settings} {sign : String → String}
    {clock : Int} {start n : Node} (hparse : Settings.parse env = .ok settings)
    (hsingle : settings.consensusMode = .single) (hcreate : create settings sign clock = .ok start)
    (hreach : start.ReachableFrom n) (hfree : n.lock.queue = []) {input : SubmitInput}
    (hinput : n.Proper input) (network : Consensus.Network) :
    (settings.batchSizeMin = 1 → ¬ n.Blocked input → ∃ result m,
      (submit network input).perform n = some (.ok result, m) ∧ n.CommitsAlone input result m) ∧
    (settings.batchSizeMin ≠ 1 → ∃ m, (submit network input).perform n =
        some (.error (.rejected (.tooSmall 1 settings.batchSizeMin)), m) ∧ m.store = n.store) := by
  have hnew := new_of_create hcreate
  have hsetup := hreach.sameSetup
  have hchecked := (Settings.readFrom_of_parse hparse).checked
  have hmin : Number.le 1 settings.batchSizeMin = true :=
    hchecked.counts ⟨"BATCH_SIZE_MIN", 1, settings.batchSizeMin⟩ (by simp [Settings.counts])
  have hoptions : n.ruleOptions =
      ⟨settings.authorizedSubmitters, settings.batchSizeMin, settings.batchSizeMax⟩ := by
    rw [ruleOptions, hsetup.settings, hnew.settings]
  have hviolation := hinput.violation_eq n.sign
  rw [hoptions] at hviolation
  constructor
  · intro hone hblocked
    have hmax : Number.le 1 settings.batchSizeMax = true := hone ▸ hchecked.sizes
    have hvalid := hviolation.trans (Rules.checkSize_one hone hmax)
    refine exists_commitsAlone (hreach.sound hnew.empty) ?_ hfree ?_ hvalid hblocked
    · rw [hsetup.mode, hnew.mode, hsingle]
    · rw [hsetup.settings, hnew.settings]
      exact hmin
  · intro hmore
    have hrefused := hviolation.trans (Rules.checkSize_one_of_ne hmin hmore)
    exact ⟨_, perform_submit_rejected hfree hrefused, rfl⟩

/-- The environment of a node alone that asks for batches of a least size. -/
def soleEnvironment (least : String) : Settings.Environment :=
  Settings.given [("DATABASE_URL", "postgres://ledger"), ("ADMIN_PASSWORD", "secret"),
    ("AUTHORITY_VALIDATION_URL", "https://authority/validate"), ("BATCH_SIZE_MIN", least)]

theorem exists_sole (least : String) (size : Number)
    (h : (Settings.parse (soleEnvironment least)).toOption.any (fun s =>
      s.consensusMode = .single ∧ s.batchSizeMin = size ∧ s.authorizedSubmitters = none ∧
        (Authority.Cache.create? s.validationCacheMaxSize
          s.validationCacheTtlSeconds).isSome = true) = true) :
    ∃ settings start, Settings.parse (soleEnvironment least) = .ok settings ∧
      settings.consensusMode = .single ∧ settings.batchSizeMin = size ∧
      settings.authorizedSubmitters = none ∧ create settings id 0 = .ok start := by
  obtain ⟨settings, hparse, hvalues⟩ := Settings.exists_of_any _ _ h
  obtain ⟨hsingle, hsize, hlisted, hcache⟩ := of_decide_eq_true hvalues
  obtain ⟨start, hcreate⟩ := exists_create hsingle hcache id 0
  exact ⟨settings, start, hparse, hsingle, hsize, hlisted, hcreate⟩

theorem proper_loneInput (hclock : n.clock = 0) (hlisted : n.settings.authorizedSubmitters = none)
    (himages : n.store.images = []) : n.Proper loneInput where
  wellFormed := by decide +kernel
  fresh := by simp [himages]
  authorized := by simp [hlisted]
  level := nofun
  parent := nofun
  gps := nofun
  owner := nofun
  finite := by decide
  recent := by
    rw [seconds, hclock]
    decide +kernel
  begun := by
    rw [seconds, hclock]
    decide +kernel

theorem submit_alone_first : ∃ settings start result m,
    Settings.parse (soleEnvironment "1") = .ok settings ∧ create settings id 0 = .ok start ∧
      (submit .silent loneInput).perform start = some (.ok result, m) ∧
      start.CommitsAlone loneInput result m := by
  obtain ⟨settings, start, hparse, hsingle, hone, hlisted, hcreate⟩ :=
    exists_sole "1" 1 (by decide +kernel)
  have hnew := new_of_create hcreate
  have hproper : start.Proper loneInput :=
    proper_loneInput hnew.clock (hnew.settings ▸ hlisted) (by rw [hnew.empty]; rfl)
  have hblocked : ¬ start.Blocked loneInput := by
    rw [Blocked, hnew.empty]
    rintro (hblock | hbatch | hlength)
    · exact not_collides_empty _ hblock
    · exact not_collides_empty _ hbatch
    · exact Nat.not_lt_zero _ hlength
  obtain ⟨result, m, hrun, halone⟩ := (submit_alone hparse hsingle hcreate ⟨[], .start⟩ hnew.free
    hproper .silent).1 hone hblocked
  exact ⟨settings, start, result, m, hparse, hcreate, hrun, halone⟩

/-- A new node makes its first block. -/
theorem exists_perform_createGenesis {start : Node} (hempty : start.store = .empty)
    (hfree : start.lock.queue = []) : ∃ b n,
      (createGenesis none none).perform start = some (.ok b, n) ∧
        n.store.blocks.length = 1 ∧ n.store.images = [] ∧ n.clock = start.clock ∧
        n.lock.queue = [] := by
  let locked : Node := { start with lock := start.lock.enter.2 }
  let p := genesisProposal start.sign start.settings.nodeId start.seconds
  have hlocked : (genesisLocked none none).perform locked = some (.ok (locked.store.nextBlock p),
      { locked with store := locked.store.extend locked.settings.nodeId p [] }) :=
    perform_genesisLocked (n := locked) hempty none none nofun
  rw [createGenesis_eq]
  refine ⟨_, _, perform_exclusively hfree hlocked rfl, ?_, ?_, rfl, rfl⟩
  · change (start.store.blocks ++ [_]).length = 1
    rw [hempty]
    rfl
  · change start.store.images ++ [] = []
    rw [hempty]
    rfl

/-- A node that asks for two entries refuses a single one, though its ledger is made and nothing
else is wrong. -/
theorem refused_of_two_at_least : ∃ settings start n m,
    Settings.parse (soleEnvironment "2") = .ok settings ∧ settings.consensusMode = .single ∧
      create settings id 0 = .ok start ∧ start.ReachableFrom n ∧ n.store.blocks.length = 1 ∧
      n.Proper loneInput ∧ (submit .silent loneInput).perform n =
        some (.error (.rejected (.tooSmall 1 2)), m) := by
  obtain ⟨settings, start, hparse, hsingle, htwo, hlisted, hcreate⟩ :=
    exists_sole "2" 2 (by decide +kernel)
  have hnew := new_of_create hcreate
  obtain ⟨b, n, hrun, hblocks, himages, hclock, hfree⟩ :=
    exists_perform_createGenesis hnew.empty hnew.free
  have hbegin : Activity.Reach Task start [⟨_, (createGenesis none none).run⟩] start :=
    .begin _ (.createGenesis none none) .start
  have hreach : start.ReachableFrom n := ⟨_, hbegin.run hrun⟩
  have hsetup : n.settings = settings := hreach.sameSetup.settings.trans hnew.settings
  have hproper : n.Proper loneInput :=
    proper_loneInput (hclock.trans hnew.clock) (hsetup ▸ hlisted) himages
  have hsize : n.ruleOptions.batchSizeMin = 2 := (congrArg Settings.batchSizeMin hsetup).trans htwo
  have hviolation : n.violation n.seconds (loneInput.transaction n.sign).received =
      some (.tooSmall 1 2) := by
    rw [hproper.violation_eq, Rules.checkSize, hsize]
    exact if_pos (by decide)
  exact ⟨settings, start, n, _, hparse, hsingle, hcreate, hreach, hblocks, hproper,
    perform_submit_rejected hfree hviolation⟩

end Node

end ImageLedger
