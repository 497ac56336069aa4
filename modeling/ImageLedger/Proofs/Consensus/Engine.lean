import ImageLedger.Consensus.Engine
import ImageLedger.Proofs.Consensus.Round
import ImageLedger.Proofs.Text.Distinct

namespace ImageLedger.Consensus

/-- Each approval is a listed validator's, given once and not taken back: the proposer's own one or
the first answer of a peer. -/
structure Round.Tally (listed : List String) (proposer : String) (network : Network) (r : Round) :
    Prop where
  nodup : r.approvals.Nodup
  known : ∀ v ∈ r.approvals, v ∈ listed
  disjoint : ∀ v ∈ r.approvals, v ∉ r.rejections
  voted : ∀ v ∈ r.approvals,
    v = proposer ∨ Approves r.blockHash (network.arrivals r.blockHash) v

namespace Engine

/-- The engines of a validator with a list of validators, after any number of proposals and
announcements. -/
inductive Serving (validatorId : String) (listed : List String) : Engine → Prop where
  | start {e : Engine} (h : authority validatorId listed = .ok e) : Serving validatorId listed e
  | propose {e : Engine} (h : Serving validatorId listed e) (sign : String → String)
      (network : Network) (tip : Option Tip) (transactions : List BatchTransaction)
      (timestamp : Number) :
      Serving validatorId listed (e.propose sign network tip transactions timestamp).2
  | broadcast {e : Engine} (h : Serving validatorId listed e) (network : Network)
      (height : Option Number) : Serving validatorId listed (e.broadcast network height).2
  | clearOutbox {e : Engine} (h : Serving validatorId listed e) :
      Serving validatorId listed e.clearOutbox

/-- The round on a proposal, once it is over. -/
def roundOn (e : Engine) (network : Network) (p : Proposal) : Round :=
  ((Round.begin p.height p.blockHash e.validatorId e.validators).collect e.validators.length
    network.late e.peers (network.arrivals p.blockHash)).close e.validators.length

variable {validatorId : String} {listed : List String} {e : Engine}

theorem round_vote (e : Engine) (network : Network) (p : Proposal) :
    (e.vote network p).round = some (e.roundOn network p) := rfl

theorem snd_propose (e : Engine) (sign : String → String) (network : Network) (tip : Option Tip)
    (transactions : List BatchTransaction) (timestamp : Number) :
    (e.propose sign network tip transactions timestamp).2 = e ∨
      ∃ p, (e.propose sign network tip transactions timestamp).2 = e.vote network p := by
  unfold Engine.propose
  split_ifs with hempty
  · exact Or.inl rfl
  · cases e.mode with
    | single => exact Or.inl rfl
    | poa =>
      right
      refine ⟨buildProposal sign e.validatorId tip transactions timestamp, ?_⟩
      rw [apply_ite Prod.snd]
      exact ite_self _

/-- A proposal is put to the vote, and comes out when a quorum approves. -/
theorem propose_poa (hmode : e.mode = .poa) (sign : String → String) (network : Network)
    (tip : Option Tip) {transactions : List BatchTransaction} (htxs : transactions ≠ [])
    (timestamp : Number) {p : Proposal}
    (hp : p = buildProposal sign e.validatorId tip transactions timestamp) :
    e.propose sign network tip transactions timestamp =
      (if e.quorum ≤ (e.roundOn network p).approvals.length then .ok (some p)
        else .error (.refused p.height (e.roundOn network p).approvals.length
          e.validators.length e.quorum), e.vote network p) := by
  have hsame : (e.vote network p).quorum = e.quorum := rfl
  rw [Engine.propose, if_neg (by simpa using htxs), hmode, ← hp]
  simp only [round_vote, hsame]
  split <;> rfl

/-- The answers to a request for agreement: nothing for no transactions, the next proposal, or a
refusal for want of a quorum. -/
theorem propose_cases (e : Engine) (sign : String → String) (network : Network) (tip : Option Tip)
    (transactions : List BatchTransaction) (timestamp : Number) :
    (e.propose sign network tip transactions timestamp).1 = .ok none ∨
      (e.propose sign network tip transactions timestamp).1 =
        .ok (some (buildProposal sign e.validatorId tip transactions timestamp)) ∨
      ∃ height approvals validators quorum,
        (e.propose sign network tip transactions timestamp).1 =
          .error (.refused height approvals validators quorum) := by
  by_cases htxs : transactions = []
  · rw [htxs]
    exact Or.inl rfl
  · cases hmode : e.mode with
    | single =>
      rw [Engine.propose, if_neg (by simpa using htxs), hmode]
      exact Or.inr (Or.inl rfl)
    | poa =>
      rw [propose_poa hmode sign network tip htxs timestamp rfl]
      dsimp only
      split
      · exact Or.inr (Or.inl rfl)
      · exact Or.inr (Or.inr ⟨_, _, _, _, rfl⟩)

section Answers

variable {sign : String → String} {network : Network} {tip : Option Tip}
  {transactions : List BatchTransaction} {timestamp : Number}

/-- What comes out of an agreement is the proposal that went in. -/
theorem eq_of_propose {p : Proposal}
    (h : (e.propose sign network tip transactions timestamp).1 = .ok (some p)) :
    p = buildProposal sign e.validatorId tip transactions timestamp := by
  rcases propose_cases e sign network tip transactions timestamp with
    hnone | hsome | ⟨_, _, _, _, hrefused⟩
  · rw [hnone] at h
    cases h
  · rw [hsome] at h
    exact (Option.some.inj (Except.ok.inj h)).symm
  · rw [hrefused] at h
    cases h

/-- Looking for agreement fails for want of a quorum only. -/
theorem refused_of_propose {error : ConsensusError}
    (h : (e.propose sign network tip transactions timestamp).1 = .error error) :
    ∃ height approvals validators quorum,
      error = .refused height approvals validators quorum := by
  rcases propose_cases e sign network tip transactions timestamp with
    hnone | hsome | ⟨height, approvals, validators, quorum, hrefused⟩
  · rw [hnone] at h
    cases h
  · rw [hsome] at h
    cases h
  · rw [hrefused] at h
    exact ⟨height, approvals, validators, quorum, (Except.error.inj h).symm⟩

end Answers

theorem snd_broadcast (e : Engine) (network : Network) (height : Option Number) :
    (e.broadcast network height).2 =
      { e with announced := (e.broadcast network height).2.announced } := by
  obtain ⟨mode, validatorId, validators, round, requested, announced⟩ := e
  cases mode with
  | single => rfl
  | poa => cases hfail : network.announcementFailure <;> simp only [Engine.broadcast, hfail]

/-- An announcement fails with those that it goes to. -/
theorem failure_of_broadcast {network : Network} {height : Option Number} {error : ConsensusError}
    (h : (e.broadcast network height).1 = .error error) :
    e.mode = .poa ∧ ∃ text, network.announcementFailure = some text ∧
      error = .announcementFailed text := by
  cases hmode : e.mode with
  | single =>
    rw [Engine.broadcast, hmode] at h
    cases h
  | poa =>
    refine ⟨rfl, ?_⟩
    cases hfailure : network.announcementFailure with
    | none =>
      rw [Engine.broadcast, hmode] at h
      simp [hfailure] at h
    | some text =>
      rw [Engine.broadcast, hmode] at h
      simp only [hfailure] at h
      exact ⟨text, rfl, (Except.error.inj h).symm⟩

/-- What a validator's engine is set up with stays as it is. -/
theorem Serving.eq (h : Serving validatorId listed e) :
    e = ⟨.poa, validatorId, Text.distinct listed, e.round, e.requested, e.announced⟩ := by
  induction h with
  | start h =>
    unfold authority at h
    split at h
    · cases h
    · obtain rfl := Except.ok.inj h
      rfl
  | @propose e h sign network tip transactions timestamp ih =>
    rcases snd_propose e sign network tip transactions timestamp with heq | ⟨p, heq⟩
    · rw [heq]
      exact ih
    · rw [heq, ih]
      rfl
  | @broadcast e h network height ih =>
    rw [snd_broadcast, ih]
  | clearOutbox h ih =>
    rw [ih]
    rfl

theorem Serving.validatorId_eq (h : Serving validatorId listed e) : e.validatorId = validatorId :=
  congrArg Engine.validatorId h.eq

theorem Serving.validators_eq (h : Serving validatorId listed e) :
    e.validators = Text.distinct listed :=
  congrArg Engine.validators h.eq

/-- The same for an engine at any time after it was set up. -/
theorem Serving.propose_eq (h : Serving validatorId listed e) (sign : String → String)
    (network : Network) (tip : Option Tip) {transactions : List BatchTransaction}
    (htxs : transactions ≠ []) (timestamp : Number) {p : Proposal}
    (hp : p = buildProposal sign validatorId tip transactions timestamp) :
    e.propose sign network tip transactions timestamp =
      (if e.quorum ≤ (e.roundOn network p).approvals.length then .ok (some p)
        else .error (.refused p.height (e.roundOn network p).approvals.length
          e.validators.length e.quorum), e.vote network p) := by
  have hmode : e.mode = .poa := congrArg Engine.mode h.eq
  exact propose_poa hmode sign network tip htxs timestamp (h.validatorId_eq ▸ hp)

/-- The round starts with the proposer counted and all its peers waited for. -/
theorem Serving.fair_begin (h : Serving validatorId listed e) (p : Proposal) :
    (Round.begin p.height p.blockHash e.validatorId e.validators).Fair e.validators e.peers := by
  have hnodup : e.validators.Nodup := h.validators_eq ▸ Text.nodup_distinct listed
  exact Round.fair_begin hnodup p.height p.blockHash e.validatorId

theorem blockHash_roundOn (h : Serving validatorId listed e) (network : Network) (p : Proposal) :
    (e.roundOn network p).blockHash = p.blockHash := by
  obtain ⟨heard, rest, -, hcollect, -⟩ := Round.collect_eq_hearAll e.validators.length
    network.late (Round.begin p.height p.blockHash e.validatorId e.validators) e.peers
    (network.arrivals p.blockHash)
  rw [roundOn, hcollect]
  exact ((h.fair_begin p).hearAll heard).2

theorem tally_roundOn (h : Serving validatorId listed e) (network : Network) (p : Proposal) :
    (e.roundOn network p).Tally listed validatorId network := by
  have hstart := h.fair_begin p
  obtain ⟨heard, rest, hsplit, hcollect, -⟩ := Round.collect_eq_hearAll e.validators.length
    network.late (Round.begin p.height p.blockHash e.validatorId e.validators) e.peers
    (network.arrivals p.blockHash)
  obtain ⟨hfair, -⟩ := hstart.hearAll heard
  have happrovals : (e.roundOn network p).approvals =
      ((Round.begin p.height p.blockHash e.validatorId e.validators).hearAll
        e.peers heard).1.approvals := by
    rw [roundOn, hcollect]
    rfl
  have hrejections : (e.roundOn network p).rejections =
      ((Round.begin p.height p.blockHash e.validatorId e.validators).hearAll
        e.peers heard).1.rejections := by
    rw [roundOn, hcollect]
    rfl
  obtain ⟨hnodup, -, hdisjoint⟩ := List.nodup_append'.mp hfair.nodup
  constructor
  · rw [happrovals]
    exact hnodup
  · intro v hv
    rw [happrovals] at hv
    rw [← Text.mem_distinct, ← h.validators_eq]
    exact hfair.known v (List.mem_append_left _ hv)
  · intro v hv hrejected
    rw [happrovals] at hv
    rw [hrejections] at hrejected
    exact hdisjoint hv (List.mem_append_left _ hrejected)
  · intro v hv
    rw [happrovals] at hv
    rw [blockHash_roundOn h, hsplit]
    rcases Round.approves_of_mem_hearAll hstart hv with hown | ⟨-, happroves⟩
    · left
      simp only [Round.begin] at hown
      split at hown
      · exact (List.mem_singleton.mp hown).trans h.validatorId_eq
      · cases hown
    · exact Or.inr (happroves.append rest)

end Engine

/-- Three validators; the list they were set up from names one of them twice. -/
def trio : Engine := ⟨.poa, "a", ["b", "a", "c"], none, [], []⟩

theorem serving_trio : trio.Serving "a" ["b", "a", "b", "c"] := .start rfl

/-- A transaction that holds nothing. -/
def bare : BatchTransaction := ⟨[], [], "a", "", none, none, none, none⟩

end ImageLedger.Consensus
