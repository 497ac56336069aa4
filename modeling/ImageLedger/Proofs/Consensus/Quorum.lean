import ImageLedger.Proofs.Consensus.Engine
import ImageLedger.Proofs.Store.Chain

namespace ImageLedger

namespace Consensus

theorem quorumSize_le {n : Nat} (h : 1 ≤ n) : quorumSize n ≤ n := by
  rw [quorumSize]
  omega

/-- Two sets of validators have at least as many members in common as they are together too many
for the validators. -/
theorem length_add_le_common {validators first second : List String} (hfirst : first.Nodup)
    (hsecond : second.Nodup) (hfirstKnown : ∀ v ∈ first, v ∈ validators)
    (hsecondKnown : ∀ v ∈ second, v ∈ validators) :
    first.length + second.length ≤ validators.length + (first.filter (· ∈ second)).length := by
  have hsplit := List.length_eq_length_filter_add (l := first) (· ∈ second)
  have hunion : ((first.filter fun v => !decide (v ∈ second)) ++ second).Nodup := by
    refine List.nodup_append'.mpr ⟨hfirst.filter _, hsecond, fun v hv hin => ?_⟩
    have hnot := (List.mem_filter.mp hv).2
    simp [hin] at hnot
  have hle := (hunion.subperm fun v hv => (List.mem_append.mp hv).elim
    (fun h => hfirstKnown v (List.mem_of_mem_filter h)) (hsecondKnown v)).length_le
  rw [List.length_append] at hle
  omega

/-- Quorums of the same validators have more than a third of them in common. -/
theorem third_lt_common {validators first second : List String} (hfirst : first.Nodup)
    (hsecond : second.Nodup) (hfirstKnown : ∀ v ∈ first, v ∈ validators)
    (hsecondKnown : ∀ v ∈ second, v ∈ validators)
    (hfirstQuorum : quorumSize validators.length ≤ first.length)
    (hsecondQuorum : quorumSize validators.length ≤ second.length) :
    validators.length < 3 * (first.filter (· ∈ second)).length := by
  have hcommon := length_add_le_common hfirst hsecond hfirstKnown hsecondKnown
  rw [quorumSize] at hfirstQuorum hsecondQuorum
  omega

/-- A round that let a proposal come out. -/
structure Round.Agrees (listed : List String) (proposer : String) (network : Network)
    (p : Proposal) (r : Round) : Prop extends r.Tally listed proposer network where
  phase : r.phase = .committed
  blockHash : r.blockHash = p.blockHash
  quorum : quorumSize (Text.distinct listed).length ≤ r.approvals.length

namespace Engine

variable {validatorId : String} {listed : List String} {e e' : Engine} {sign : String → String}
  {network : Network} {tip : Option Tip} {transactions : List BatchTransaction}
  {timestamp : Number} {p : Proposal}

/-- The proposal that comes out is the one that was voted on. -/
theorem Serving.exists_round (h : Serving validatorId listed e)
    (hp : e.propose sign network tip transactions timestamp = (.ok (some p), e')) :
    p = buildProposal sign validatorId tip transactions timestamp ∧
      e'.round = some (e.roundOn network p) ∧
      (e.roundOn network p).Agrees listed validatorId network p := by
  have htxs : transactions ≠ [] := by
    rintro rfl
    cases hp
  rw [h.propose_eq sign network tip htxs timestamp rfl] at hp
  obtain ⟨hresult, rfl⟩ := Prod.mk.inj hp
  split at hresult
  · next hquorum =>
    obtain rfl := Option.some.inj (Except.ok.inj hresult)
    refine ⟨rfl, round_vote e network _, tally_roundOn h network _, ?_, blockHash_roundOn h _ _, ?_⟩
    · exact if_pos (decide_eq_true hquorum)
    · exact h.validators_eq ▸ hquorum
  · cases hresult

/-- A proposal came out of this round among the listed validators. -/
def Decided (validatorId : String) (listed : List String) (network : Network) (p : Proposal)
    (r : Round) : Prop :=
  ∃ e e' sign tip transactions timestamp, Serving validatorId listed e ∧
    e.propose sign network tip transactions timestamp = (.ok (some p), e') ∧ e'.round = some r

theorem Decided.agrees {r : Round} (h : Decided validatorId listed network p r) :
    r.Agrees listed validatorId network p := by
  obtain ⟨e, e', sign, tip, transactions, timestamp, hserving, hp, hr⟩ := h
  obtain ⟨-, hround, hagrees⟩ := hserving.exists_round hp
  obtain rfl := Option.some.inj (hround.symm.trans hr)
  exact hagrees

end Engine

/-- The hash of the block that a fresh proposal is stored as is the one that was voted on. -/
theorem blockHash_nextBlock_buildProposal (s : Store) (sign : String → String)
    (validatorId : String) (tip : Option Tip) (transactions : List BatchTransaction)
    (timestamp : Number) :
    (s.nextBlock (buildProposal sign validatorId tip transactions timestamp)).blockHash =
      (buildProposal sign validatorId tip transactions timestamp).blockHash := rfl

/-- A proposal comes out only of a round in which a quorum of the validators approved it, and the
block it is stored as has the hash they voted on. A quorum is never more than all validators, and
two rounds of the same validators have more than a third of them in common. -/
theorem agreed_by_quorum (validatorId : String) (listed : List String) (e e' : Engine)
    (h : e.Serving validatorId listed) (sign : String → String) (network : Network)
    (tip : Option Tip) (transactions : List BatchTransaction) (timestamp : Number) (p : Proposal)
    (hp : e.propose sign network tip transactions timestamp = (.ok (some p), e')) :
    ∃ r, e'.round = some r ∧ r.Agrees listed validatorId network p ∧
      (∀ (s t : Store) (nodeId : String) (after : Store.AfterBlock) (stored : StoredBlock),
        after.KeepsLedger → s.storeBlock nodeId p after = .ok (stored, t) →
        stored.block.blockHash = r.blockHash ∧ t.blocks = s.blocks ++ [stored.block]) ∧
      (∀ n, 1 ≤ n → quorumSize n ≤ n) ∧
      (∀ validatorId' listed' network' p' r', (∀ v, v ∈ listed' ↔ v ∈ listed) →
        Engine.Decided validatorId' listed' network' p' r' →
        (Text.distinct listed).length < 3 * (r.approvals.filter (· ∈ r'.approvals)).length) := by
  obtain ⟨hbuilt, hround, hagrees⟩ := h.exists_round hp
  refine ⟨_, hround, hagrees, ?_, fun n => quorumSize_le, ?_⟩
  · intro s t nodeId after stored hafter hstored
    obtain ⟨entries, -, rfl, hok⟩ := Store.storeBlock_eq_ok.mp hstored
    constructor
    · rw [hagrees.blockHash, hbuilt]
      exact blockHash_nextBlock_buildProposal s sign validatorId tip transactions timestamp
    · rw [hafter _ _ _ hok]
      rfl
  · intro validatorId' listed' network' p' r' hsame hdecided
    have hagrees' := hdecided.agrees
    have hquorum' := hagrees'.quorum
    rw [(Text.distinct_perm hsame).length_eq] at hquorum'
    exact third_lt_common hagrees.nodup hagrees'.nodup
      (fun v hv => Text.mem_distinct.mpr (hagrees.known v hv))
      (fun v hv => Text.mem_distinct.mpr ((hsame v).mp (hagrees'.known v hv)))
      hagrees.quorum hquorum'

/-- Both peers approve, and one of them answers again. -/
def trioVotes : Network where
  arrivals hash := [⟨"c", .vote "c" hash true⟩, ⟨"c", .failed⟩, ⟨"b", .vote "b" hash true⟩]
  announcementFailure := none

theorem approvals_trio (p : Proposal) : (trio.roundOn trioVotes p).approvals = ["a", "c", "b"] := by
  simp [Engine.roundOn, Round.close, Round.begin, Round.collect, Round.hear, Round.record,
    Round.approve, Round.decided, Round.outstanding, quorumSize, Engine.peers, trio, trioVotes]

theorem propose_trio : ∃ p, trio.propose id trioVotes none [bare] 0 =
    (.ok (some p), trio.vote trioVotes p) := by
  have hpropose := serving_trio.propose_eq id trioVotes none (List.cons_ne_nil bare []) 0 rfl
  rw [approvals_trio] at hpropose
  exact ⟨_, hpropose⟩

/-- The three agree, and share all three approvals with themselves. -/
theorem agreed_by_trio : ∃ p r, trio.propose id trioVotes none [bare] 0 =
    (.ok (some p), trio.vote trioVotes p) ∧ (trio.vote trioVotes p).round = some r ∧
    r.Agrees ["b", "a", "b", "c"] "a" trioVotes p ∧
    3 < 3 * (r.approvals.filter (· ∈ r.approvals)).length := by
  obtain ⟨p, hp⟩ := propose_trio
  obtain ⟨r, hround, hagrees, -, -, hcommon⟩ :=
    agreed_by_quorum "a" _ trio _ serving_trio id trioVotes none [bare] 0 p hp
  exact ⟨p, r, hp, hround, hagrees,
    hcommon "a" _ trioVotes p r (fun _ => Iff.rfl) ⟨_, _, _, _, _, _, serving_trio, hp, hround⟩⟩

end Consensus

end ImageLedger
