import ImageLedger.Proofs.Consensus.Engine
import ImageLedger.Fault

namespace ImageLedger.Consensus

/-- The answers that come in of those that the peers give, one each or none. -/
def given (answers : String → Option Answer) (peers : List String) : List Arrival :=
  peers.filterMap fun peer => (answers peer).map (Arrival.mk peer)

theorem mem_given {answers : String → Option Answer} {peers : List String} {a : Arrival} :
    a ∈ given answers peers ↔ a.sender ∈ peers ∧ answers a.sender = some a.answer := by
  simp only [given, List.mem_filterMap, Option.map_eq_some_iff]
  constructor
  · intro h
    obtain ⟨peer, hpeer, answer, hanswer, rfl⟩ := h
    exact ⟨hpeer, hanswer⟩
  · intro h
    exact ⟨a.sender, h.1, a.answer, h.2, rfl⟩

theorem map_sender_given_sublist (answers : String → Option Answer) (peers : List String) :
    ((given answers peers).map (·.sender)).Sublist peers := by
  induction peers with
  | nil => exact List.Sublist.refl []
  | cons peer rest ih =>
    cases hanswer : answers peer with
    | none =>
      rw [given, List.filterMap_cons_none (by rw [hanswer]; rfl)]
      exact ih.cons peer
    | some answer =>
      rw [given, List.filterMap_cons_some (by rw [hanswer]; rfl)]
      exact ih.cons_cons peer

/-- In any order, the approvals that come in are those that were given. -/
theorem approving_of_perm (hash : String) {answers : String → Option Answer}
    {peers : List String} (hpeers : peers.Nodup) {arrivals : List Arrival}
    (h : arrivals.Perm (given answers peers)) :
    approving hash arrivals peers =
      peers.countP fun peer => answers peer = some (.vote peer hash true) := by
  have hnodup : (arrivals.map (·.sender)).Nodup :=
    (h.map _).nodup_iff.mpr (hpeers.sublist (map_sender_given_sublist answers peers))
  refine List.countP_congr fun peer hpeer => ?_
  rw [decide_eq_true_iff, decide_eq_true_iff, approves_iff_mem hnodup, h.mem_iff, mem_given]
  simp only [hpeer, true_and]

namespace Engine

/-- The approvals in a full count: those of the peers, and the proposer's if it is a validator. -/
def fullCount (e : Engine) (answers : String → Option Answer) (hash : String) : Nat :=
  (e.peers.countP fun peer => answers peer = some (.vote peer hash true)) +
    if e.validatorId ∈ e.validators then 1 else 0

variable {validatorId : String} {listed : List String} {e : Engine}

/-- The early decision is the one that the full count asks for. -/
theorem quorum_roundOn_iff (h : Serving validatorId listed e) (network : Network) (p : Proposal)
    (answers : String → Option Answer)
    (horder : (network.arrivals p.blockHash).Perm (given answers e.peers)) :
    e.quorum ≤ (e.roundOn network p).approvals.length ↔
      e.quorum ≤ e.fullCount answers p.blockHash := by
  have hstart := h.fair_begin p
  have hcount := Round.quorum_collect_iff hstart network.late (network.arrivals p.blockHash)
  have hown : (Round.begin p.height p.blockHash e.validatorId e.validators).approvals.length =
      if e.validatorId ∈ e.validators then 1 else 0 := by
    simp only [Round.begin]
    split_ifs <;> rfl
  have hpeers := approving_of_perm p.blockHash hstart.nodup_waiting horder
  rw [hown, Nat.add_comm] at hcount
  exact hcount.trans (by rw [fullCount, ← hpeers]; rfl)

theorem phase_roundOn (e : Engine) (network : Network) (p : Proposal) :
    (e.roundOn network p).phase =
      if e.quorum ≤ (e.roundOn network p).approvals.length then .committed else .rejected := by
  simp only [roundOn, Round.close, Round.approved, decide_eq_true_eq]
  rfl

end Engine

/-- However the answers of the peers are ordered, a proposal comes out exactly if the full count
reaches the quorum; otherwise the round ends rejected and the proposal fails. -/
theorem outcome_of_full_count (validatorId : String) (listed : List String) (e : Engine)
    (h : e.Serving validatorId listed) (sign : String → String) (network : Network)
    (tip : Option Tip) (transactions : List BatchTransaction) (htxs : transactions ≠ [])
    (timestamp : Number) (answers : String → Option Answer) (p : Proposal)
    (hp : p = buildProposal sign validatorId tip transactions timestamp)
    (horder : (network.arrivals p.blockHash).Perm (given answers e.peers)) :
    ∃ result r e', e.propose sign network tip transactions timestamp = (result, e') ∧
      e'.round = some r ∧
      if quorumSize (Text.distinct listed).length ≤ e.fullCount answers p.blockHash then
        r.phase = .committed ∧ result = .ok (some p)
      else r.phase = .rejected ∧ ∃ error, result = .error error ∧ error.category = .consensus := by
  have hquorum : quorumSize (Text.distinct listed).length = e.quorum := by
    rw [Engine.quorum, h.validators_eq]
  have hcount := Engine.quorum_roundOn_iff h network p answers horder
  have hphase := Engine.phase_roundOn e network p
  refine ⟨_, _, _, h.propose_eq sign network tip htxs timestamp hp, rfl, ?_⟩
  rw [hquorum]
  by_cases hfull : e.quorum ≤ e.fullCount answers p.blockHash
  · rw [if_pos (hcount.mpr hfull)] at hphase
    rw [if_pos hfull, if_pos (hcount.mpr hfull)]
    exact ⟨hphase, rfl⟩
  · rw [if_neg (fun hr => hfull (hcount.mp hr))] at hphase
    rw [if_neg hfull, if_neg (fun hr => hfull (hcount.mp hr))]
    exact ⟨hphase, _, rfl, rfl⟩

/-- Both peers of the three approve, the one that was asked last first. -/
theorem outcome_trio : ∃ p r e', trio.propose id
      ⟨fun hash => [⟨"c", .vote "c" hash true⟩, ⟨"b", .vote "b" hash true⟩], 0, none⟩ none [bare]
      0 = (.ok (some p), e') ∧ e'.round = some r ∧ r.phase = .committed := by
  let p := buildProposal id "a" none [bare] 0
  obtain ⟨result, r, e', hp, hr, hend⟩ := outcome_of_full_count "a" _ trio serving_trio id
    ⟨fun hash => [⟨"c", .vote "c" hash true⟩, ⟨"b", .vote "b" hash true⟩], 0, none⟩ none [bare]
    (List.cons_ne_nil bare []) 0 (fun peer => some (.vote peer p.blockHash true)) p rfl
    (List.Perm.swap _ _ [])
  rw [if_pos] at hend
  · obtain ⟨hphase, rfl⟩ := hend
    exact ⟨p, r, e', hp, hr, hphase⟩
  · simp [Engine.fullCount, Engine.peers, trio, Text.distinct, quorumSize]

end ImageLedger.Consensus
