import ImageLedger.Consensus.Round
import Mathlib.Data.List.Nodup
import Mathlib.Data.List.Perm.Subperm

namespace ImageLedger.Consensus

/-- The first answer of a peer approves the block, in the peer's own name. -/
def Approves (hash : String) (arrivals : List Arrival) (peer : String) : Prop :=
  arrivals.find? (·.sender = peer) = some ⟨peer, .vote peer hash true⟩

instance (hash : String) (arrivals : List Arrival) : DecidablePred (Approves hash arrivals) :=
  fun _ => decEq _ _

/-- How many of some peers approve. -/
def approving (hash : String) (arrivals : List Arrival) (peers : List String) : Nat :=
  peers.countP (Approves hash arrivals ·)

theorem not_approves_nil (hash peer : String) : ¬ Approves hash [] peer := by
  simp [Approves]

theorem approves_cons_self {hash : String} {a : Arrival} {rest : List Arrival} :
    Approves hash (a :: rest) a.sender ↔ a.answer = .vote a.sender hash true := by
  obtain ⟨sender, answer⟩ := a
  simp [Approves]

theorem approves_cons_of_ne {hash peer : String} {a : Arrival} {rest : List Arrival}
    (h : peer ≠ a.sender) : Approves hash (a :: rest) peer ↔ Approves hash rest peer := by
  rw [Approves, Approves, List.find?_cons_of_neg (by simpa using h.symm)]

/-- Answers that come later do not change a first answer. -/
theorem Approves.append {hash peer : String} {heard : List Arrival} (h : Approves hash heard peer)
    (rest : List Arrival) : Approves hash (heard ++ rest) peer := by
  rw [Approves, List.find?_append, h]
  rfl

/-- Where nobody answers twice, a peer approves exactly when its approval is among the answers. -/
theorem approves_iff_mem {hash peer : String} {arrivals : List Arrival}
    (h : (arrivals.map (·.sender)).Nodup) :
    Approves hash arrivals peer ↔ ⟨peer, .vote peer hash true⟩ ∈ arrivals := by
  induction arrivals with
  | nil => simp [not_approves_nil]
  | cons a rest ih =>
    obtain ⟨hfresh, hrest⟩ := List.nodup_cons.mp h
    rw [List.mem_cons]
    by_cases hpeer : peer = a.sender
    · have hnone : (⟨peer, .vote peer hash true⟩ : Arrival) ∉ rest := fun hmem =>
        hfresh (List.mem_map.mpr ⟨_, hmem, hpeer⟩)
      obtain ⟨sender, answer⟩ := a
      obtain rfl := hpeer
      rw [approves_cons_self, or_iff_left hnone]
      simp only [Arrival.mk.injEq, true_and, eq_comm]
    · have hother : ⟨peer, .vote peer hash true⟩ ≠ a := fun heq =>
        hpeer (congrArg Arrival.sender heq)
      rw [approves_cons_of_ne hpeer, ih hrest, or_iff_right hother]

theorem approving_nil (hash : String) (peers : List String) : approving hash [] peers = 0 :=
  List.countP_eq_zero.mpr fun peer _ => by simp [not_approves_nil]

theorem approving_le (hash : String) (arrivals : List Arrival) (peers : List String) :
    approving hash arrivals peers ≤ peers.length :=
  List.countP_le_length

namespace Round

variable {validators waiting : List String} {r : Round}

/-- Everyone who is counted or waited for is a validator, and stands in one place only. -/
structure Fair (validators : List String) (r : Round) (waiting : List String) : Prop where
  nodup : (r.approvals ++ (r.rejections ++ waiting)).Nodup
  known : ∀ v ∈ r.approvals ++ (r.rejections ++ waiting), v ∈ validators

theorem Fair.nodup_waiting (h : r.Fair validators waiting) : waiting.Nodup := by
  obtain ⟨-, hrest, -⟩ := List.nodup_append'.mp h.nodup
  exact (List.nodup_append'.mp hrest).2.1

/-- Who is waited for is not counted yet. -/
theorem Fair.fresh (h : r.Fair validators waiting) {v : String} (hv : v ∈ waiting) :
    ¬ (v ∈ r.approvals ∨ v ∈ r.rejections) := by
  obtain ⟨-, hrest, hfirst⟩ := List.nodup_append'.mp h.nodup
  obtain ⟨-, -, hsecond⟩ := List.nodup_append'.mp hrest
  rintro (happroved | hrejected)
  · exact hfirst happroved (List.mem_append_right _ hv)
  · exact hsecond hrejected hv

theorem fair_begin {validators : List String} (h : validators.Nodup) (height : Number)
    (hash proposer : String) :
    (begin height hash proposer validators).Fair validators
      (validators.filter (· ≠ proposer)) := by
  have hpeers : (validators.filter (· ≠ proposer)).Nodup := h.filter _
  have hin : ∀ v ∈ validators.filter (· ≠ proposer), v ∈ validators :=
    fun v hv => (List.mem_filter.mp hv).1
  by_cases hp : proposer ∈ validators
  · simp only [begin, if_pos hp]
    refine ⟨List.nodup_cons.mpr ⟨by simp, hpeers⟩, fun v hv => ?_⟩
    rcases List.mem_cons.mp hv with rfl | hv
    · exact hp
    · exact hin v hv
  · simp only [begin, if_neg hp]
    exact ⟨hpeers, hin⟩

/-- Hearing an answer counts its sender once, or changes nothing. -/
theorem hear_cases (h : r.Fair validators waiting) (a : Arrival) :
    (a.sender ∉ waiting ∧ r.hear waiting a = (r, waiting)) ∨
    (a.sender ∈ waiting ∧ a.answer = .vote a.sender r.blockHash true ∧
      r.hear waiting a = (r.approve a.sender, waiting.erase a.sender)) ∨
    (a.sender ∈ waiting ∧ a.answer ≠ .vote a.sender r.blockHash true ∧
      r.hear waiting a = (r.reject a.sender, waiting.erase a.sender)) := by
  obtain ⟨sender, answer⟩ := a
  by_cases hmem : sender ∈ waiting
  · right
    simp only [hear, hmem, if_true, true_and]
    cases answer with
    | failed => exact Or.inr ⟨nofun, rfl⟩
    | vote validatorId blockHash approve =>
      simp only [record, if_neg (h.fresh hmem), ne_eq, Answer.vote.injEq]
      by_cases hown : ¬ validatorId = sender ∨ ¬ blockHash = r.blockHash
      · right
        rw [if_pos hown]
        exact ⟨fun heq => hown.elim (· heq.1) (· heq.2.1), rfl⟩
      · rw [if_neg hown]
        rw [not_or, not_not, not_not] at hown
        cases approve with
        | true => exact Or.inl ⟨⟨hown.1, hown.2, rfl⟩, rfl⟩
        | false => exact Or.inr ⟨nofun, rfl⟩
  · exact Or.inl ⟨hmem, by simp only [hear, if_neg hmem]⟩

/-- Hears all of some answers, in their order. -/
def hearAll (r : Round) (waiting : List String) : List Arrival → Round × List String
  | [] => (r, waiting)
  | a :: rest => hearAll (r.hear waiting a).1 (r.hear waiting a).2 rest

theorem Fair.hear (h : r.Fair validators waiting) (a : Arrival) :
    (r.hear waiting a).1.Fair validators (r.hear waiting a).2 := by
  rcases hear_cases h a with ⟨-, heq⟩ | ⟨hmem, -, heq⟩ | ⟨hmem, -, heq⟩
  · rw [heq]
    exact h
  · have hperm : (r.approvals ++ [a.sender] ++ (r.rejections ++ waiting.erase a.sender)).Perm
        (r.approvals ++ (r.rejections ++ waiting)) := by
      rw [List.append_assoc]
      apply List.Perm.append_left
      show (a.sender :: (r.rejections ++ waiting.erase a.sender)).Perm _
      exact List.perm_middle.symm.trans ((List.perm_cons_erase hmem).symm.append_left _)
    rw [heq]
    exact ⟨hperm.nodup_iff.mpr h.nodup, fun v hv => h.known v (hperm.mem_iff.mp hv)⟩
  · have hperm : (r.approvals ++ (r.rejections ++ [a.sender] ++ waiting.erase a.sender)).Perm
        (r.approvals ++ (r.rejections ++ waiting)) := by
      rw [List.append_assoc]
      exact ((List.perm_cons_erase hmem).symm.append_left _).append_left _
    rw [heq]
    exact ⟨hperm.nodup_iff.mpr h.nodup, fun v hv => h.known v (hperm.mem_iff.mp hv)⟩

theorem blockHash_hear (h : r.Fair validators waiting) (a : Arrival) :
    (r.hear waiting a).1.blockHash = r.blockHash := by
  rcases hear_cases h a with ⟨-, heq⟩ | ⟨-, -, heq⟩ | ⟨-, -, heq⟩ <;> rw [heq] <;> rfl

theorem Fair.hearAll (h : r.Fair validators waiting) (arrivals : List Arrival) :
    (r.hearAll waiting arrivals).1.Fair validators (r.hearAll waiting arrivals).2 ∧
      (r.hearAll waiting arrivals).1.blockHash = r.blockHash := by
  induction arrivals generalizing r waiting with
  | nil => exact ⟨h, rfl⟩
  | cons a rest ih =>
    obtain ⟨hfair, hhash⟩ := ih (h.hear a)
    exact ⟨hfair, hhash.trans (blockHash_hear h a)⟩

/-- Who approves in the end approved at first, or was waited for and answered so. -/
theorem approves_of_mem_hearAll (h : r.Fair validators waiting) {arrivals : List Arrival}
    {v : String} (hv : v ∈ (r.hearAll waiting arrivals).1.approvals) :
    v ∈ r.approvals ∨ (v ∈ waiting ∧ Approves r.blockHash arrivals v) := by
  induction arrivals generalizing r waiting with
  | nil => exact Or.inl hv
  | cons a rest ih =>
    have hnext := ih (h.hear a) hv
    rw [blockHash_hear h a] at hnext
    rcases hear_cases h a with ⟨hmem, heq⟩ | ⟨hmem, hvote, heq⟩ | ⟨hmem, -, heq⟩
    · rw [heq] at hnext
      refine hnext.imp id fun ⟨hw, happ⟩ => ⟨hw, (approves_cons_of_ne ?_).mpr happ⟩
      rintro rfl
      exact hmem hw
    · rw [heq] at hnext
      rcases hnext with hold | ⟨hw, happ⟩
      · rcases List.mem_append.mp hold with hold | hnew
        · exact Or.inl hold
        · obtain rfl := List.mem_singleton.mp hnew
          exact Or.inr ⟨hmem, approves_cons_self.mpr hvote⟩
      · obtain ⟨hne, hw⟩ := h.nodup_waiting.mem_erase_iff.mp hw
        exact Or.inr ⟨hw, (approves_cons_of_ne hne).mpr happ⟩
    · rw [heq] at hnext
      refine hnext.imp id fun ⟨hw, happ⟩ => ?_
      obtain ⟨hne, hw⟩ := h.nodup_waiting.mem_erase_iff.mp hw
      exact ⟨hw, (approves_cons_of_ne hne).mpr happ⟩

/-- Approvals that were counted and those that are still to come make the same sum all along. -/
theorem approvals_hear (h : r.Fair validators waiting) (a : Arrival) (rest : List Arrival) :
    (r.hear waiting a).1.approvals.length + approving r.blockHash rest (r.hear waiting a).2 =
      r.approvals.length + approving r.blockHash (a :: rest) waiting := by
  have hothers : ∀ peers : List String, a.sender ∉ peers →
      approving r.blockHash (a :: rest) peers = approving r.blockHash rest peers := by
    intro peers hnot
    refine List.countP_congr fun peer hpeer => ?_
    have hne : peer ≠ a.sender := by
      rintro rfl
      exact hnot hpeer
    simpa using approves_cons_of_ne hne
  have herased : a.sender ∈ waiting → approving r.blockHash (a :: rest) waiting =
      approving r.blockHash rest (waiting.erase a.sender) +
        if a.answer = .vote a.sender r.blockHash true then 1 else 0 := by
    intro hmem
    have hcount := (List.perm_cons_erase hmem).countP_eq (Approves r.blockHash (a :: rest) ·)
    rw [List.countP_cons] at hcount
    rw [approving, hcount, ← hothers _ h.nodup_waiting.not_mem_erase, approving]
    simp only [decide_eq_true_eq, approves_cons_self]
  rcases hear_cases h a with ⟨hmem, heq⟩ | ⟨hmem, hvote, heq⟩ | ⟨hmem, hvote, heq⟩
  · rw [heq, hothers waiting hmem]
  · rw [heq, herased hmem, if_pos hvote]
    simp only [approve, List.length_append, List.length_singleton]
    omega
  · rw [heq, herased hmem, if_neg hvote]
    rfl

theorem approvals_hearAll (h : r.Fair validators waiting) (heard rest : List Arrival) :
    (r.hearAll waiting heard).1.approvals.length +
        approving r.blockHash rest (r.hearAll waiting heard).2 =
      r.approvals.length + approving r.blockHash (heard ++ rest) waiting := by
  induction heard generalizing r waiting with
  | nil => rfl
  | cons a heard ih =>
    rw [List.cons_append, ← approvals_hear h a, hearAll, ← blockHash_hear h a]
    exact ih (h.hear a)

/-- A round hears its first answers, and leaves the others out only once it is decided. -/
theorem collect_eq_hearAll (count late : Nat) (r : Round) (waiting : List String)
    (arrivals : List Arrival) :
    ∃ heard rest, arrivals = heard ++ rest ∧
      r.collect count late waiting arrivals = (r.hearAll waiting heard).1 ∧
      (rest = [] ∨ (r.hearAll waiting heard).1.decided count = true) := by
  induction arrivals generalizing late r waiting with
  | nil => exact ⟨[], [], rfl, by simp only [collect, hearAll], Or.inl rfl⟩
  | cons a arrivals ih =>
    have hnext : ∀ late, ∃ heard rest, a :: arrivals = heard ++ rest ∧
        (r.hear waiting a).1.collect count late (r.hear waiting a).2 arrivals =
          (r.hearAll waiting heard).1 ∧
        (rest = [] ∨ (r.hearAll waiting heard).1.decided count = true) := by
      intro late
      obtain ⟨heard, rest, rfl, hcollect, hend⟩ := ih late (r.hear waiting a).1 (r.hear waiting a).2
      exact ⟨a :: heard, rest, rfl, hcollect, hend⟩
    simp only [collect]
    split
    · next hdecided =>
      cases late with
      | zero => exact ⟨[], a :: arrivals, rfl, rfl, Or.inr hdecided⟩
      | succ late => exact hnext late
    · exact hnext late

/-- Nobody who is waited for is missing from the count of those not heard. -/
theorem Fair.length_waiting (h : r.Fair validators waiting) :
    waiting.length ≤ r.outstanding validators.length := by
  have hle := (h.nodup.subperm h.known).length_le
  simp only [List.length_append] at hle
  rw [outstanding]
  omega

/-- A round ends with a quorum of approvals exactly when a full count of the first answers gives
one. -/
theorem quorum_collect_iff (h : r.Fair validators waiting) (late : Nat) (arrivals : List Arrival) :
    quorumSize validators.length ≤
        (r.collect validators.length late waiting arrivals).approvals.length ↔
      quorumSize validators.length ≤
        r.approvals.length + approving r.blockHash arrivals waiting := by
  obtain ⟨heard, rest, rfl, hcollect, hend⟩ :=
    collect_eq_hearAll validators.length late r waiting arrivals
  rw [hcollect, ← approvals_hearAll h heard rest]
  obtain ⟨hfair, -⟩ := h.hearAll heard
  rcases hend with rfl | hdecided
  · rw [approving_nil, Nat.add_zero]
  · -- the peers that are still out are too few to turn the result
    have hout := hfair.length_waiting
    have happ := approving_le r.blockHash rest (r.hearAll waiting heard).2
    simp only [decided, Bool.or_eq_true, decide_eq_true_eq] at hdecided
    omega

end Round

end ImageLedger.Consensus
