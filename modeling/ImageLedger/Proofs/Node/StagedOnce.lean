import ImageLedger.Proofs.Node.IntakeSteps

namespace ImageLedger.Pipeline

/-- What requests to stage hashes reach together with the workers and the clock, as long as every
state on the way is allowed. The requests are listed as their activities are, newest first. -/
inductive Taking (s : Http.Surroundings) (allowed : List IntakeRequest → Pipeline → Prop)
    (start : Node) : List IntakeRequest → Pipeline → Prop
  | start : Taking s allowed start [] ⟨start, none, none, [], []⟩
  | request {requests : List IntakeRequest} {p : Pipeline} (r : IntakeRequest) :
      Taking s allowed start requests p →
      allowed (r :: requests) { p with others := ⟨_, r.activity s⟩ :: p.others } →
      Taking s allowed start (r :: requests) { p with others := ⟨_, r.activity s⟩ :: p.others }
  | clock {requests : List IntakeRequest} {p : Pipeline} (milliseconds : Int) :
      Taking s allowed start requests p →
      allowed requests { p with node := p.node.advance milliseconds } →
      Taking s allowed start requests { p with node := p.node.advance milliseconds }
  | step {requests : List IntakeRequest} {p q : Pipeline} : Taking s allowed start requests p →
      p.Step q → q.others.length = p.others.length → allowed requests q →
      Taking s allowed start requests q

/-- The request at a place is for the hash. -/
def Asked (hash : String) (requests : List IntakeRequest) (i : Nat) : Prop :=
  ∃ r, requests[i]? = some r ∧ r.AsksFor hash

/-- The request at a place has found the hash nowhere, and has not staged it yet. -/
def Waits (hash : String) (requests : List IntakeRequest) (p : Pipeline) (i : Nat) : Prop :=
  ∃ r d, requests[i]? = some r ∧ r.read = .ok d ∧ HashText.lower d.entry.imageHash = hash ∧
    p.others[i]? = some ⟨_, (IntakePhase.cleared d).rest⟩

/-- At most one request for the hash is about to stage it. -/
def Apart (hash : String) (requests : List IntakeRequest) (p : Pipeline) : Prop :=
  ∀ i j, Waits hash requests p i → Waits hash requests p j → i = j

/-- The request at a place is answered with the status. -/
def Answers (p : Pipeline) (i status : Nat) : Prop :=
  ∃ result, p.others[i]? = some ⟨Except Fault Http.Response, .done result⟩ ∧
    ∀ production, (Http.respond production result).status = status

/-- Every request for the hash has been answered, and no submission of it was rejected. -/
structure Settled (hash : String) (requests : List IntakeRequest) (p : Pipeline) : Prop where
  asked : ∃ i, Asked hash requests i
  answered : ∀ i, Asked hash requests i → ∃ result,
    p.others[i]? = some ⟨Except Fault Http.Response, .done result⟩
  kept : ∀ row ∈ p.node.store.submissions, row.hash = hash → row.status ≠ .rejected

/-- One request for the hash has its submission accepted, and all others are refused. -/
def OneAccepted (hash : String) (requests : List IntakeRequest) (p : Pipeline) : Prop :=
  ∃ i, Asked hash requests i ∧ Answers p i 202 ∧
    ∀ j, Asked hash requests j → j ≠ i → Answers p j 409

/-- A request and what it has come to. -/
structure IntakeCase where
  request : IntakeRequest
  phase : IntakePhase

namespace IntakeCase

def task (c : IntakeCase) : Activity.Some Node := ⟨_, c.phase.rest⟩

theorem asksFor {c : IntakeCase} {hash : String} (hfits : c.phase.Fits c.request)
    (hstaged : c.phase.hasStaged hash = true) : c.request.AsksFor hash := by
  obtain ⟨r, phase⟩ := c
  cases phase with
  | staged d | accepted d | lost d => exact ⟨d, hfits, of_decide_eq_true hstaged⟩
  | unread | unreadable | arrived | onLedger | unlisted | repeated | cleared => cases hstaged

/-- A request has an answer once nothing is left of it. -/
theorem answers {c : IntakeCase} {hash : String} {s : Store} (hfits : c.phase.Fits c.request)
    (hevident : c.phase.Evident hash s) (hask : c.request.AsksFor hash)
    {result : Except Fault Http.Response} (hdone : c.phase.rest = .done result) :
    (c.phase.hasStaged hash = true ∧
      ∀ production, (Http.respond production result).status = 202) ∨
    (c.phase.hasStaged hash = false ∧ 0 < s.submitted hash ∧
      ∀ production, (Http.respond production result).status = 409) := by
  obtain ⟨r, phase⟩ := c
  obtain ⟨d', hread, hd'⟩ := hask
  cases phase with
  | unread | arrived | unlisted | cleared | staged => cases hdone
  | unreadable e => cases hfits.symm.trans hread
  | onLedger d =>
    cases hfits.symm.trans hread
    cases hdone
    exact Or.inr ⟨rfl, hevident hd', fun production => rfl⟩
  | repeated d =>
    cases hfits.symm.trans hread
    cases hdone
    exact Or.inr ⟨rfl, hevident hd', fun production => rfl⟩
  | accepted d receipt =>
    cases hfits.symm.trans hread
    cases hdone
    exact Or.inl ⟨decide_eq_true hd', fun production => rfl⟩
  | lost => exact hevident.elim

end IntakeCase

/-- What holds of a hash all along: there are as many submissions of it as requests have staged, and
at most one is live. -/
structure Accounted (hash : String) (cases : List IntakeCase) (p : Pipeline) : Prop where
  others : p.others = cases.map IntakeCase.task
  fits : ∀ c ∈ cases, c.phase.Fits c.request
  evident : ∀ c ∈ cases, c.phase.Evident hash p.node.store
  submitted : p.node.store.submitted hash = cases.countP (·.phase.hasStaged hash)
  live : p.node.store.live hash ≤ 1
  taken : p.node.store.Taken
  consistent : p.Consistent

namespace Accounted

variable {hash : String} {cases : List IntakeCase} {p q : Pipeline}

theorem rework (h : Accounted hash cases p) (hothers : q.others = p.others)
    (hstore : p.node.store.Reworks q.node.store) (hq : q.Consistent) : Accounted hash cases q where
  others := hothers.trans h.others
  fits := h.fits
  evident := fun c hc => (h.evident c hc).rework hstore
  submitted := (hstore.submitted hash).trans h.submitted
  live := Nat.le_trans (hstore.live_le hash) h.live
  taken := h.taken.rework hstore
  consistent := hq

/-- No request is about to stage a hash beside another one that is. -/
theorem alone {before after : List IntakeCase} {c : IntakeCase} {d : Draft}
    (h : Accounted hash (before ++ c :: after) p)
    (hapart : Apart hash ((before ++ c :: after).map (·.request)) p)
    (hphase : c.phase = .cleared d) (hd : HashText.lower d.entry.imageHash = hash) :
    ∀ b ∈ before ++ after, ∀ d', b.phase = .cleared d' →
      HashText.lower d'.entry.imageHash ≠ hash := by
  have hwaits : ∀ i b d', (before ++ c :: after)[i]? = some b → b.phase = .cleared d' →
      HashText.lower d'.entry.imageHash = hash →
      Waits hash ((before ++ c :: after).map (·.request)) p i := by
    intro i b d' hb hphase hd'
    have hfits := h.fits b (List.mem_of_getElem? hb)
    rw [hphase] at hfits
    refine ⟨b.request, d', ?_, hfits, hd', ?_⟩
    · rw [List.getElem?_map, hb]
      rfl
    · rw [h.others, List.getElem?_map, hb, ← hphase]
      rfl
  have hplace : ∀ i b d', (before ++ c :: after)[i]? = some b → b.phase = .cleared d' →
      HashText.lower d'.entry.imageHash = hash → i = before.length := fun i b d' hb hphase' hd' =>
    hapart i before.length (hwaits i b d' hb hphase' hd')
      (hwaits before.length c d (by simp) hphase hd)
  intro b hb d' hphase' hd'
  rcases List.mem_append.mp hb with hb | hb
  · obtain ⟨i, hi, rfl⟩ := List.getElem_of_mem hb
    have hhere := hplace i _ d' (by simp [List.getElem?_append_left, hi]) hphase' hd'
    omega
  · obtain ⟨i, hi, rfl⟩ := List.getElem_of_mem hb
    have hhere := hplace (before.length + (i + 1)) _ d' (by simp [hi]) hphase' hd'
    omega

/-- A step of one request. -/
theorem move {before after : List IntakeCase} {c : IntakeCase} {y : IntakePhase} {n : Node}
    (h : Accounted hash (before ++ c :: after) p)
    (hapart : Apart hash ((before ++ c :: after).map (·.request)) p)
    (hmove : c.phase.Moves p.node y n) (hnode : q.node = n)
    (hothers : q.others = (before ++ ⟨c.request, y⟩ :: after).map IntakeCase.task)
    (hq : q.Consistent) : Accounted hash (before ++ ⟨c.request, y⟩ :: after) q := by
  obtain ⟨hfitsBefore, hfits, hfitsAfter⟩ := List.forall_mem_append.mp h.fits |>.imp_right
    List.forall_mem_cons.mp
  obtain ⟨hbefore, hc, hafter⟩ := List.forall_mem_append.mp h.evident |>.imp_right
    List.forall_mem_cons.mp
  have hfits' : ∀ b ∈ before ++ ⟨c.request, y⟩ :: after, b.phase.Fits b.request :=
    List.forall_mem_append.mpr
      ⟨hfitsBefore, List.forall_mem_cons.mpr ⟨hmove.fits hfits, hfitsAfter⟩⟩
  have hsubmitted := h.submitted
  rw [List.countP_append, List.countP_cons] at hsubmitted
  subst hnode
  rcases hmove.stages_or_looks hfits hc h.taken with
    ⟨d, receiptId, hread, hx, hy, hstore⟩ | ⟨hnode, hsame, hevident⟩
  · rw [hx] at hc hsubmitted
    have hapart' : ∀ b ∈ before ++ after, HashText.lower d.entry.imageHash = hash →
        ∀ d', b.phase = .cleared d' → HashText.lower d'.entry.imageHash ≠ hash :=
      fun b hb hd => h.alone hapart hx hd b hb
    refine ⟨hothers, hfits', ?_, ?_, ?_, ?_, hq⟩
    · rw [hstore]
      refine List.forall_mem_append.mpr ⟨fun b hb => ?_, List.forall_mem_cons.mpr ?_⟩
      · exact (hbefore b hb).stage (hapart' b (List.mem_append_left _ hb)) receiptId _
      · refine ⟨?_, fun b hb => ?_⟩
        · rw [hy]
          exact ⟨_, List.mem_append_right _ List.mem_cons_self, rfl⟩
        · exact (hafter b hb).stage (hapart' b (List.mem_append_right _ hb)) receiptId _
    · rw [hstore, Store.submitted_stage, hsubmitted, List.countP_append, List.countP_cons, hy]
      simp [IntakePhase.hasStaged, Nat.add_assoc]
    · rw [hstore, Store.live_stage]
      split
      · next hd => rw [hc hd]
      · exact h.live
    · rw [hstore]
      exact h.taken.stage (IntakeRequest.proper_of_read hread) receiptId _
  · refine ⟨hothers, hfits', ?_, ?_, ?_, ?_, hq⟩ <;> rw [hnode]
    · exact List.forall_mem_append.mpr ⟨hbefore, List.forall_mem_cons.mpr ⟨hevident, hafter⟩⟩
    · rw [hsubmitted, List.countP_append, List.countP_cons, hsame]
    · exact h.live
    · exact h.taken

end Accounted

/-- What is counted once stands at one place only. -/
theorem exists_sole_of_countP {α : Type} {f : α → Bool} {l : List α} (h : l.countP f = 1) :
    ∃ (i : Nat) (a : α), l[i]? = some a ∧ f a = true ∧
      ∀ (j : Nat) (b : α), l[j]? = some b → f b = true → j = i := by
  obtain ⟨a, hmem, ha⟩ := List.countP_pos_iff.mp (h ▸ Nat.one_pos)
  obtain ⟨before, after, rfl⟩ := List.append_of_mem hmem
  rw [List.countP_append, List.countP_cons, if_pos ha] at h
  have hbefore := List.countP_eq_zero.mp (show before.countP f = 0 by omega)
  have hafter := List.countP_eq_zero.mp (show after.countP f = 0 by omega)
  refine ⟨before.length, a, by simp, ha, fun j b hj hb => ?_⟩
  rcases Nat.lt_or_ge j before.length with hlt | hge
  · rw [List.getElem?_append_left hlt] at hj
    exact absurd hb (hbefore b (List.mem_of_getElem? hj))
  · by_contra hne
    rw [List.getElem?_append_right hge, List.getElem?_cons, if_neg (by omega)] at hj
    exact absurd hb (hafter b (List.mem_of_getElem? hj))

theorem Consistent.clock {p : Pipeline} (h : p.Consistent) (milliseconds : Int) :
    Consistent { p with node := p.node.advance milliseconds } := by
  have hbegun := h.step (.beginOther _ (.clock milliseconds))
  have hpassed := hbegun.step (@Step.other _ [] _ _ _ _ _ rfl rfl)
  exact { hpassed with others := fun a ha => hpassed.others a (List.mem_cons_of_mem _ ha) }

namespace Taking

variable {s : Http.Surroundings} {allowed : List IntakeRequest → Pipeline → Prop} {start : Node}
  {requests : List IntakeRequest} {p : Pipeline} {hash : String}

theorem apart (h : Taking s (Apart hash) start requests p) : Apart hash requests p := by
  cases h with
  | start => exact fun i j ⟨r, _, hr, _⟩ => nomatch hr
  | request _ _ h | clock _ _ h | step _ _ _ h => exact h

/-- Requests that are apart keep to what holds all along. -/
theorem accounted (hempty : start.store = Store.empty)
    (h : Taking s (Apart hash) start requests p) :
    ∃ cases, cases.map IntakeCase.request = requests ∧ Accounted hash cases p := by
  induction h with
  | start =>
    refine ⟨[], rfl, rfl, ?_, ?_, ?_, ?_, ?_, (Reach.start).consistent hempty⟩
    · exact fun c hc => nomatch hc
    · exact fun c hc => nomatch hc
    all_goals simp only [hempty]
    · rfl
    · exact Nat.zero_le 1
    · exact Store.taken_empty
  | @request requests p r hbefore _ ih =>
    obtain ⟨cases, rfl, hp⟩ := ih
    refine ⟨⟨r, .unread r⟩ :: cases, rfl, ?_, ?_, ?_, ?_, hp.live, hp.taken, ?_⟩
    · rw [IntakePhase.activity_eq, hp.others]
      rfl
    · exact List.forall_mem_cons.mpr ⟨rfl, hp.fits⟩
    · exact List.forall_mem_cons.mpr ⟨trivial, hp.evident⟩
    · simpa [List.countP_cons, IntakePhase.hasStaged] using hp.submitted
    · refine { hp.consistent with others := fun a ha => ?_ }
      rcases List.mem_cons.mp ha with rfl | ha
      · exact IntakePhase.within_activity s r
      · exact hp.consistent.others a ha
  | @clock requests p milliseconds hbefore _ ih =>
    obtain ⟨cases, rfl, hp⟩ := ih
    exact ⟨cases, rfl, hp.rework rfl (.refl _) (hp.consistent.clock milliseconds)⟩
  | @step requests p q hbefore hstep hlength _ ih =>
    obtain ⟨cases, rfl, hp⟩ := ih
    have hq := hp.consistent.step hstep
    cases hstep with
    | beginBatching | beginValidation => exact ⟨cases, rfl, hp.rework rfl (.refl _) hq⟩
    | beginOther a ha => simp at hlength
    | @batch run rest n hrun hadv =>
      obtain ⟨hmove, -⟩ := Activity.Guarded.advance (fun n => Node.BatcherRely.refl n.store)
        (hp.consistent.batching run hrun) hadv
      exact ⟨cases, rfl, hp.rework rfl (hmove.reworks hp.consistent.healthy.tidy) hq⟩
    | @validate run rest n hrun hadv =>
      obtain ⟨hmove, -⟩ := Activity.Guarded.advance (fun n => Node.ValidatorRely.refl n.store)
        (hp.consistent.validation run hrun) hadv
      exact ⟨cases, rfl, hp.rework rfl (hmove.reworks hp.consistent.healthy.tidy) hq⟩
    | @other before after α a b n hothers hadv =>
      rw [hp.others] at hothers
      obtain ⟨casesBefore, rest, rfl, rfl, hrest⟩ := List.map_eq_append_iff.mp hothers
      obtain ⟨c, casesAfter, rfl, hc, rfl⟩ := List.map_eq_cons_iff.mp hrest
      cases hc
      obtain ⟨y, rfl, hmove⟩ := IntakePhase.exists_moves hadv
      refine ⟨casesBefore ++ ⟨c.request, y⟩ :: casesAfter, by simp, ?_⟩
      exact hp.move hbefore.apart hmove rfl (by simp [IntakeCase.task]) hq

/-- A request takes the next step. -/
theorem advance {x y : IntakePhase} {i : Nat} {n : Node} (h : Taking s allowed start requests p)
    (hi : p.others[i]? = some ⟨_, x.rest⟩) (hmove : x.Moves p.node y n)
    (hlost : ∀ d fault, y ≠ .lost d fault)
    (hallowed : allowed requests { p with node := n, others := p.others.set i ⟨_, y.rest⟩ }) :
    Taking s allowed start requests { p with node := n, others := p.others.set i ⟨_, y.rest⟩ } := by
  obtain ⟨hlt, hi⟩ := List.getElem?_eq_some_iff.mp hi
  refine h.step ?_ (by simp) hallowed
  obtain ⟨before, after, hothers, -, hset⟩ :=
    @List.exists_of_set _ i ⟨_, y.rest⟩ p.others hlt
  rw [hset]
  exact .other (hothers.trans (by rw [hi])) (hmove.advance hlost)

end Taking

namespace Accounted

variable {hash : String} {cases : List IntakeCase} {p : Pipeline}

/-- A request for a hash that is answered has staged it or was refused as it was there already. -/
theorem answered (h : Accounted hash cases p)
    (hsettled : Settled hash (cases.map (·.request)) p) {i : Nat}
    (hi : Asked hash (cases.map (·.request)) i) : ∃ c, cases[i]? = some c ∧
      ((c.phase.hasStaged hash = true ∧ Answers p i 202) ∨
        (c.phase.hasStaged hash = false ∧ 0 < p.node.store.submitted hash ∧ Answers p i 409)) := by
  obtain ⟨result, hresult⟩ := hsettled.answered i hi
  obtain ⟨r, hr, hask⟩ := hi
  obtain ⟨c, hc, rfl⟩ := List.getElem?_map .. ▸ hr |> Option.map_eq_some_iff.mp
  have hmem := List.mem_of_getElem? hc
  have hrest : c.phase.rest = .done result := by
    rw [h.others, List.getElem?_map, hc] at hresult
    exact eq_of_heq (Sigma.mk.inj (Option.some.inj hresult)).2
  refine ⟨c, hc, ?_⟩
  rcases c.answers (h.fits c hmem) (h.evident c hmem) hask hrest with
    ⟨hstaged, hstatus⟩ | ⟨hstaged, hpos, hstatus⟩
  · exact Or.inl ⟨hstaged, result, hresult, hstatus⟩
  · exact Or.inr ⟨hstaged, hpos, result, hresult, hstatus⟩

/-- Just one of the requests for a hash has staged it once all are answered. -/
theorem countP_hasStaged (h : Accounted hash cases p)
    (hsettled : Settled hash (cases.map (·.request)) p) :
    cases.countP (·.phase.hasStaged hash) = 1 := by
  have hle := h.live
  rw [Store.live_eq_submitted hsettled.kept, h.submitted] at hle
  refine Nat.le_antisymm hle ?_
  -- one was asked for, and even a refusal speaks of a submission
  obtain ⟨i, hi⟩ := hsettled.asked
  obtain ⟨c, hc, ⟨hstaged, -⟩ | ⟨-, hpos, -⟩⟩ := h.answered hsettled hi
  · exact List.countP_pos_iff.mpr ⟨c, List.mem_of_getElem? hc, hstaged⟩
  · rw [h.submitted] at hpos
    exact hpos

/-- Requests for a hash that are all answered leave one submission of it. -/
theorem oneAccepted (h : Accounted hash cases p)
    (hsettled : Settled hash (cases.map (·.request)) p) :
    OneAccepted hash (cases.map (·.request)) p := by
  obtain ⟨i, c, hc, hstaged, hsole⟩ := exists_sole_of_countP (h.countP_hasStaged hsettled)
  have hasked := IntakeCase.asksFor (h.fits c (List.mem_of_getElem? hc)) hstaged
  have hi : Asked hash (cases.map (·.request)) i := ⟨c.request, by simp [hc], hasked⟩
  refine ⟨i, hi, ?_, fun j hj hne => ?_⟩
  · obtain ⟨c', hc', ⟨-, hanswer⟩ | ⟨hnone, -⟩⟩ := h.answered hsettled hi
    · exact hanswer
    · obtain rfl := Option.some.inj (hc.symm.trans hc')
      cases hnone.symm.trans hstaged
  · obtain ⟨c', hc', ⟨hstaged', -⟩ | ⟨-, -, hanswer⟩⟩ := h.answered hsettled hj
    · exact absurd (hsole j c' hc' hstaged') hne
    · exact hanswer

end Accounted

/-- Two requests that both wait to stage a hash can both do so. -/
theorem Taking.exists_twice {s : Http.Surroundings} {start : Node} {requests : List IntakeRequest}
    {p : Pipeline} {hash : String} (h : Taking s (fun _ _ => True) start requests p) {i j : Nat}
    (hne : i ≠ j) (hi : Waits hash requests p i) (hj : Waits hash requests p j) :
    ∃ q, Taking s (fun _ _ => True) start requests q ∧ 2 ≤ q.node.store.live hash := by
  obtain ⟨_, d, -, -, hd, hi⟩ := hi
  obtain ⟨_, e, -, -, he, hj⟩ := hj
  have hfirst := h.advance hi .staged (by simp) trivial
  have hboth := hfirst.advance ((List.getElem?_set_ne hne).trans hj) .staged (by simp) trivial
  refine ⟨_, hboth, ?_⟩
  simp only [Store.live_stage, hd, he, if_true]
  omega

/-- From empty tables on, no hash has two submissions that are not rejected, and of the requests for
it one is accepted and the others are refused: as long as no two of them wait to stage it. Once two
wait, the hash may come to have two such submissions. -/
theorem staged_once (s : Http.Surroundings) (start : Node) (hempty : start.store = Store.empty)
    (hash : String) :
    (∀ requests p, Taking s (Apart hash) start requests p →
      p.node.store.live hash ≤ 1 ∧ (Settled hash requests p → OneAccepted hash requests p)) ∧
    (∀ requests p i j, Taking s (fun _ _ => True) start requests p → i ≠ j →
      Waits hash requests p i → Waits hash requests p j →
      ∃ q, Taking s (fun _ _ => True) start requests q ∧ 2 ≤ q.node.store.live hash) := by
  refine ⟨fun requests p h => ?_, fun requests p i j h hne hi hj => h.exists_twice hne hi hj⟩
  obtain ⟨cases, rfl, hp⟩ := h.accounted hempty
  exact ⟨hp.live, hp.oneAccepted⟩

/-- Requests alone on a node. -/
def ofCases (n : Node) (cases : List IntakeCase) : Pipeline :=
  ⟨n, none, none, cases.map IntakeCase.task, []⟩

namespace Taking

variable {s : Http.Surroundings} {allowed : List IntakeRequest → Pipeline → Prop}
  {start n m : Node} {requests : List IntakeRequest} {r : IntakeRequest} {d : Draft}

theorem enter (cases : List IntakeCase)
    (h : Taking s allowed start (cases.map (·.request)) (ofCases n cases))
    (r : IntakeRequest)
    (hallowed : allowed (r :: cases.map (·.request)) (ofCases n (⟨r, .unread r⟩ :: cases))) :
    Taking s allowed start (r :: cases.map (·.request)) (ofCases n (⟨r, .unread r⟩ :: cases)) := by
  have hactivity : ofCases n (⟨r, .unread r⟩ :: cases) =
      { ofCases n cases with others := ⟨_, r.activity s⟩ :: (ofCases n cases).others } := by
    rw [IntakePhase.activity_eq]
    rfl
  rw [hactivity] at hallowed ⊢
  exact h.request r hallowed

section Turns

variable (before : List IntakeCase) {after : List IntakeCase}

theorem turn {c : IntakeCase} {y : IntakePhase}
    (h : Taking s allowed start requests (ofCases n (before ++ c :: after)))
    (hmove : c.phase.Moves n y m) (hlost : ∀ d fault, y ≠ .lost d fault)
    (hallowed : allowed requests (ofCases m (before ++ ⟨c.request, y⟩ :: after))) :
    Taking s allowed start requests (ofCases m (before ++ ⟨c.request, y⟩ :: after)) := by
  have hset : ofCases m (before ++ ⟨c.request, y⟩ :: after) =
      { ofCases n (before ++ c :: after) with
        node := m
        others := (ofCases n (before ++ c :: after)).others.set before.length ⟨_, y.rest⟩ } := by
    simp [ofCases, IntakeCase.task]
  rw [hset] at hallowed ⊢
  exact h.advance (by simp [ofCases, IntakeCase.task]) hmove hlost hallowed

/-- A request for a hash that is not on the ledger goes on to look for it among the submissions. -/
theorem look (h : Taking s allowed start requests (ofCases n (before ++ ⟨r, .unread r⟩ :: after)))
    (hread : r.read = .ok d) (hunlisted : (n.store.image? d.entry.imageHash).isSome = false)
    (hallowed : ∀ m y, allowed requests (ofCases m (before ++ ⟨r, y⟩ :: after))) :
    Taking s allowed start requests (ofCases n (before ++ ⟨r, .unlisted d⟩ :: after)) :=
  (h.turn before (.read hread) (by simp) (hallowed n _)).turn before (.unlisted hunlisted) (by simp)
    (hallowed n _)

/-- A request that waits to stage a hash goes on until it is accepted. -/
theorem accept
    (h : Taking s allowed start requests (ofCases n (before ++ ⟨r, .cleared d⟩ :: after)))
    (hread : r.read = .ok d) (htaken : n.store.Taken)
    (hallowed : ∀ m y, allowed requests (ofCases m (before ++ ⟨r, y⟩ :: after))) :
    ∃ m receipt receiptId, m.store = n.store.stage receiptId n.seconds d ∧ m.store.Taken ∧
      Taking s allowed start requests
        (ofCases m (before ++ ⟨r, .accepted d receipt⟩ :: after)) := by
  have hstaged := h.turn before .staged (by simp) (hallowed _ _)
  have htaken' := htaken.stage (IntakeRequest.proper_of_read hread)
    (Node.receiptId (n.receipts + 1)) n.seconds
  obtain ⟨c, hc⟩ := htaken'.exists_findReceipt (List.mem_append_right _ List.mem_cons_self)
  exact ⟨_, _, _, rfl, htaken', hstaged.turn before (.accepted hc) (by simp) (hallowed _ _)⟩

end Turns

/-- Two requests for a hash that is nowhere are both accepted when each looks for the hash before
the other has staged it. -/
theorem exists_both_accepted (s : Http.Surroundings) {start : Node}
    (hempty : start.store = Store.empty) {r₁ r₂ : IntakeRequest} {d₁ d₂ : Draft} {hash : String}
    (h₁ : r₁.read = .ok d₁) (h₂ : r₂.read = .ok d₂)
    (hd₁ : HashText.lower d₁.entry.imageHash = hash)
    (hd₂ : HashText.lower d₂.entry.imageHash = hash) :
    ∃ p, Taking s (fun _ _ => True) start [r₂, r₁] p ∧ p.node.store.live hash = 2 ∧
      Answers p 0 202 ∧ Answers p 1 202 := by
  have hunlisted : ∀ d : Draft, (start.store.image? d.entry.imageHash).isSome = false :=
    fun d => by rw [hempty, Store.image?_empty, Option.isSome_none]
  have hunstaged : ∀ d : Draft, start.store.isStaged d.entry.imageHash = false :=
    fun d => by rw [hempty]; rfl
  have htaken : start.store.Taken := hempty ▸ Store.taken_empty
  have hbegun : Taking s (fun _ _ => True) start [r₂, r₁]
      (ofCases start [⟨r₂, .unread r₂⟩, ⟨r₁, .unread r₁⟩]) :=
    enter [⟨r₁, .unread r₁⟩] (enter [] .start r₁ trivial) r₂ trivial
  have hfirst := (hbegun.look [⟨r₂, .unread r₂⟩] h₁ (hunlisted d₁) fun _ _ => trivial).turn
    [⟨r₂, .unread r₂⟩] (.cleared (hunstaged d₁)) (by simp) trivial
  have hboth := (hfirst.look [] h₂ (hunlisted d₂) fun _ _ => trivial).turn []
    (.cleared (hunstaged d₂)) (by simp) trivial
  obtain ⟨m, receipt₁, id₁, hm, htaken, hone⟩ :=
    hboth.accept [⟨r₂, .cleared d₂⟩] h₁ htaken fun _ _ => trivial
  obtain ⟨m', receipt₂, id₂, hm', -, hdone⟩ := hone.accept [] h₂ htaken fun _ _ => trivial
  refine ⟨_, hdone, ?_, ⟨_, rfl, fun production => rfl⟩, ⟨_, rfl, fun production => rfl⟩⟩
  change m'.store.live hash = 2
  rw [hm', Store.live_stage, if_pos hd₂, hm, Store.live_stage, if_pos hd₁, hempty]
  rfl

/-- Beside requests that are answered, one more is on its own. -/
theorem apart_of_answered {hash : String} {c : IntakeCase} {answered : List IntakeCase}
    (h : ∀ b ∈ answered, ∃ result, b.phase.rest = .done result) (n : Node) :
    Apart hash requests (ofCases n (c :: answered)) := by
  have hfirst : ∀ i, Waits hash requests (ofCases n (c :: answered)) i → i = 0 := by
    intro i hi
    obtain ⟨_, d, -, -, -, hother⟩ := hi
    cases i with
    | zero => rfl
    | succ i =>
      obtain ⟨b, hb, htask⟩ := List.getElem?_map .. ▸ hother |> Option.map_eq_some_iff.mp
      obtain ⟨result, hresult⟩ := h b (List.mem_of_getElem? hb)
      rw [IntakeCase.task, hresult] at htask
      cases htask
  exact fun i j hi hj => (hfirst i hi).trans (hfirst j hj).symm

end Taking

/-- The hash, the fields that any request has, and two requests for the hash. -/
def racedHash : String := String.ofList (List.replicate 64 'a')

def racedFields : List (String × Json) := [
  ("imageHash", .text racedHash),
  ("timestamp", .number 90),
  ("submitterId", .text "camera"),
  ("authorityId", .text "maker")]

def racedToken : IntakeRequest := ⟨.cameraToken, .object (racedFields ++ [("cameraToken", .object [
  ("ciphertext", .text "00"),
  ("authTag", .text "00"),
  ("nonce", .text "00"),
  ("tableId", .number 1),
  ("keyIndex", .number 1)])])⟩

def racedCertificate : IntakeRequest :=
  ⟨.certificate, .object (racedFields ++ [("certificateBundle", .object [
    ("cameraCert", .text "cert"),
    ("bundleSignature", .text "00")])])⟩

def racedDraft (c : Credential) : Draft :=
  Intake.draft ⟨racedHash, 90, 0, none, none, none⟩ "camera" "maker" c

theorem read_racedToken :
    racedToken.read = .ok (racedDraft (.cameraToken ⟨"00", "00", "00", 1, 1⟩)) := by
  decide +kernel

theorem read_racedCertificate :
    racedCertificate.read = .ok (racedDraft (.certificate ⟨"cert", "00"⟩)) := by
  decide +kernel

/-- A token and a certificate for one hash that come at the same time are both accepted. -/
theorem staged_twice : ∃ p, Taking ⟨0, .silent⟩ (fun _ _ => True) Node.lone
    [racedCertificate, racedToken] p ∧ p.node.store.live racedHash = 2 ∧
      Answers p 0 202 ∧ Answers p 1 202 :=
  Taking.exists_both_accepted ⟨0, .silent⟩ rfl read_racedToken read_racedCertificate
    (by decide +kernel) (by decide +kernel)

/-- If one comes after the other, the first is accepted alone. -/
theorem staged_once_in_turn : ∃ p, Taking ⟨0, .silent⟩ (Apart racedHash) Node.lone
    [racedCertificate, racedToken] p ∧ p.node.store.live racedHash ≤ 1 ∧
      OneAccepted racedHash [racedCertificate, racedToken] p := by
  have hentered : Taking ⟨0, .silent⟩ (Apart racedHash) Node.lone [racedToken]
      (ofCases Node.lone [⟨racedToken, .unread racedToken⟩]) :=
    Taking.enter [] .start racedToken (Taking.apart_of_answered (by simp) _)
  have hcleared := (hentered.look [] read_racedToken (by rfl)
    fun _ _ => Taking.apart_of_answered (by simp) _).turn [] (.cleared rfl) (by simp)
    (Taking.apart_of_answered (by simp) _)
  obtain ⟨m, receipt, receiptId, hm, htaken, haccepted⟩ :=
    hcleared.accept [] read_racedToken Store.taken_empty
      fun _ _ => Taking.apart_of_answered (by simp) _
  have hunlisted : ∀ text, (m.store.image? text).isSome = false := by
    intro text
    rw [hm]
    exact congrArg Option.isSome (Store.image?_empty text)
  have hlive : m.store.live racedHash = 1 := by
    rw [hm, Store.live_stage, if_pos (by decide +kernel)]
    rfl
  have hstaged : m.store.isStaged racedHash = true :=
    (Store.isStaged_iff htaken.lowercase racedHash).mpr (hlive ▸ Nat.one_pos)
  have hanswered : ∀ d, ∀ b ∈ [(⟨racedToken, .accepted d receipt⟩ : IntakeCase)],
      ∃ result, b.phase.rest = .done result :=
    fun d => List.forall_mem_singleton.mpr ⟨_, rfl⟩
  have hsecond := Taking.enter [⟨racedToken, _⟩] haccepted racedCertificate
    (Taking.apart_of_answered (hanswered _) _)
  have hrefused := (hsecond.look [] read_racedCertificate (hunlisted _)
    fun _ _ => Taking.apart_of_answered (hanswered _) _).turn [] (.repeated hstaged) (by simp)
    (Taking.apart_of_answered (hanswered _) _)
  obtain ⟨hone, hsettled⟩ := (staged_once ⟨0, .silent⟩ Node.lone rfl racedHash).1 _ _ hrefused
  refine ⟨_, hrefused, hone, hsettled ⟨?_, ?_, ?_⟩⟩
  · exact ⟨0, racedCertificate, rfl, _, read_racedCertificate, by decide +kernel⟩
  · rintro i ⟨r, hr, -⟩
    match i with
    | 0 => exact ⟨_, rfl⟩
    | 1 => exact ⟨_, rfl⟩
    | i + 2 => cases hr
  · change ∀ row ∈ m.store.submissions, _
    rw [hm]
    exact List.forall_mem_singleton.mpr fun _ => by simp

end ImageLedger.Pipeline
