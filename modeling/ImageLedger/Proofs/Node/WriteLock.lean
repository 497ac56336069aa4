import ImageLedger.Proofs.Node.Sections

namespace ImageLedger

open Activity (Agent Course Follows Seamless)

/-- A call of the lock takes a ticket. -/
def Node.enter (n : Node) : Node := { n with lock := n.lock.enter.2 }

/-- How far a call of the lock has come. -/
inductive VisitStage where
  | waiting
  | inside
  | settled
deriving DecidableEq

/-- A call of the lock: who made it, the state that it found, the section to be carried out, the
steps that were taken in it and what is left of it. -/
structure Visit where
  caller : Nat
  asked : Node
  {α : Type}
  body : Operation α
  stage : VisitStage
  steps : List (Node × Node)
  rest : Activity Node (Except Fault α)

namespace Visit

def ticket (v : Visit) : Nat := v.asked.lock.tickets

/-- The ticket is given back, whatever came of the section. -/
def leave {α : Type} (ticket : Nat) (answer : Except Fault α) :
    Activity Node (Except Fault α) :=
  (Activity.change fun n => { n with lock := n.lock.leave ticket }).andThen fun _ => .done answer

/-- What is left for the caller to do. -/
def task (v : Visit) : Activity Node (Except Fault v.α) :=
  match v.stage with
  | .waiting => (Activity.await fun n => n.lock.holds v.ticket).andThen fun _ =>
      v.rest.andThen (leave v.ticket)
  | .inside => v.rest.andThen (leave v.ticket)
  | .settled => v.rest

/-- Who called the lock. The steps that led to the call come first, then the call, and those that
wait for the lock or give it back stand around those of the section. -/
abbrev agent (v : Visit) (x : Activity Node (Except Fault v.α))
    (before waited left : List (Node × Node)) : Agent Node :=
  ⟨v.caller, x, v.task, before ++ (v.asked, v.asked.enter) :: (waited ++ v.steps ++ left)⟩

/-- The steps are those of the section: none while the caller waits, and all once it has settled. -/
structure Genuine (v : Visit) : Prop where
  keeps : v.body.Section
  follows : v.body.run.Follows v.steps v.rest
  waiting : v.stage = .waiting → v.steps = []
  settled : v.stage = .settled → ∃ answer, v.rest = .done answer

end Visit

/-- What leads to a call of the lock: steps that can be taken at once and leave the lock and the
ledger alone. It may end without a call. -/
inductive Approach : Activity.Some Node → Prop
  | done {β : Type} (result : β) : Approach ⟨β, .done result⟩
  | step {β γ : Type} {ready : Node → Bool} {act : Node → γ × Node} {next : γ → Activity Node β} :
      (∀ n, ready n = true) → (∀ n, (act n).2.lock = n.lock) →
      (∀ n : Node, n.store.SameLedger (act n).2.store) → (∀ n, Approach ⟨β, next (act n).1⟩) →
      Approach ⟨β, .step ready act next⟩
  | call {α : Type} {op : Operation α} : op.Section →
      Approach ⟨Except Fault α, (exclusively op).run⟩

/-- An agent has not called the lock, or is at its visit. -/
inductive Standing (visits : List Visit) : Agent Node → Prop
  | outside {number : Nat} {α : Type} {x a : Activity Node α} {steps : List (Node × Node)} :
      (∀ v ∈ visits, v.caller ≠ number) → Approach ⟨α, a⟩ → x.Follows steps a →
      Standing visits ⟨number, x, a, steps⟩
  | visiting {v : Visit} {x : Activity Node (Except Fault v.α)}
      {before waited left : List (Node × Node)} : v ∈ visits →
      x.Follows before (exclusively v.body).run →
      (∀ own ∈ waited ++ left, own.2.store = own.1.store) → (v.stage ≠ .settled → left = []) →
      Standing visits (v.agent x before waited left)

/-- The calls of the lock so far, in their order: tickets are given out one by one, those that have
not settled are queued, and a section is not begun before all earlier ones have settled. -/
structure Orderly (start : Node) (visits : List Visit) (agents : List (Agent Node)) (n : Node) :
    Prop where
  tickets : visits.map Visit.ticket = List.range' start.lock.tickets visits.length
  next : n.lock.tickets = start.lock.tickets + visits.length
  queue : n.lock.queue = (visits.filter (·.stage ≠ .settled)).map Visit.ticket
  order : visits.Pairwise fun u v => v.stage ≠ .waiting → u.stage = .settled
  genuine : ∀ v ∈ visits, v.Genuine
  callers : (visits.map (·.caller)).Nodup
  present : ∀ v ∈ visits, v.caller ∈ agents.map (·.number)
  standing : ∀ ag ∈ agents, Standing visits ag
  seamless : Seamless (fun n m => n.store.SameLedger m.store) (visits.flatMap (·.steps)) start n

namespace Approach

variable {α β : Type}

theorem of_free {a : Activity Node β} (hfree : a.Free Node.lock)
    (hledger : a.Within fun n m => n.store.SameLedger m.store) : Approach ⟨β, a⟩ := by
  induction a with
  | done result => exact .done result
  | step ready act next ih =>
    refine .step (fun n => (hfree n).1) (fun n => (hfree n).2.1) (fun n => ?_) fun n => ?_
    · exact (hledger n (hfree n).1).1
    · exact ih _ (hfree n).2.2 (hledger n (hfree n).1).2

theorem bind {op : Operation α} {f : α → Operation β} (hfree : op.Free)
    (hledger : op.Within Store.SameLedger) (hf : ∀ a, Approach ⟨_, (f a).run⟩) :
    Approach ⟨_, (op >>= f).run⟩ := by
  suffices h : ∀ a : Activity Node (Except Fault α), a.Free Node.lock →
      (a.Within fun n m => n.store.SameLedger m.store) →
      Approach ⟨_, a.andThen (ExceptT.bindCont f)⟩ from h op.run hfree hledger
  intro a hfree hledger
  induction a with
  | done result =>
    cases result with
    | error e => exact .done _
    | ok a => exact hf a
  | step ready act next ih =>
    refine .step (fun n => (hfree n).1) (fun n => (hfree n).2.1) (fun n => ?_) fun n => ?_
    · exact (hledger n (hfree n).1).1
    · exact ih _ (hfree n).2.2 (hledger n (hfree n).1).2

end Approach

theorem advance_exclusively {α : Type} (op : Operation α) (number : Nat) (n : Node) :
    (exclusively op).run.advance n = some (Visit.task ⟨number, n, op, .waiting, [], op.run⟩,
      n.enter) := rfl

/-- Visits of others change nothing for an agent. -/
theorem Standing.keep {visits later : List Visit} {number : Nat} {ag : Agent Node}
    (h : Standing visits ag) (hne : ag.number ≠ number)
    (hlater : ∀ v ∈ later, v ∈ visits ∨ v.caller = number)
    (hkept : ∀ v ∈ visits, v ∈ later ∨ v.caller = number) : Standing later ag := by
  cases h with
  | outside hnone happroach hfollows =>
    refine .outside (fun v hv => ?_) happroach hfollows
    rcases hlater v hv with hold | rfl
    · exact hnone v hold
    · exact Ne.symm hne
  | visiting hv hfollows hquiet hleft =>
    exact .visiting ((hkept _ hv).resolve_right hne) hfollows hquiet hleft

/-- A step of one agent at its visit, for all of them. -/
theorem Standing.step {visits later : List Visit} {before after : List (Agent Node)}
    {own moved : Agent Node} (hnodup : ((before ++ own :: after).map (·.number)).Nodup)
    (h : ∀ ag ∈ before ++ own :: after, Standing visits ag) (hmoved : Standing later moved)
    (hlater : ∀ v ∈ later, v ∈ visits ∨ v.caller = own.number)
    (hkept : ∀ v ∈ visits, v ∈ later ∨ v.caller = own.number) :
    ∀ ag ∈ before ++ moved :: after, Standing later ag := by
  simp only [List.map_append, List.map_cons, List.nodup_append, List.nodup_cons] at hnodup
  obtain ⟨-, ⟨hafter, -⟩, hbefore⟩ := hnodup
  obtain ⟨holdBefore, holdAfter⟩ := List.forall_mem_append.mp h
  refine List.forall_mem_append.mpr ⟨fun ag hag => ?_, List.forall_mem_cons.mpr ⟨hmoved, ?_⟩⟩
  · have hne := hbefore _ (List.mem_map_of_mem hag) own.number List.mem_cons_self
    exact (holdBefore ag hag).keep hne hlater hkept
  · intro ag hag
    have hne : ag.number ≠ own.number := fun heq => hafter (heq ▸ List.mem_map_of_mem hag)
    exact ((List.forall_mem_cons.mp holdAfter).2 ag hag).keep hne hlater hkept

namespace Orderly

variable {start n m : Node} {visits before after : List Visit} {agents later : List (Agent Node)}
  {v w : Visit}

theorem nodup_tickets (h : Orderly start visits agents n) : (visits.map Visit.ticket).Nodup := by
  rw [h.tickets]
  exact List.nodup_range'

/-- The steps of the visits, when one is under way: those after it wait. -/
theorem flatMap_steps (hwaiting : ∀ u ∈ after, u.Genuine ∧ u.stage = .waiting) :
    (before ++ v :: after).flatMap (·.steps) = before.flatMap (·.steps) ++ v.steps := by
  have hnone : after.flatMap (·.steps) = [] :=
    List.flatMap_eq_nil_iff.mpr fun u hu => (hwaiting u hu).1.waiting (hwaiting u hu).2
  rw [List.flatMap_append, List.flatMap_cons, hnone, List.append_nil]

theorem filter_waiting (hwaiting : ∀ u ∈ after, u.Genuine ∧ u.stage = .waiting) :
    after.filter (·.stage ≠ .settled) = after :=
  List.filter_eq_self.mpr fun u hu => by simp [(hwaiting u hu).2]

/-- Who holds the lock comes after all visits that have settled and before all that wait. -/
theorem front (h : Orderly start (before ++ v :: after) agents n) (hstage : v.stage ≠ .settled)
    (hturn : v.stage = .inside ∨ n.lock.holds v.ticket = true) :
    (∀ u ∈ before, u.stage = .settled) ∧ (∀ u ∈ after, u.Genuine ∧ u.stage = .waiting) ∧
      n.lock.queue = v.ticket :: after.map Visit.ticket := by
  have hqueue := h.queue
  rw [List.filter_append, List.filter_cons_of_pos (by simpa using hstage)] at hqueue
  have hwaiting : ∀ u ∈ after, u.stage = .waiting := by
    intro u hu
    by_contra hne
    have hafter := (List.pairwise_append.mp h.order).2.1
    exact hstage ((List.pairwise_cons.mp hafter).1 u hu hne)
  have hsettled : before.filter (·.stage ≠ .settled) = [] := by
    cases hfirst : before.filter (·.stage ≠ .settled) with
    | nil => rfl
    | cons u rest =>
      have hmem : u ∈ before.filter (·.stage ≠ .settled) := hfirst ▸ List.mem_cons_self
      obtain ⟨hu, hunsettled⟩ := List.mem_filter.mp hmem
      -- an earlier one that has not settled would stand in the way of the section, or hold the lock
      rcases hturn with hinside | hholds
      · have hall := (List.pairwise_append.mp h.order).2.2 u hu v List.mem_cons_self
        simp [hall (by simp [hinside])] at hunsettled
      · rw [hfirst] at hqueue
        have hsame : u.ticket = v.ticket := by simpa [WriteLock.holds, hqueue] using hholds
        have hnodup := h.nodup_tickets
        rw [List.map_append, List.nodup_append] at hnodup
        exact absurd hsame (hnodup.2.2 _ (List.mem_map_of_mem hu) _ (by simp))
  have hall : after.filter (·.stage ≠ .settled) = after :=
    List.filter_eq_self.mpr fun u hu => by simp [hwaiting u hu]
  refine ⟨fun u hu => ?_, fun u hu => ⟨h.genuine u (by simp [hu]), hwaiting u hu⟩, ?_⟩
  · simpa using List.filter_eq_nil_iff.mp hsettled u hu
  · rw [hqueue, hsettled, hall]
    rfl

theorem pass (h : Orderly start visits agents n) (hlock : m.lock = n.lock)
    (hledger : n.store.SameLedger m.store)
    (hnumbers : later.map (·.number) = agents.map (·.number))
    (hstanding : ∀ ag ∈ later, Standing visits ag) : Orderly start visits later m where
  tickets := h.tickets
  next := hlock ▸ h.next
  queue := hlock ▸ h.queue
  order := h.order
  genuine := h.genuine
  callers := h.callers
  present := hnumbers ▸ h.present
  standing := hstanding
  seamless := h.seamless.later Node.sameLedger_trans hledger

theorem enter {α : Type} {op : Operation α} {number : Nat} (h : Orderly start visits agents n)
    (hop : op.Section) (hnew : ∀ v ∈ visits, v.caller ≠ number)
    (hnumber : number ∈ agents.map (·.number))
    (hnumbers : later.map (·.number) = agents.map (·.number))
    (hstanding : ∀ ag ∈ later, Standing (visits ++ [⟨number, n, op, .waiting, [], op.run⟩]) ag) :
    Orderly start (visits ++ [⟨number, n, op, .waiting, [], op.run⟩]) later
      n.enter where
  tickets := by
    rw [List.map_append, h.tickets, List.length_append, List.length_singleton, List.range'_concat]
    simp [Visit.ticket, h.next]
  next := by
    rw [List.length_append, List.length_singleton, ← Nat.add_assoc, ← h.next]
    rfl
  queue := by
    simp [Node.enter, WriteLock.enter, h.queue, Visit.ticket]
  order := by
    refine List.pairwise_append.mpr ⟨h.order, List.pairwise_singleton _ _, fun u hu w hw hne => ?_⟩
    obtain rfl := List.mem_singleton.mp hw
    exact absurd rfl hne
  genuine := by
    refine List.forall_mem_append.mpr ⟨h.genuine, List.forall_mem_singleton.mpr ?_⟩
    exact ⟨hop, .start, fun _ => rfl, fun h => by cases h⟩
  callers := by
    rw [List.map_append, List.nodup_append]
    refine ⟨h.callers, List.nodup_singleton _, fun k hk l hl => ?_⟩
    obtain ⟨u, hu, rfl⟩ := List.mem_map.mp hk
    obtain rfl := List.mem_singleton.mp hl
    exact hnew u hu
  present := by
    rw [hnumbers]
    exact List.forall_mem_append.mpr ⟨h.present, List.forall_mem_singleton.mpr hnumber⟩
  standing := hstanding
  seamless := by
    rw [List.flatMap_append, List.flatMap_singleton, List.append_nil]
    exact h.seamless.later Node.sameLedger_trans n.sameLedger_refl

theorem mem_replaced (hcaller : w.caller = v.caller) :
    ∀ u ∈ before ++ w :: after, u ∈ before ++ v :: after ∨ u.caller = v.caller := by
  intro u hu
  rcases List.mem_append.mp hu with hu | hu
  · exact Or.inl (List.mem_append_left _ hu)
  · rcases List.mem_cons.mp hu with rfl | hu
    · exact Or.inr hcaller
    · exact Or.inl (List.mem_append_right _ (List.mem_cons_of_mem _ hu))

/-- A step of the visit that holds the lock, taken by its caller. -/
theorem replace {earlier afterwards : List (Agent Node)} {own moved : Agent Node}
    (h : Orderly start (before ++ v :: after) (earlier ++ own :: afterwards) n)
    (hnodup : ((earlier ++ own :: afterwards).map (·.number)).Nodup)
    (hown : own.number = v.caller) (hmoved : moved.number = v.caller)
    (hsettled : ∀ u ∈ before, u.stage = .settled)
    (hwaiting : ∀ u ∈ after, u.Genuine ∧ u.stage = .waiting)
    (hticket : w.ticket = v.ticket) (hcaller : w.caller = v.caller) (hgenuine : w.Genuine)
    (hnext : m.lock.tickets = n.lock.tickets)
    (hqueue : m.lock.queue = ((w :: after).filter (·.stage ≠ .settled)).map Visit.ticket)
    (hseamless : Seamless (fun n m => n.store.SameLedger m.store)
      (before.flatMap (·.steps) ++ w.steps) start m)
    (hstanding : Standing (before ++ w :: after) moved) :
    Orderly start (before ++ w :: after) (earlier ++ moved :: afterwards) m where
  tickets := by
    have htickets := h.tickets
    simp only [List.map_append, List.map_cons, List.length_append, List.length_cons] at htickets ⊢
    rw [hticket, htickets]
  next := by
    have hbefore := h.next
    simp only [List.length_append, List.length_cons] at hbefore ⊢
    rw [hnext, hbefore]
  queue := by
    have hnone : before.filter (·.stage ≠ .settled) = [] :=
      List.filter_eq_nil_iff.mpr fun u hu => by simp [hsettled u hu]
    rw [List.filter_append, hnone, List.nil_append, hqueue]
  order := by
    obtain ⟨hbefore, hrest, -⟩ := List.pairwise_append.mp h.order
    refine List.pairwise_append.mpr ⟨hbefore, List.pairwise_cons.mpr ⟨fun u hu hne => ?_, ?_⟩, ?_⟩
    · exact absurd (hwaiting u hu).2 hne
    · exact (List.pairwise_cons.mp hrest).2
    · exact fun u hu _ _ _ => hsettled u hu
  genuine := by
    obtain ⟨hbefore, hv⟩ := List.forall_mem_append.mp h.genuine
    exact List.forall_mem_append.mpr
      ⟨hbefore, List.forall_mem_cons.mpr ⟨hgenuine, (List.forall_mem_cons.mp hv).2⟩⟩
  callers := by
    have hcallers := h.callers
    simp only [List.map_append, List.map_cons] at hcallers ⊢
    rwa [hcaller]
  present := by
    obtain ⟨hbefore, hv⟩ := List.forall_mem_append.mp h.present
    obtain ⟨hv, hafter⟩ := List.forall_mem_cons.mp hv
    have hnumbers : (earlier ++ moved :: afterwards).map (·.number) =
        (earlier ++ own :: afterwards).map (·.number) := by simp [hown, hmoved]
    rw [hnumbers]
    exact List.forall_mem_append.mpr
      ⟨hbefore, List.forall_mem_cons.mpr ⟨hcaller ▸ hv, hafter⟩⟩
  standing := by
    refine Standing.step hnodup h.standing hstanding ?_ ?_ <;> rw [hown]
    · exact mem_replaced hcaller
    · exact hcaller ▸ mem_replaced hcaller.symm
  seamless := by
    rw [flatMap_steps hwaiting]
    exact hseamless

end Orderly

/-- What an agent does at its visit: it stops waiting, takes a step of the section, or gives the
ticket back. -/
theorem Visit.cases_of_advance {v : Visit} (hv : v.Genuine) {n m : Node}
    {b : Activity Node (Except Fault v.α)} (h : v.task.advance n = some (b, m)) :
    (v.stage = .waiting ∧ n.lock.holds v.ticket = true ∧ m = n ∧
      b = Visit.task { v with stage := .inside }) ∨
    (∃ rest, v.stage = .inside ∧ v.rest.advance n = some (rest, m) ∧
      b = Visit.task { v with steps := v.steps ++ [(n, m)], rest }) ∨
    (∃ answer, v.stage = .inside ∧ v.rest = .done answer ∧
      m = { n with lock := n.lock.leave v.ticket } ∧ b = .done answer) := by
  cases hstage : v.stage with
  | waiting =>
    left
    rw [Visit.task, hstage] at h
    by_cases hholds : n.lock.holds v.ticket = true
    · have hadv : some ((fun _ => v.rest.andThen (leave v.ticket)) (), n) = some (b, m) := by
        rw [← h]
        simp [Activity.await, Activity.andThen, Activity.advance, hholds]
      obtain ⟨rfl, rfl⟩ := Prod.mk.inj (Option.some.inj hadv)
      exact ⟨rfl, hholds, rfl, rfl⟩
    · simp [Activity.await, Activity.andThen, Activity.advance, hholds] at h
  | inside =>
    right
    rw [Visit.task, hstage] at h
    cases hrest : v.rest with
    | done answer =>
      rw [hrest] at h
      obtain ⟨rfl, rfl⟩ := Prod.mk.inj (Option.some.inj h)
      exact Or.inr ⟨answer, rfl, rfl, rfl, rfl⟩
    | step ready act next =>
      left
      have hfree := hv.keeps.free.follows hv.follows
      rw [hrest] at h hfree
      have hready := (hfree n).1
      simp only [Activity.andThen, Activity.advance, hready, if_true] at h
      obtain ⟨rfl, rfl⟩ := Prod.mk.inj (Option.some.inj h)
      exact ⟨next (act n).1, rfl, by simp only [Activity.advance, hready, if_true], rfl⟩
  | settled =>
    obtain ⟨answer, hanswer⟩ := hv.settled hstage
    rw [Visit.task, hstage, hanswer] at h
    cases h

namespace Orderly

variable {start n m : Node} {before after : List Visit} {earlier afterwards : List (Agent Node)}
  {v w : Visit}

section Visiting

variable {x : Activity Node (Except Fault v.α)} {called waited : List (Node × Node)}
  (hnodup : ((earlier ++ v.agent x called waited [] :: afterwards).map (·.number)).Nodup)
  (h : Orderly start (before ++ v :: after) (earlier ++ v.agent x called waited [] :: afterwards) n)
  (hcalled : x.Follows called (exclusively v.body).run)
  (hquiet : ∀ own ∈ waited, own.2.store = own.1.store)
include hnodup h hcalled hquiet

/-- Who holds the lock stops waiting. -/
theorem begin_section (hstage : v.stage = .waiting) (hholds : n.lock.holds v.ticket = true) :
    Orderly start (before ++ { v with stage := .inside } :: after)
      (earlier ++ Visit.agent { v with stage := .inside } x called (waited ++ [(n, n)]) [] ::
        afterwards) n := by
  have hgenuine := h.genuine v (by simp)
  have hseamless := h.seamless
  obtain ⟨hsettled, hwaiting, hqueue⟩ := h.front (by simp [hstage]) (Or.inr hholds)
  rw [flatMap_steps hwaiting] at hseamless
  refine h.replace (w := { v with stage := .inside }) hnodup rfl rfl hsettled hwaiting rfl rfl
    ⟨hgenuine.keeps, hgenuine.follows, nofun, nofun⟩ rfl ?_ hseamless ?_
  · rw [hqueue, List.filter_cons_of_pos (by simp), filter_waiting hwaiting]
    rfl
  · refine .visiting (List.mem_append_right _ List.mem_cons_self) hcalled ?_ fun _ => rfl
    simpa [or_imp, forall_and] using hquiet

/-- A step of a section. -/
theorem step_section {rest : Activity Node (Except Fault v.α)} (hstage : v.stage = .inside)
    (hrest : v.rest.advance n = some (rest, m)) :
    Orderly start (before ++ { v with steps := v.steps ++ [(n, m)], rest } :: after)
      (earlier ++ Visit.agent { v with steps := v.steps ++ [(n, m)], rest } x called waited [] ::
        afterwards) m := by
  have hgenuine := h.genuine v (by simp)
  have hseamless := h.seamless
  obtain ⟨hsettled, hwaiting, hqueue⟩ := h.front (by simp [hstage]) (Or.inl hstage)
  rw [flatMap_steps hwaiting] at hseamless
  have hmoved : Visit.Genuine { v with steps := v.steps ++ [(n, m)], rest } :=
    ⟨hgenuine.keeps, .step hgenuine.follows hrest, fun h => (nomatch hstage.symm.trans h),
      fun h => (nomatch hstage.symm.trans h)⟩
  have hlock : m.lock = n.lock := ((hgenuine.keeps.free.follows hgenuine.follows).advance hrest).1
  refine h.replace (w := { v with steps := v.steps ++ [(n, m)], rest }) hnodup rfl rfl hsettled
    hwaiting rfl rfl hmoved (by rw [hlock]) ?_ ?_ ?_
  · rw [hlock, hqueue, List.filter_cons_of_pos (by simp [hstage]), filter_waiting hwaiting]
    rfl
  · rw [← List.append_assoc]
    exact (Seamless.concat Node.sameLedger_refl Node.sameLedger_trans).mpr
      ⟨hseamless, m.sameLedger_refl⟩
  · refine .visiting (List.mem_append_right _ List.mem_cons_self) hcalled ?_ fun _ => rfl
    simpa using hquiet

/-- A section that is done gives its ticket back. -/
theorem end_section {answer : Except Fault v.α} (hstage : v.stage = .inside)
    (hrest : v.rest = .done answer) :
    Orderly start (before ++ { v with stage := .settled } :: after)
      (earlier ++ Visit.agent { v with stage := .settled } x called waited
        [(n, { n with lock := n.lock.leave v.ticket })] :: afterwards)
      { n with lock := n.lock.leave v.ticket } := by
  have hgenuine := h.genuine v (by simp)
  have hseamless := h.seamless
  obtain ⟨hsettled, hwaiting, hqueue⟩ := h.front (by simp [hstage]) (Or.inl hstage)
  rw [flatMap_steps hwaiting] at hseamless
  have hothers : ∀ ticket ∈ after.map Visit.ticket, ticket ≠ v.ticket := by
    have hnodup := h.nodup_tickets
    rw [List.map_append, List.map_cons, List.nodup_append, List.nodup_cons] at hnodup
    exact fun ticket hticket heq => hnodup.2.1.1 (heq ▸ hticket)
  refine h.replace (w := { v with stage := .settled }) hnodup rfl rfl hsettled hwaiting rfl rfl
    ⟨hgenuine.keeps, hgenuine.follows, nofun, fun _ => ⟨answer, hrest⟩⟩ rfl ?_ ?_ ?_
  · rw [List.filter_cons_of_neg (by simp), filter_waiting hwaiting]
    simp only [WriteLock.leave, hqueue]
    rw [List.filter_cons_of_neg (by simp), List.filter_eq_self]
    simpa using hothers
  · exact hseamless.later Node.sameLedger_trans n.sameLedger_refl
  · refine .visiting (List.mem_append_right _ List.mem_cons_self) hcalled ?_
      fun hne => absurd rfl hne
    simpa [or_imp, forall_and] using hquiet

end Visiting

/-- A step of an agent at its visit moves the visit on, and no other one. -/
theorem visit_step {x b : Activity Node (Except Fault v.α)}
    {called waited left : List (Node × Node)}
    (hnodup : ((earlier ++ v.agent x called waited left :: afterwards).map (·.number)).Nodup)
    (h : Orderly start (before ++ v :: after)
      (earlier ++ v.agent x called waited left :: afterwards) n)
    (hcalled : x.Follows called (exclusively v.body).run)
    (hquiet : ∀ own ∈ waited ++ left, own.2.store = own.1.store)
    (hleft : v.stage ≠ .settled → left = []) (hadv : v.task.advance n = some (b, m)) :
    ∃ visits, Orderly start visits (earlier ++ ⟨v.caller, x, b,
      (v.agent x called waited left).steps ++ [(n, m)]⟩ :: afterwards) m := by
  have hgenuine := h.genuine v (by simp)
  rcases Visit.cases_of_advance hgenuine hadv with ⟨hstage, hholds, rfl, rfl⟩ |
    ⟨rest, hstage, hrest, rfl⟩ | ⟨answer, hstage, hrest, rfl, rfl⟩
  · obtain rfl := hleft (by simp [hstage])
    refine ⟨before ++ { v with stage := .inside } :: after, ?_⟩
    simpa [Visit.agent, hgenuine.waiting hstage] using
      h.begin_section hnodup hcalled (by simpa using hquiet) hstage hholds
  · obtain rfl := hleft (by simp [hstage])
    refine ⟨before ++ { v with steps := v.steps ++ [(n, m)], rest } :: after, ?_⟩
    simpa [Visit.agent] using h.step_section hnodup hcalled (by simpa using hquiet) hstage hrest
  · obtain rfl := hleft (by simp [hstage])
    refine ⟨before ++ { v with stage := .settled } :: after, ?_⟩
    have htask : Visit.task { v with stage := .settled } = .done answer := hrest
    simpa [Visit.agent, htask] using
      h.end_section hnodup hcalled (by simpa using hquiet) hstage hrest

/-- A step of an agent that has not called the lock: one beside it, or the call. -/
theorem outside_step {number : Nat} {β : Type} {x a b : Activity Node β} {own : List (Node × Node)}
    {visits : List Visit}
    (hnodup : ((earlier ++ ⟨number, x, a, own⟩ :: afterwards).map (·.number)).Nodup)
    (h : Orderly start visits (earlier ++ ⟨number, x, a, own⟩ :: afterwards) n)
    (hnone : ∀ v ∈ visits, v.caller ≠ number) (happroach : Approach ⟨β, a⟩)
    (hfollows : x.Follows own a) (hadv : a.advance n = some (b, m)) :
    ∃ visits,
      Orderly start visits (earlier ++ ⟨number, x, b, own ++ [(n, m)]⟩ :: afterwards) m := by
  have hnumbers : (earlier ++ (⟨number, x, b, own ++ [(n, m)]⟩ : Agent Node) :: afterwards).map
      (·.number) = (earlier ++ ⟨number, x, a, own⟩ :: afterwards).map (·.number) := by simp
  cases happroach with
  | done result => cases hadv
  | step hready hlock hledger hnext =>
    have hfollows' := hfollows.step hadv
    simp only [Activity.advance, hready n, if_true] at hadv
    obtain ⟨rfl, rfl⟩ := Prod.mk.inj (Option.some.inj hadv)
    refine ⟨visits, h.pass (hlock n) (hledger n) hnumbers ?_⟩
    exact Standing.step hnodup h.standing (.outside hnone (hnext n) hfollows')
      (fun v hv => Or.inl hv) fun v hv => Or.inl hv
  | @call α op hop =>
    rw [advance_exclusively op number] at hadv
    obtain ⟨rfl, rfl⟩ := Prod.mk.inj (Option.some.inj hadv)
    refine ⟨_, h.enter hop hnone (by simp) hnumbers ?_⟩
    have hquiet : ∀ own ∈ ([] ++ [] : List (Node × Node)), own.2.store = own.1.store :=
      fun _ hnil => absurd hnil List.not_mem_nil
    have hstanding : Standing (visits ++ [⟨number, n, op, .waiting, [], op.run⟩])
        ⟨number, x, Visit.task ⟨number, n, op, .waiting, [], op.run⟩, own ++ [(n, n.enter)]⟩ :=
      .visiting (List.mem_append_right _ List.mem_cons_self) hfollows hquiet fun _ => rfl
    refine Standing.step hnodup h.standing hstanding (fun v hv => ?_) fun v hv => ?_
    · rcases List.mem_append.mp hv with hv | hv
      · exact Or.inl hv
      · exact Or.inr (List.mem_singleton.mp hv ▸ rfl)
    · exact Or.inl (List.mem_append_left _ hv)

end Orderly

/-- In a course of activities that lead to calls of the lock, the calls come in order. -/
theorem Approach.exists_orderly {mayBegin : List (Agent Node) → Activity.Some Node → Prop}
    (hbegin : ∀ agents a, mayBegin agents a → Approach a) {start n : Node}
    (hfree : start.lock.queue = []) {agents : List (Agent Node)}
    (h : Course mayBegin [] start agents n) : ∃ visits, Orderly start visits agents n := by
  -- by induction on the course: who begins has not called yet, and who takes a step stands either
  -- outside or at one of the visits
  induction h with
  | start =>
    exact ⟨[], rfl, rfl, hfree, .nil, fun _ hnil => absurd hnil List.not_mem_nil, .nil,
      fun _ hnil => absurd hnil List.not_mem_nil, fun _ hnil => absurd hnil List.not_mem_nil,
      start.sameLedger_refl⟩
  | @begin agents s a ha hbefore ih =>
    obtain ⟨visits, hv⟩ := ih
    refine ⟨visits, { hv with present := fun v hmem => ?_, standing := fun ag hag => ?_ }⟩
    · exact List.mem_cons_of_mem _ (hv.present v hmem)
    · rcases List.mem_cons.mp hag with rfl | hag
      · refine .outside (fun v hmem heq => ?_) (hbegin agents a ha) .start
        have hcaller := hv.present v hmem
        rw [heq, hbefore.numbers] at hcaller
        simp at hcaller
      · exact hv.standing ag hag
  | @advance earlier afterwards number α x a b steps s t hbefore hadv ih =>
    obtain ⟨visits, hv⟩ := ih
    have hnodup : ((earlier ++ ⟨number, x, a, steps⟩ :: afterwards).map
        (fun ag : Agent Node => ag.number)).Nodup := by
      rw [hbefore.numbers]
      exact List.nodup_reverse.mpr List.nodup_range
    cases hv.standing ⟨number, x, a, steps⟩ (by simp) with
    | outside hnone happroach hfollows =>
      exact hv.outside_step hnodup hnone happroach hfollows hadv
    | visiting hmem hcalled hquiet hleft =>
      obtain ⟨before, after, rfl⟩ := List.append_of_mem hmem
      exact hv.visit_step hnodup hcalled hquiet hleft hadv

namespace Orderly

variable {start n : Node} {visits : List Visit} {agents : List (Agent Node)}

theorem sorted (h : Orderly start visits agents n) :
    visits.Pairwise fun u v => u.ticket < v.ticket := by
  have hsorted : (visits.map Visit.ticket).Pairwise (· < ·) := by
    rw [h.tickets]
    exact List.pairwise_lt_range'
  exact List.pairwise_map.mp hsorted

/-- Who waits and does not hold the lock has one before it that has not settled. -/
theorem exists_earlier (h : Orderly start visits agents n) {v : Visit} (hv : v ∈ visits)
    (hstage : v.stage = .waiting) (hholds : ¬ n.lock.holds v.ticket = true) :
    ∃ u ∈ visits, u.ticket < v.ticket ∧ u.stage ≠ .settled := by
  have hqueued : v ∈ visits.filter (·.stage ≠ .settled) :=
    List.mem_filter.mpr ⟨hv, by simp [hstage]⟩
  cases hqueue : visits.filter (·.stage ≠ .settled) with
  | nil =>
    rw [hqueue] at hqueued
    exact absurd hqueued List.not_mem_nil
  | cons u rest =>
    have hu : u ∈ visits.filter (·.stage ≠ .settled) := hqueue ▸ List.mem_cons_self
    have hsorted := h.sorted.sublist (List.filter_sublist (p := (·.stage ≠ .settled)))
    have hhead : n.lock.holds u.ticket = true := by
      rw [WriteLock.holds, h.queue, hqueue]
      exact decide_eq_true rfl
    rw [hqueue] at hqueued hsorted
    -- the head of the queue holds the lock, and tickets rise along the queue
    rcases List.mem_cons.mp hqueued with rfl | hlater
    · exact absurd hhead hholds
    · refine ⟨u, (List.mem_filter.mp hu).1, ?_, by simpa using (List.mem_filter.mp hu).2⟩
      exact (List.pairwise_cons.mp hsorted).1 v hlater

/-- Nobody waits but for an earlier call that has not settled. -/
theorem progress (h : Orderly start visits agents n) {ag : Agent Node} (hag : ag ∈ agents) :
    (∃ result, ag.rest = .done result) ∨ (ag.rest.advance n).isSome = true ∨
      ∃ v ∈ visits, v.caller = ag.number ∧ v.stage = .waiting ∧
        ∃ u ∈ visits, u.ticket < v.ticket ∧ u.stage ≠ .settled := by
  cases h.standing ag hag with
  | outside hnone happroach hfollows =>
    cases happroach with
    | done result => exact Or.inl ⟨result, rfl⟩
    | step hready => exact Or.inr (Or.inl (by simp [Activity.advance, hready n]))
    | call hop => exact Or.inr (Or.inl rfl)
  | @visiting v x called waited left hv hcalled hquiet hleft =>
    cases hstage : v.stage with
    | settled =>
      obtain ⟨answer, hanswer⟩ := (h.genuine v hv).settled hstage
      refine Or.inl ⟨answer, ?_⟩
      dsimp only [Visit.agent]
      rw [Visit.task, hstage, hanswer]
    | inside =>
      refine Or.inr (Or.inl ?_)
      have hfree := (h.genuine v hv).keeps.free.follows (h.genuine v hv).follows
      rw [Visit.agent, Visit.task, hstage]
      cases hrest : v.rest with
      | done answer => rfl
      | step ready act next =>
        rw [hrest] at hfree
        simp [Activity.andThen, Activity.advance, (hfree n).1]
    | waiting =>
      right
      by_cases hholds : n.lock.holds v.ticket = true
      · left
        rw [Visit.agent, Visit.task, hstage]
        simp [Activity.await, Activity.andThen, Activity.advance, hholds]
      · exact Or.inr ⟨v, hv, rfl, hstage, h.exists_earlier hv hstage hholds⟩

end Orderly

end ImageLedger
