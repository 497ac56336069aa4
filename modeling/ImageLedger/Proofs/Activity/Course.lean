import ImageLedger.Proofs.Activity.Interference
import ImageLedger.Proofs.Activity.Interleaving

namespace ImageLedger.Activity

variable {σ : Type} {α β : Type}

/-- From states with `I`, every step of the activity is one of `R`, and its result meets `post`. -/
def Meets (I : σ → Prop) (R : σ → σ → Prop) (post : α → Prop) : Activity σ α → Prop
  | done x => post x
  | step ready act next => ∀ s, I s → ready s = true →
      R s (act s).2 ∧ (next (act s).1).Meets I R post

namespace Meets

variable {I : σ → Prop} {R : σ → σ → Prop} {post : α → Prop}

theorem andThen {mid : β → Prop} {a : Activity σ β} {f : β → Activity σ α} (ha : a.Meets I R mid)
    (hf : ∀ x, mid x → (f x).Meets I R post) : (a.andThen f).Meets I R post := by
  induction a with
  | done x => exact hf x ha
  | step ready act next ih =>
    intro s hI hs
    obtain ⟨hR, hnext⟩ := ha s hI hs
    exact ⟨hR, ih (act s).1 hnext⟩

theorem atomic {act : σ → α × σ} (h : ∀ s, I s → R s (act s).2 ∧ post (act s).1) :
    (Activity.atomic act).Meets I R post :=
  fun s hI _ => h s hI

theorem await {ready : σ → Bool} (h : ∀ s, I s → R s s) :
    (Activity.await ready).Meets I R fun _ => True :=
  fun s hI _ => ⟨h s hI, trivial⟩

theorem advance {a b : Activity σ α} {s t : σ} (ha : a.Meets I R post) (hI : I s)
    (h : a.advance s = some (b, t)) : R s t ∧ b.Meets I R post := by
  cases a with
  | done x => simp [Activity.advance] at h
  | step ready act next =>
    simp only [Activity.advance] at h
    split at h
    · next hs =>
      obtain ⟨rfl, rfl⟩ := Prod.mk.inj (Option.some.inj h)
      exact ha s hI hs
    · cases h

theorem mono {I' : σ → Prop} {R' : σ → σ → Prop} {post' : α → Prop} {a : Activity σ α}
    (ha : a.Meets I R post) (hI : ∀ s, I' s → I s) (hR : ∀ s t, I' s → R s t → R' s t)
    (hpost : ∀ x, post x → post' x) : a.Meets I' R' post' := by
  induction a with
  | done x => exact hpost x ha
  | step ready act next ih =>
    intro s hI' hs
    obtain ⟨hstep, hnext⟩ := ha s (hI s hI') hs
    exact ⟨hR _ _ hI' hstep, ih (act s).1 hnext⟩

theorem of_within {a : Activity σ α} (ha : a.Within R) : a.Meets I R fun _ => True := by
  induction a with
  | done x => trivial
  | step ready act next ih =>
    intro s _ hs
    obtain ⟨hR, hnext⟩ := ha s hs
    exact ⟨hR, ih (act s).1 hnext⟩

/-- What an activity meets on its own it meets among others, as long as these keep what it counts
on. -/
theorem guarded {I : σ → Prop} {R rely : σ → σ → Prop} {post : α → Prop} {a : Activity σ α}
    (ha : a.Meets I R post) (hrely : ∀ s t, I s → rely s t → I t) (hR : ∀ s t, I s → R s t → I t)
    {seen : List σ} {s : σ} (hs : I s) :
    a.Guarded rely (fun _ _ => True) (fun _ x t => I t ∧ post x) seen s := by
  induction a generalizing seen s with
  | done x => exact fun t ht => ⟨hrely s t hs ht, ha⟩
  | step ready act next ih =>
    intro t ht hready
    have hI := hrely s t hs ht
    obtain ⟨hstep, hnext⟩ := ha t hI hready
    exact ⟨trivial, ih (act t).1 hnext (hR t _ hI hstep)⟩

/-- What an activity meets from everywhere does not depend on the others. -/
theorem guarded_anywhere {rely : σ → σ → Prop} {post : α → Prop} {a : Activity σ α}
    (ha : a.Meets (fun _ => True) (fun _ _ => True) post) (seen : List σ) (s : σ) :
    a.Guarded rely (fun _ _ => True) (fun _ x _ => post x) seen s := by
  induction a generalizing seen s with
  | done x => exact fun _ _ => ha
  | step ready act next ih =>
    exact fun t _ hready => ⟨trivial, ih (act t).1 (ha t trivial hready).2 _ _⟩

end Meets

/-- An activity that goes on among others: from a state with `I` it took its own steps, each from a
state with `I`, and in between the others did what `rely` allows. -/
inductive Among (I : σ → Prop) (rely : σ → σ → Prop) (a : Activity σ α) :
    List (σ × σ) → Activity σ α → σ → Prop
  | begin {s : σ} : I s → Among I rely a [] a s
  | other {steps : List (σ × σ)} {b : Activity σ α} {s t : σ} :
      Among I rely a steps b s → rely s t → Among I rely a steps b t
  | own {steps : List (σ × σ)} {b c : Activity σ α} {s t : σ} : Among I rely a steps b s → I s →
      b.advance s = some (c, t) → Among I rely a (steps ++ [(s, t)]) c t

namespace Among

variable {I : σ → Prop} {R rely guar : σ → σ → Prop} {a b : Activity σ α}
  {steps : List (σ × σ)} {s : σ}

/-- Less may be known of the states and of the others. -/
theorem mono {I' : σ → Prop} {rely' : σ → σ → Prop} (h : a.Among I rely steps b s)
    (hI : ∀ s, I s → I' s) (hrely : ∀ s t, rely s t → rely' s t) :
    a.Among I' rely' steps b s := by
  induction h with
  | begin hstart => exact .begin (hI _ hstart)
  | other _ hother ih => exact ih.other (hrely _ _ hother)
  | own _ hfound hadv ih => exact ih.own (hI _ hfound) hadv

/-- What an activity meets on its own it meets among others. -/
theorem meets {post : α → Prop} (h : a.Among I rely steps b s) (ha : a.Meets I R post) :
    b.Meets I R post ∧ ∀ own ∈ steps, I own.1 ∧ R own.1 own.2 := by
  induction h with
  | begin _ => exact ⟨ha, fun own hown => absurd hown List.not_mem_nil⟩
  | other _ _ ih => exact ih
  | @own steps b c s t _ hI hadv ih =>
    obtain ⟨hR, hc⟩ := ih.1.advance hI hadv
    refine ⟨hc, fun own hown => ?_⟩
    rcases List.mem_append.mp hown with hown | hown
    · exact ih.2 own hown
    · obtain rfl := List.mem_singleton.mp hown
      exact ⟨hI, hR⟩

/-- An activity that is guarded wherever it begins stays so among others. -/
theorem guarded {post : List σ → α → σ → Prop} (refl : ∀ s, rely s s)
    (trans : ∀ s t u, rely s t → rely t u → rely s u) (h : a.Among I rely steps b s)
    (ha : ∀ s, I s → a.Guarded rely guar post [] s) :
    b.Guarded rely guar post (steps.map (·.1)) s := by
  induction h with
  | begin hI => exact ha _ hI
  | other _ hrely ih => exact ih.interfere trans hrely
  | own _ _ hadv ih =>
    obtain ⟨-, hc⟩ := ih.advance refl hadv
    rw [List.map_append]
    exact hc

/-- The state that an own step left is related to the present one by what the others do and what the
activity does itself. -/
theorem since (refl : ∀ s, rely s s) (trans : ∀ s t u, rely s t → rely t u → rely s u)
    {post : α → Prop} (h : a.Among I rely steps b s) (ha : a.Meets I rely post) :
    ∀ own ∈ steps, rely own.2 s := by
  induction h with
  | begin _ => exact fun own hown => absurd hown List.not_mem_nil
  | other _ hrely ih => exact fun own hown => trans _ _ _ (ih own hown) hrely
  | own hbefore hI hadv ih =>
    obtain ⟨hR, -⟩ := (hbefore.meets ha).1.advance hI hadv
    intro own hown
    rcases List.mem_append.mp hown with hown | hown
    · exact trans _ _ _ (ih own hown) hR
    · obtain rfl := List.mem_singleton.mp hown
      exact refl _

end Among

/-- An activity under way: how many were begun before it, what it was begun as, what is left of it,
and its own steps, each with the state that it found and the one that it left. -/
structure Agent (σ : Type) where
  number : Nat
  {α : Type}
  begun : Activity σ α
  rest : Activity σ α
  steps : List (σ × σ)

def Agent.fresh (number : Nat) (a : Some σ) : Agent σ := ⟨number, a.2, a.2, []⟩

/-- Steps that follow each other from one state to another. -/
def Chained : List (σ × σ) → σ → σ → Prop
  | [], s, t => s = t
  | own :: rest, s, t => own.1 = s ∧ Chained rest own.2 t

theorem Chained.concat {steps : List (σ × σ)} {s t : σ} (h : Chained steps s t) (u : σ) :
    Chained (steps ++ [(t, u)]) s u := by
  induction steps generalizing s with
  | nil => exact ⟨h.symm, rfl⟩
  | cons own rest ih => exact ⟨h.1, ih h.2⟩

theorem Chained.related {Q : σ → σ → Prop} (refl : ∀ s, Q s s)
    (trans : ∀ s t u, Q s t → Q t u → Q s u) {steps : List (σ × σ)} {s t : σ}
    (h : Chained steps s t) (hsteps : ∀ own ∈ steps, Q own.1 own.2) : Q s t := by
  induction steps generalizing s with
  | nil =>
    obtain rfl : s = t := h
    exact refl s
  | cons own rest ih =>
    obtain ⟨rfl, hrest⟩ := h
    obtain ⟨hown, hothers⟩ := List.forall_mem_cons.mp hsteps
    exact trans _ _ _ hown (ih hrest hothers)

/-- What becomes true on the way becomes true by one of the steps. -/
theorem Chained.exists_step {P : σ → Prop} {steps : List (σ × σ)} {s t : σ}
    (h : Chained steps s t) (hs : ¬ P s) (ht : P t) :
    ∃ own ∈ steps, ¬ P own.1 ∧ P own.2 := by
  apply Classical.byContradiction
  intro hnone
  have hback : P t → P s := by
    apply h.related (Q := fun s t => P t → P s) (fun s hs => hs)
      fun s t u hst htu hu => hst (htu hu)
    intro own hown ht
    apply Classical.byContradiction
    intro hs
    exact hnone ⟨own, hown, hs, ht⟩
  exact hs (hback ht)

/-- A course of events from some agents and a state to others. An activity that may begin beside the
present agents does so at any time, and any one that need not wait takes the next step. -/
inductive Course (mayBegin : List (Agent σ) → Some σ → Prop) (agents₀ : List (Agent σ)) (s₀ : σ) :
    List (Agent σ) → σ → Prop
  | start : Course mayBegin agents₀ s₀ agents₀ s₀
  | begin {agents : List (Agent σ)} {s : σ} (a : Some σ) : mayBegin agents a →
      Course mayBegin agents₀ s₀ agents s →
      Course mayBegin agents₀ s₀ (.fresh agents.length a :: agents) s
  | advance {before after : List (Agent σ)} {number : Nat} {α : Type} {x a b : Activity σ α}
      {steps : List (σ × σ)} {s t : σ} :
      Course mayBegin agents₀ s₀ (before ++ ⟨number, x, a, steps⟩ :: after) s →
      a.advance s = some (b, t) →
      Course mayBegin agents₀ s₀ (before ++ ⟨number, x, b, steps ++ [(s, t)]⟩ :: after) t

namespace Course

variable {mayBegin : List (Agent σ) → Some σ → Prop} {agents₀ agents : List (Agent σ)} {s₀ s : σ}

theorem trans {later : List (Agent σ)} {t : σ} (h : Course mayBegin agents₀ s₀ agents s)
    (h' : Course mayBegin agents s later t) : Course mayBegin agents₀ s₀ later t := by
  induction h' with
  | start => exact h
  | begin a ha _ ih => exact ih.begin a ha
  | advance _ hadv ih => exact ih.advance hadv

/-- What holds of the state and of each agent at first, and is kept by every beginning and every
step, holds throughout. -/
theorem holds {P : σ → Prop} {K : Agent σ → σ → Prop} (hP : P s₀) (hK : ∀ ag ∈ agents₀, K ag s₀)
    (hbegin : ∀ agents s a, Course mayBegin agents₀ s₀ agents s → P s → mayBegin agents a →
      K (.fresh agents.length a) s)
    (hadvance : ∀ {number : Nat} {α : Type} {x a b : Activity σ α} {steps : List (σ × σ)} {s t : σ},
      P s → K ⟨number, x, a, steps⟩ s → a.advance s = some (b, t) →
      P t ∧ K ⟨number, x, b, steps ++ [(s, t)]⟩ t ∧ ∀ ag, K ag s → K ag t)
    (h : Course mayBegin agents₀ s₀ agents s) : P s ∧ ∀ ag ∈ agents, K ag s := by
  induction h with
  | start => exact ⟨hP, hK⟩
  | begin a ha hbefore ih =>
    refine ⟨ih.1, fun ag hag => ?_⟩
    rcases List.mem_cons.mp hag with rfl | hag
    · exact hbegin _ _ a hbefore ih.1 ha
    · exact ih.2 ag hag
  | @advance before after number α x a b steps s t _ hadv ih =>
    obtain ⟨hPs, hKs⟩ := ih
    obtain ⟨hPt, hown, hothers⟩ := hadvance hPs (hKs ⟨number, x, a, steps⟩ (by simp)) hadv
    refine ⟨hPt, fun ag hag => ?_⟩
    rcases List.mem_append.mp hag with hag | hag
    · exact hothers ag (hKs ag (by simp [hag]))
    · rcases List.mem_cons.mp hag with rfl | hag
      · exact hown
      · exact hothers ag (hKs ag (by simp [hag]))

/-- What is true of all states in a course and of all steps in it: it is true at first, the agents
that are there or begin keep to it, and it lasts. -/
structure Keeps (mayBegin : List (Agent σ) → Some σ → Prop) (agents₀ : List (Agent σ)) (s₀ : σ)
    (I : σ → Prop) (R : σ → σ → Prop) : Prop where
  start : I s₀
  running : ∀ ag ∈ agents₀, ag.rest.Meets I R fun _ => True
  begins : ∀ agents s a, Course mayBegin agents₀ s₀ agents s → mayBegin agents a →
    a.2.Meets I R fun _ => True
  lasts : ∀ s t, I s → R s t → I t

section Keeps

variable {I : σ → Prop} {R : σ → σ → Prop}

/-- More may be true of the states, if it lasts. -/
theorem Keeps.restrict {I' : σ → Prop} (hk : Keeps mayBegin agents₀ s₀ I R) (hstart : I' s₀)
    (hI : ∀ s, I' s → I s) (hlasts : ∀ s t, I' s → R s t → I' t) :
    Keeps mayBegin agents₀ s₀ I' R where
  start := hstart
  running := fun ag hag => (hk.running ag hag).mono hI (fun _ _ _ h => h) fun _ h => h
  begins := fun agents s a h ha =>
    (hk.begins agents s a h ha).mono hI (fun _ _ _ h => h) fun _ h => h
  lasts := hlasts

theorem invariant (hk : Keeps mayBegin agents₀ s₀ I R) (h : Course mayBegin agents₀ s₀ agents s) :
    I s ∧ ∀ ag ∈ agents, ag.rest.Meets I R fun _ => True := by
  apply h.holds (K := fun ag _ => ag.rest.Meets I R fun _ => True) hk.start hk.running
  · exact fun agents s a hcourse _ ha => hk.begins agents s a hcourse ha
  · intro number α x a b steps s t hI hmeets hadv
    obtain ⟨hR, hb⟩ := hmeets.advance hI hadv
    exact ⟨hk.lasts s t hI hR, hb, fun ag hag => hag⟩

/-- What is kept up to a moment is kept from then on. -/
theorem keeps (hk : Keeps mayBegin agents₀ s₀ I R) (h : Course mayBegin agents₀ s₀ agents s) :
    Keeps mayBegin agents s I R where
  start := (h.invariant hk).1
  running := (h.invariant hk).2
  begins := fun later t a hlater ha => hk.begins later t a (h.trans hlater) ha
  lasts := hk.lasts

/-- A relation that all steps keep to holds between the first state and all later ones. -/
theorem related {Q : σ → σ → Prop} (hk : Keeps mayBegin agents₀ s₀ I R)
    (hQ : ∀ s t, R s t → Q s t) (refl : ∀ s, Q s s) (trans : ∀ s t u, Q s t → Q t u → Q s u)
    (h : Course mayBegin agents₀ s₀ agents s) : Q s₀ s := by
  have hboth := h.holds (P := fun s => I s ∧ Q s₀ s)
    (K := fun ag _ => ag.rest.Meets I R fun _ => True) ⟨hk.start, refl s₀⟩ hk.running
    (fun agents s a hcourse _ ha => hk.begins agents s a hcourse ha) ?_
  · exact hboth.1.2
  · intro number α x a b steps s t hI hmeets hadv
    obtain ⟨hR, hb⟩ := hmeets.advance hI.1 hadv
    exact ⟨⟨hk.lasts s t hI.1 hR, trans _ _ _ hI.2 (hQ s t hR)⟩, hb, fun ag hag => hag⟩

/-- An agent that began in the course went on among others that do what all do in it. -/
theorem among (hk : Keeps mayBegin agents₀ s₀ I R)
    (hold : ∀ ag ∈ agents₀, ag.number < agents₀.length) (h : Course mayBegin agents₀ s₀ agents s)
    {ag : Agent σ} (hag : ag ∈ agents) (hnew : agents₀.length ≤ ag.number) :
    ag.begun.Among I R ag.steps ag.rest s := by
  have hall := h.holds (P := I) (K := fun ag s => (ag.rest.Meets I R fun _ => True) ∧
      (agents₀.length ≤ ag.number → ag.begun.Among I R ag.steps ag.rest s)) hk.start ?_ ?_ ?_
  · exact (hall.2 ag hag).2 hnew
  · exact fun ag hag => ⟨hk.running ag hag, fun hnew => absurd (hold ag hag) (by omega)⟩
  · exact fun agents s a hcourse hI ha => ⟨hk.begins agents s a hcourse ha, fun _ => .begin hI⟩
  · intro number α x a b steps s t hI hparts hadv
    obtain ⟨hmeets, hamong⟩ := hparts
    obtain ⟨hR, hb⟩ := hmeets.advance hI hadv
    refine ⟨hk.lasts s t hI hR, ⟨hb, fun hnew => (hamong hnew).own hI hadv⟩, fun ag hag => ?_⟩
    exact ⟨hag.1, fun hnew => (hag.2 hnew).other hR⟩

end Keeps

/-- Agents are numbered below their count. -/
theorem number_lt (hold : ∀ ag ∈ agents₀, ag.number < agents₀.length)
    (h : Course mayBegin agents₀ s₀ agents s) : ∀ ag ∈ agents, ag.number < agents.length := by
  induction h with
  | start => exact hold
  | @begin agents s a _ _ ih =>
    intro ag hag
    rw [List.length_cons]
    rcases List.mem_cons.mp hag with rfl | hag
    · exact Nat.lt_succ_self _
    · exact Nat.lt_succ_of_lt (ih ag hag)
  | @advance before after number α x a b steps s t _ _ ih =>
    intro ag hag
    simp only [List.length_append, List.length_cons] at ih ⊢
    rcases List.mem_append.mp hag with hag | hag
    · exact ih ag (by simp [hag])
    · rcases List.mem_cons.mp hag with rfl | hag
      · exact ih ⟨number, x, a, steps⟩ (by simp)
      · exact ih ag (by simp [hag])

/-- Agents are numbered one by one, the newest first. -/
theorem numbers (h : Course mayBegin [] s₀ agents s) :
    agents.map (·.number) = (List.range agents.length).reverse := by
  induction h with
  | start => rfl
  | begin a _ _ ih => simp [Agent.fresh, ih, List.range_succ]
  | advance _ _ ih => simpa using ih

/-- The agent that was begun last takes a step. -/
theorem step {number : Nat} {x a b : Activity σ α} {steps : List (σ × σ)}
    {others : List (Agent σ)} {t : σ}
    (h : Course mayBegin agents₀ s₀ (⟨number, x, a, steps⟩ :: others) s)
    (hadv : a.advance s = some (b, t)) :
    Course mayBegin agents₀ s₀ (⟨number, x, b, steps ++ [(s, t)]⟩ :: others) t := by
  have hagents : Course mayBegin agents₀ s₀ ([] ++ ⟨number, x, a, steps⟩ :: others) s := h
  exact hagents.advance hadv

/-- An agent may go on to its end with no other one in between. -/
theorem run_after (before : List (Agent σ)) {after : List (Agent σ)} {number : Nat}
    {x a : Activity σ α} {steps : List (σ × σ)} {t : σ} {r : α}
    (h : Course mayBegin agents₀ s₀ (before ++ ⟨number, x, a, steps⟩ :: after) s)
    (hrun : a.run s = some (r, t)) :
    ∃ own, Chained own s t ∧
      Course mayBegin agents₀ s₀ (before ++ ⟨number, x, done r, steps ++ own⟩ :: after) t := by
  refine kept_of_run (P := fun b t => ∃ own, Chained own s t ∧
    Course mayBegin agents₀ s₀ (before ++ ⟨number, x, b, steps ++ own⟩ :: after) t) ?_ hrun ?_
  · rintro b c t u ⟨own, hown, hcourse⟩ hadv
    refine ⟨own ++ [(t, u)], hown.concat u, ?_⟩
    rw [← List.append_assoc]
    exact hcourse.advance hadv
  · rw [andThen_done]
    exact ⟨[], rfl, by rwa [List.append_nil]⟩

/-- So may the one that was begun last. -/
theorem run {number : Nat} {x a : Activity σ α} {steps : List (σ × σ)} {others : List (Agent σ)}
    {t : σ} {r : α} (h : Course mayBegin agents₀ s₀ (⟨number, x, a, steps⟩ :: others) s)
    (hrun : a.run s = some (r, t)) :
    ∃ own, Chained own s t ∧
      Course mayBegin agents₀ s₀ (⟨number, x, done r, steps ++ own⟩ :: others) t :=
  run_after [] h hrun

end Course

end ImageLedger.Activity
