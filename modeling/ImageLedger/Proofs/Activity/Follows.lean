import ImageLedger.Proofs.Activity.Turns

namespace ImageLedger.Activity

variable {σ τ α β : Type}

/-- Every step can be taken at once, and leaves what `f` reads of the state. -/
def Free (f : σ → τ) : Activity σ α → Prop
  | done _ => True
  | step ready act next => ∀ s, ready s = true ∧ f (act s).2 = f s ∧ (next (act s).1).Free f

namespace Free

variable {f : σ → τ}

theorem andThen {a : Activity σ β} {g : β → Activity σ α} (ha : a.Free f)
    (hg : ∀ x, (g x).Free f) : (a.andThen g).Free f := by
  induction a with
  | done x => exact hg x
  | step ready act next ih =>
    intro s
    obtain ⟨hready, hkept, hnext⟩ := ha s
    exact ⟨hready, hkept, ih (act s).1 hnext⟩

theorem atomic {act : σ → α × σ} (h : ∀ s, f (act s).2 = f s) : (Activity.atomic act).Free f :=
  fun s => ⟨rfl, h s, trivial⟩

theorem advance {a b : Activity σ α} {s t : σ} (ha : a.Free f)
    (h : a.advance s = some (b, t)) : f t = f s ∧ b.Free f := by
  cases a with
  | done x => simp [Activity.advance] at h
  | step ready act next =>
    obtain ⟨hready, hkept, hnext⟩ := ha s
    simp only [Activity.advance, hready, if_true] at h
    obtain ⟨rfl, rfl⟩ := Prod.mk.inj (Option.some.inj h)
    exact ⟨hkept, hnext⟩

end Free

theorem Turns.advance {keep turn : σ → σ → Prop} {early late : α → Prop} {a b : Activity σ α}
    {s t : σ} (ha : a.Turns (fun _ => True) keep turn early late)
    (h : a.advance s = some (b, t)) :
    (keep s t ∧ b.Turns (fun _ => True) keep turn early late) ∨
      (turn s t ∧ b.Meets (fun _ => True) keep late) := by
  cases a with
  | done x => simp [Activity.advance] at h
  | step ready act next =>
    simp only [Activity.advance] at h
    split at h
    · next hs =>
      obtain ⟨rfl, rfl⟩ := Prod.mk.inj (Option.some.inj h)
      exact ha s trivial hs
    · cases h

/-- The steps lead from one activity to what is left of it. -/
inductive Follows (a : Activity σ α) : List (σ × σ) → Activity σ α → Prop
  | start : Follows a [] a
  | step {steps : List (σ × σ)} {b c : Activity σ α} {s t : σ} : Follows a steps b →
      b.advance s = some (c, t) → Follows a (steps ++ [(s, t)]) c

/-- Steps that follow each other from one state to another, apart from changes of `R` between
them. -/
def Seamless (R : σ → σ → Prop) : List (σ × σ) → σ → σ → Prop
  | [], s, t => R s t
  | own :: rest, s, t => R s own.1 ∧ Seamless R rest own.2 t

namespace Seamless

variable {R : σ → σ → Prop} {steps more : List (σ × σ)} {s t u v : σ}

section Preorder

variable (refl : ∀ s, R s s) (trans : ∀ s t u, R s t → R t u → R s u)
include trans

theorem earlier (hst : R s t) (h : Seamless R steps t u) : Seamless R steps s u := by
  cases steps with
  | nil => exact trans s t u hst h
  | cons own rest => exact ⟨trans s t own.1 hst h.1, h.2⟩

theorem later (h : Seamless R steps s t) (htu : R t u) : Seamless R steps s u := by
  induction steps generalizing s with
  | nil => exact trans s t u h htu
  | cons own steps ih => exact ⟨h.1, ih h.2⟩

include refl

theorem append : Seamless R (steps ++ more) s u ↔
    ∃ t, Seamless R steps s t ∧ Seamless R more t u := by
  induction steps generalizing s with
  | nil =>
    refine ⟨fun h => ⟨s, refl s, h⟩, fun h => ?_⟩
    obtain ⟨t, hst, hmore⟩ := h
    exact earlier trans hst hmore
  | cons own steps ih => simp only [List.cons_append, Seamless, ih, and_assoc, exists_and_left]

theorem concat : Seamless R (steps ++ [(u, v)]) s t ↔ Seamless R steps s u ∧ R v t := by
  rw [append refl trans]
  refine ⟨fun h => ?_, fun h => ⟨u, h.1, refl u, h.2⟩⟩
  obtain ⟨w, hsteps, hwu, hvt⟩ := h
  exact ⟨later trans hsteps hwu, hvt⟩

end Preorder

/-- What changes and steps keep to holds between the first state and the last one. -/
theorem related {Q : σ → σ → Prop} (hR : ∀ s t, R s t → Q s t)
    (trans : ∀ s t u, Q s t → Q t u → Q s u) (h : Seamless R steps s t)
    (hsteps : ∀ own ∈ steps, Q own.1 own.2) : Q s t := by
  induction steps generalizing s with
  | nil => exact hR s t h
  | cons own rest ih =>
    obtain ⟨hown, hrest⟩ := List.forall_mem_cons.mp hsteps
    exact trans _ _ _ (hR _ _ h.1) (trans _ _ _ hown (ih h.2 hrest))

/-- With steps of `R` alone, all states that they found are related to the last one. -/
theorem since (trans : ∀ s t u, R s t → R t u → R s u) (h : Seamless R steps s t)
    (hsteps : ∀ own ∈ steps, R own.1 own.2) : ∀ own ∈ steps, R own.1 t := by
  induction steps generalizing s with
  | nil => exact fun own hown => absurd hown List.not_mem_nil
  | cons own rest ih =>
    obtain ⟨hown, hrest⟩ := List.forall_mem_cons.mp hsteps
    refine List.forall_mem_cons.mpr ⟨?_, ih h.2 hrest⟩
    exact trans _ _ _ hown (h.2.related (fun _ _ hR => hR) trans hrest)

end Seamless

theorem Free.follows {f : σ → τ} {a b : Activity σ α} {steps : List (σ × σ)} (ha : a.Free f)
    (h : a.Follows steps b) : b.Free f := by
  induction h with
  | start => exact ha
  | step _ hadv ih => exact (ih.advance hadv).2

namespace Follows

variable {a b : Activity σ α} {steps : List (σ × σ)} {s t : σ}

/-- A guarded activity stays so while others do nothing but what it relies on. -/
theorem guarded {rely guar : σ → σ → Prop} {post : List σ → α → σ → Prop}
    (refl : ∀ s, rely s s) (trans : ∀ s t u, rely s t → rely t u → rely s u)
    (h : Follows a steps b) (hsteps : Seamless rely steps s t)
    (ha : a.Guarded rely guar post [] s) : b.Guarded rely guar post (steps.map (·.1)) t := by
  -- the changes after the last step are among those that the activity relies on
  induction h generalizing t with
  | start => exact ha.interfere trans hsteps
  | step _ hadv ih =>
    obtain ⟨hbefore, hlast⟩ := (Seamless.concat refl trans).mp hsteps
    obtain ⟨-, hnext⟩ := (ih hbefore).advance refl hadv
    rw [List.map_append]
    exact hnext.interfere trans hlast

/-- The steps up to the turning point and those after it. -/
theorem turns {keep turn : σ → σ → Prop} {early late : α → Prop} (h : Follows a steps b)
    (ha : a.Turns (fun _ => True) keep turn early late) :
    (b.Turns (fun _ => True) keep turn early late ∧ ∀ own ∈ steps, keep own.1 own.2) ∨
    (b.Meets (fun _ => True) keep late ∧ ∃ before own after, steps = before ++ own :: after ∧
      (∀ other ∈ before, keep other.1 other.2) ∧ turn own.1 own.2 ∧
      ∀ other ∈ after, keep other.1 other.2) := by
  induction h with
  | start => exact Or.inl ⟨ha, fun own hown => nomatch hown⟩
  | @step steps b c s t _ hadv ih =>
    rcases ih with ⟨hb, hkept⟩ | ⟨hb, before, own, after, rfl, hbefore, hturn, hafter⟩
    · rcases hb.advance hadv with ⟨hkeep, hc⟩ | ⟨hturn, hc⟩
      · refine Or.inl ⟨hc, List.forall_mem_append.mpr ⟨hkept, ?_⟩⟩
        exact List.forall_mem_singleton.mpr hkeep
      · exact Or.inr ⟨hc, steps, (s, t), [], rfl, hkept, hturn, fun own hown => nomatch hown⟩
    · obtain ⟨hkeep, hc⟩ := hb.advance trivial hadv
      refine Or.inr ⟨hc, before, own, after ++ [(s, t)], by simp, hbefore, hturn, ?_⟩
      exact List.forall_mem_append.mpr ⟨hafter, List.forall_mem_singleton.mpr hkeep⟩

end Follows

end ImageLedger.Activity
