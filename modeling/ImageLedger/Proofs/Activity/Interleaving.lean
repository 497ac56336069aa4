import ImageLedger.Activity

namespace ImageLedger.Activity

variable {σ : Type} {α β : Type}

/-- Every step of the activity, whatever state it finds, is one of `R`. -/
def Within (R : σ → σ → Prop) : Activity σ α → Prop
  | done _ => True
  | step ready act next => ∀ s, ready s = true → R s (act s).2 ∧ (next (act s).1).Within R

namespace Within

variable {R : σ → σ → Prop}

theorem andThen {a : Activity σ α} {f : α → Activity σ β} (ha : a.Within R)
    (hf : ∀ x, (f x).Within R) : (a.andThen f).Within R := by
  induction a with
  | done x => exact hf x
  | step ready act next ih =>
    intro s hs
    obtain ⟨hR, hnext⟩ := ha s hs
    exact ⟨hR, ih (act s).1 hnext⟩

theorem atomic {act : σ → β × σ} (h : ∀ s, R s (act s).2) : (Activity.atomic act).Within R :=
  fun s _ => ⟨h s, trivial⟩

theorem mono {R' : σ → σ → Prop} (h : ∀ s t, R s t → R' s t) {a : Activity σ α}
    (ha : a.Within R) : a.Within R' := by
  induction a with
  | done x => trivial
  | step ready act next ih =>
    intro s hs
    obtain ⟨hR, hnext⟩ := ha s hs
    exact ⟨h _ _ hR, ih (act s).1 hnext⟩

theorem advance {a b : Activity σ α} {s t : σ} (ha : a.Within R)
    (h : a.advance s = some (b, t)) : R s t ∧ b.Within R := by
  cases a with
  | done x => simp [Activity.advance] at h
  | step ready act next =>
    simp only [Activity.advance] at h
    split at h
    · next hs =>
      obtain ⟨rfl, rfl⟩ := Prod.mk.inj (Option.some.inj h)
      exact ha s hs
    · cases h

end Within

@[simp] theorem andThen_done (a : Activity σ α) : a.andThen done = a := by
  induction a with
  | done x => rfl
  | step ready act next ih => simp only [andThen, ih]

theorem andThen_assoc {γ : Type} (a : Activity σ α) (f : α → Activity σ β)
    (g : β → Activity σ γ) : (a.andThen f).andThen g = a.andThen fun x => (f x).andThen g := by
  induction a with
  | done x => rfl
  | step ready act next ih => simp only [andThen, ih]

instance : LawfulMonad (Activity σ) :=
  LawfulMonad.mk' (Activity σ) (fun a => andThen_done a) (fun _ _ => rfl) andThen_assoc

/-- What single steps keep is kept while an activity goes on to its end with no other one in
between, and holds of what comes after it. -/
theorem kept_of_run {P : Activity σ β → σ → Prop}
    (hadvance : ∀ {b c : Activity σ β} {s t : σ}, P b s → b.advance s = some (c, t) → P c t)
    {a : Activity σ α} {f : α → Activity σ β} {s t : σ} {x : α} (hrun : a.run s = some (x, t))
    (h : P (a.andThen f) s) : P (f x) t := by
  induction a generalizing s with
  | done y =>
    obtain ⟨rfl, rfl⟩ := Prod.mk.inj (Option.some.inj hrun)
    exact h
  | step ready act next ih =>
    simp only [Activity.run] at hrun
    split at hrun
    · next hs =>
      refine ih (act s).1 hrun (hadvance h ?_)
      simp only [andThen, Activity.advance, hs, if_true]
    · cases hrun

/-- An activity with a result of any type. -/
abbrev Some (σ : Type) := (α : Type) × Activity σ α

/-- The states that activities reach together, beside what is left of the activities. One of those
that may begin does so at any time, and any one that need not wait takes the next step. -/
inductive Reach (mayBegin : Some σ → Prop) (start : σ) : List (Some σ) → σ → Prop
  | start : Reach mayBegin start [] start
  | begin {pool : List (Some σ)} {s : σ} (a : Some σ) : mayBegin a → Reach mayBegin start pool s →
      Reach mayBegin start (a :: pool) s
  | advance {before after : List (Some σ)} {α : Type} {a b : Activity σ α} {s t : σ} :
      Reach mayBegin start (before ++ ⟨α, a⟩ :: after) s → a.advance s = some (b, t) →
      Reach mayBegin start (before ++ ⟨α, b⟩ :: after) t

namespace Reach

variable {mayBegin : Some σ → Prop} {start : σ}

/-- What holds at the start and is kept by the steps of all activities that may begin holds in every
state that they reach. -/
theorem invariant {R : σ → σ → Prop} {P : σ → Prop} (hstart : P start)
    (hbegin : ∀ a, mayBegin a → a.2.Within R) (hstep : ∀ s t, R s t → P s → P t)
    {pool : List (Some σ)} {s : σ} (h : Reach mayBegin start pool s) : P s := by
  suffices both : P s ∧ ∀ a ∈ pool, a.2.Within R from both.1
  induction h with
  | start => exact ⟨hstart, fun a ha => absurd ha List.not_mem_nil⟩
  | begin a ha _ ih =>
    refine ⟨ih.1, fun b hb => ?_⟩
    rcases List.mem_cons.mp hb with rfl | hb
    · exact hbegin b ha
    · exact ih.2 b hb
  | @advance before after α a b s t _ hadv ih =>
    obtain ⟨hR, hb⟩ := (ih.2 ⟨α, a⟩ (by simp)).advance hadv
    refine ⟨hstep s t hR ih.1, fun c hc => ?_⟩
    rcases List.mem_append.mp hc with hc | hc
    · exact ih.2 c (by simp [hc])
    · rcases List.mem_cons.mp hc with rfl | hc
      · exact hb
      · exact ih.2 c (by simp [hc])

/-- What was begun last takes a step. -/
theorem step {a b : Activity σ α} {pool : List (Some σ)} {s t : σ}
    (h : Reach mayBegin start (⟨α, a⟩ :: pool) s) (hadv : a.advance s = some (b, t)) :
    Reach mayBegin start (⟨α, b⟩ :: pool) t := by
  have hpool : Reach mayBegin start ([] ++ ⟨α, a⟩ :: pool) s := h
  exact hpool.advance hadv

/-- An activity that is begun may run to its end with no other one in between. -/
theorem run {a : Activity σ α} {pool : List (Some σ)} {s t : σ} {x : α}
    (h : Reach mayBegin start (⟨α, a⟩ :: pool) s) (hrun : a.run s = some (x, t)) :
    Reach mayBegin start (⟨α, done x⟩ :: pool) t := by
  refine kept_of_run (P := fun b s => Reach mayBegin start (⟨α, b⟩ :: pool) s) ?_ hrun ?_
  · exact fun {b c s t} h hadv => h.step hadv
  · rwa [andThen_done]

end Reach

end ImageLedger.Activity
