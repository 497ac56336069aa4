import ImageLedger.Activity

namespace ImageLedger.Activity

variable {σ : Type} {α β γ δ : Type}

/-- Two activities that never wait. What their steps find in states that are `alike` is related by
some `seen`, on which the rest of the activities relies; at their end the results are related by
`post`. -/
inductive InStep (alike : σ → σ → Prop) (post : α → β → Prop) :
    Activity σ α → Activity σ β → Prop
  | done {a : α} {b : β} : post a b → InStep alike post (.done a) (.done b)
  | step {γ δ : Type} {ready ready' : σ → Bool} {act : σ → γ × σ} {act' : σ → δ × σ}
      {next : γ → Activity σ α} {next' : δ → Activity σ β} (seen : γ → δ → Prop) :
      (∀ s t, alike s t → ready s = true ∧ ready' t = true ∧ seen (act s).1 (act' t).1 ∧
        alike (act s).2 (act' t).2) →
      (∀ c d, seen c d → InStep alike post (next c) (next' d)) →
      InStep alike post (.step ready act next) (.step ready' act' next')

namespace InStep

variable {alike : σ → σ → Prop} {seen : γ → δ → Prop} {post : α → β → Prop}

theorem andThen {a : Activity σ γ} {b : Activity σ δ} {f : γ → Activity σ α} {g : δ → Activity σ β}
    (h : InStep alike seen a b) (hrest : ∀ c d, seen c d → InStep alike post (f c) (g d)) :
    InStep alike post (a.andThen f) (b.andThen g) := by
  induction h with
  | done hseen => exact hrest _ _ hseen
  | step mid hstep _ ih => exact .step mid hstep fun c d hmid => ih c d hmid

theorem atomic {act : σ → γ × σ} {act' : σ → δ × σ}
    (h : ∀ s t, alike s t → seen (act s).1 (act' t).1 ∧ alike (act s).2 (act' t).2) :
    InStep alike seen (Activity.atomic act) (Activity.atomic act') :=
  .step seen (fun s t hst => ⟨rfl, rfl, h s t hst⟩) fun _ _ => .done

/-- Activities in step that run by themselves come to an end, with results and states that are
alike. -/
theorem exists_run {a : Activity σ α} {b : Activity σ β} (h : InStep alike post a b) {s t : σ}
    (hst : alike s t) : ∃ x y s' t', a.run s = some (x, s') ∧ b.run t = some (y, t') ∧
      post x y ∧ alike s' t' := by
  induction h generalizing s t with
  | done hpost => exact ⟨_, _, s, t, rfl, rfl, hpost, hst⟩
  | step mid hstep _ ih =>
    obtain ⟨hready, hready', hmid, hnext⟩ := hstep s t hst
    simp only [Activity.run, hready, hready', if_true]
    exact ih _ _ hmid hnext

end InStep

end ImageLedger.Activity
