import ImageLedger.Activity

namespace ImageLedger.Activity

variable {σ : Type} {α β : Type}

/-- From the state on, each step of the activity is one of `guar`, and its end meets `post`, as long
as what happens between its steps is one of `rely`. The states that its steps found so far are
`seen`. -/
def Guarded (rely guar : σ → σ → Prop) (post : List σ → α → σ → Prop) :
    Activity σ α → List σ → σ → Prop
  | done x, seen, s => ∀ t, rely s t → post seen x t
  | step ready act next, seen, s => ∀ t, rely s t → ready t = true →
      guar t (act t).2 ∧ (next (act t).1).Guarded rely guar post (seen ++ [t]) (act t).2

namespace Guarded

variable {rely guar : σ → σ → Prop} {post : List σ → α → σ → Prop}

/-- What the others do leaves an activity guarded. -/
theorem interfere (trans : ∀ s t u, rely s t → rely t u → rely s u) {a : Activity σ α}
    {seen : List σ} {s t : σ} (ha : a.Guarded rely guar post seen s) (h : rely s t) :
    a.Guarded rely guar post seen t := by
  cases a with
  | done x => exact fun u hu => ha u (trans s t u h hu)
  | step ready act next => exact fun u hu hready => ha u (trans s t u h hu) hready

/-- A step of a guarded activity is one that it guarantees, and leaves it guarded. -/
theorem advance (refl : ∀ s, rely s s) {a b : Activity σ α} {seen : List σ} {s t : σ}
    (ha : a.Guarded rely guar post seen s) (h : a.advance s = some (b, t)) :
    guar s t ∧ b.Guarded rely guar post (seen ++ [s]) t := by
  cases a with
  | done x => simp [Activity.advance] at h
  | step ready act next =>
    simp only [Activity.advance] at h
    split at h
    · next hs =>
      obtain ⟨rfl, rfl⟩ := Prod.mk.inj (Option.some.inj h)
      exact ha s (refl s) hs
    · cases h

theorem andThen (refl : ∀ s, rely s s) {a : Activity σ β} {f : β → Activity σ α}
    {mid : List σ → β → σ → Prop} {seen : List σ} {s : σ} (ha : a.Guarded rely guar mid seen s)
    (hf : ∀ seen x t, mid seen x t → (f x).Guarded rely guar post seen t) :
    (a.andThen f).Guarded rely guar post seen s := by
  induction a generalizing seen s with
  | done x => exact hf seen x s (ha s (refl s))
  | step ready act next ih =>
    intro t ht hready
    obtain ⟨hg, hnext⟩ := ha t ht hready
    exact ⟨hg, ih (act t).1 hnext⟩

end Guarded

end ImageLedger.Activity
