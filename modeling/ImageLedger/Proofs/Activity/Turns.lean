import ImageLedger.Proofs.Activity.Course

namespace ImageLedger.Activity

variable {σ α β : Type}

/-- From states with `I`, all steps of the activity are of `keep`, apart from at most one, which is
of `turn`. The result meets `early` if there is no such step, and `late` otherwise. -/
def Turns (I : σ → Prop) (keep turn : σ → σ → Prop) (early late : α → Prop) :
    Activity σ α → Prop
  | done x => early x
  | step ready act next => ∀ s, I s → ready s = true →
      (keep s (act s).2 ∧ (next (act s).1).Turns I keep turn early late) ∨
        (turn s (act s).2 ∧ (next (act s).1).Meets I keep late)

namespace Turns

variable {I : σ → Prop} {keep turn : σ → σ → Prop} {early late : α → Prop}

theorem of_meets {a : Activity σ α} (ha : a.Meets I keep early) :
    a.Turns I keep turn early late := by
  induction a with
  | done x => exact ha
  | step ready act next ih =>
    intro s hI hs
    obtain ⟨hkeep, hnext⟩ := ha s hI hs
    exact Or.inl ⟨hkeep, ih (act s).1 hnext⟩

theorem andThen {mid after : β → Prop} {a : Activity σ β} {f : β → Activity σ α}
    (ha : a.Turns I keep turn mid after)
    (hearly : ∀ x, mid x → (f x).Turns I keep turn early late)
    (hlate : ∀ x, after x → (f x).Meets I keep late) :
    (a.andThen f).Turns I keep turn early late := by
  induction a with
  | done x => exact hearly x ha
  | step ready act next ih =>
    intro s hI hs
    rcases ha s hI hs with ⟨hkeep, hnext⟩ | ⟨hturn, hnext⟩
    · exact Or.inl ⟨hkeep, ih (act s).1 hnext⟩
    · exact Or.inr ⟨hturn, hnext.andThen hlate⟩

/-- What comes before the turning point can be a part of its own. -/
theorem after_meets {mid : β → Prop} {a : Activity σ β} {f : β → Activity σ α}
    (ha : a.Meets I keep mid) (hf : ∀ x, mid x → (f x).Turns I keep turn early late) :
    (a.andThen f).Turns I keep turn early late := by
  have hbefore : a.Turns I keep turn mid fun _ => False := of_meets ha
  exact hbefore.andThen hf fun _ hfalse => hfalse.elim

/-- Among others, the own steps are all of `keep`, or one of them is of `turn`; what is left of the
activity goes with it. -/
theorem among {rely : σ → σ → Prop} {a b : Activity σ α} {steps : List (σ × σ)} {s : σ}
    (h : a.Among (fun _ => True) rely steps b s) (hI : ∀ own ∈ steps, I own.1)
    (ha : a.Turns I keep turn early late) :
    (b.Turns I keep turn early late ∧ ∀ own ∈ steps, keep own.1 own.2) ∨
      (b.Meets I keep late ∧ ∃ own ∈ steps, turn own.1 own.2) := by
  induction h with
  | begin _ => exact Or.inl ⟨ha, fun own hown => absurd hown List.not_mem_nil⟩
  | other _ _ ih => exact ih hI
  | @own steps b c s t _ _ hadv ih =>
    have hfound : I s := hI (s, t) (by simp)
    rcases ih fun own hown => hI own (List.mem_append_left _ hown) with ⟨hb, hkept⟩ | ⟨hb, hturned⟩
    · cases b with
      | done x => simp [Activity.advance] at hadv
      | step ready act next =>
        simp only [Activity.advance] at hadv
        split at hadv
        · next hready =>
          obtain ⟨rfl, rfl⟩ := Prod.mk.inj (Option.some.inj hadv)
          rcases hb s hfound hready with ⟨hkeep, hnext⟩ | ⟨hturn, hnext⟩
          · left
            refine ⟨hnext, fun own hown => ?_⟩
            rcases List.mem_append.mp hown with hown | hown
            · exact hkept own hown
            · obtain rfl := List.mem_singleton.mp hown
              exact hkeep
          · right
            exact ⟨hnext, (s, (act s).2), by simp, hturn⟩
        · cases hadv
    · obtain ⟨-, hc⟩ := hb.advance hfound hadv
      obtain ⟨own, hown, hturn⟩ := hturned
      exact Or.inr ⟨hc, own, List.mem_append_left _ hown, hturn⟩

end Turns

section Alone

variable {keep turn : σ → σ → Prop} {early late post : α → Prop} {s t : σ} {x : α}

theorem Meets.run (refl : ∀ s, keep s s) (trans : ∀ s t u, keep s t → keep t u → keep s u)
    {a : Activity σ α} (ha : a.Meets (fun _ => True) keep post) (h : a.run s = some (x, t)) :
    keep s t ∧ post x := by
  induction a generalizing s with
  | done y =>
    obtain ⟨rfl, rfl⟩ := Prod.mk.inj (Option.some.inj h)
    exact ⟨refl s, ha⟩
  | step ready act next ih =>
    simp only [Activity.run] at h
    split at h
    · next hs =>
      obtain ⟨hkeep, hnext⟩ := ha s trivial hs
      obtain ⟨hrest, hpost⟩ := ih (act s).1 hnext h
      exact ⟨trans s _ t hkeep hrest, hpost⟩
    · cases h

/-- With no others in between, the steps add up. -/
theorem Turns.run (refl : ∀ s, keep s s) (trans : ∀ s t u, keep s t → keep t u → keep s u)
    (before : ∀ s t u, keep s t → turn t u → turn s u)
    (after : ∀ s t u, turn s t → keep t u → turn s u) {a : Activity σ α}
    (ha : a.Turns (fun _ => True) keep turn early late) (h : a.run s = some (x, t)) :
    (keep s t ∧ early x) ∨ (turn s t ∧ late x) := by
  induction a generalizing s with
  | done y =>
    obtain ⟨rfl, rfl⟩ := Prod.mk.inj (Option.some.inj h)
    exact Or.inl ⟨refl s, ha⟩
  | step ready act next ih =>
    simp only [Activity.run] at h
    split at h
    · next hs =>
      rcases ha s trivial hs with ⟨hkeep, hnext⟩ | ⟨hturn, hnext⟩
      · rcases ih (act s).1 hnext h with ⟨hrest, hearly⟩ | ⟨hrest, hlate⟩
        · exact Or.inl ⟨trans s _ t hkeep hrest, hearly⟩
        · exact Or.inr ⟨before s _ t hkeep hrest, hlate⟩
      · obtain ⟨hrest, hlate⟩ := hnext.run refl trans h
        exact Or.inr ⟨after s _ t hturn hrest, hlate⟩
    · cases h

end Alone

end ImageLedger.Activity
