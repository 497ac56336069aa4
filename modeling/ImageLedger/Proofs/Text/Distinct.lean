import ImageLedger.Text.Blank
import Mathlib.Data.List.Nodup
import Mathlib.Data.List.Perm.Subperm

namespace ImageLedger.Text

variable {texts : List String}

theorem mem_distinct {s : String} : s ∈ distinct texts ↔ s ∈ texts := by
  have hfold : ∀ kept : List String,
      s ∈ texts.foldl (fun kept s => if s ∈ kept then kept else s :: kept) kept ↔
        s ∈ kept ∨ s ∈ texts := by
    induction texts with
    | nil => simp
    | cons t rest ih =>
      intro kept
      rw [List.foldl_cons, ih, List.mem_cons]
      by_cases ht : t ∈ kept
      · rw [if_pos ht]
        constructor
        · exact fun h => h.imp id Or.inr
        · intro h
          rcases h with h | rfl | h
          · exact Or.inl h
          · exact Or.inl ht
          · exact Or.inr h
      · rw [if_neg ht, List.mem_cons]
        simp only [or_assoc, or_left_comm]
  rw [distinct, List.mem_reverse, hfold]
  simp

theorem nodup_distinct (texts : List String) : (distinct texts).Nodup := by
  have hfold : ∀ kept : List String, kept.Nodup →
      (texts.foldl (fun kept s => if s ∈ kept then kept else s :: kept) kept).Nodup := by
    induction texts with
    | nil => exact fun kept hkept => hkept
    | cons t rest ih =>
      intro kept hkept
      rw [List.foldl_cons]
      split_ifs with ht
      · exact ih kept hkept
      · exact ih (t :: kept) (List.nodup_cons.mpr ⟨ht, hkept⟩)
  rw [distinct, List.nodup_reverse]
  exact hfold [] List.nodup_nil

theorem distinct_subperm (texts : List String) : (distinct texts).Subperm texts :=
  (nodup_distinct texts).subperm fun _ hs => mem_distinct.mp hs

/-- Nothing is left out exactly when nothing is repeated. -/
theorem length_distinct_iff : (distinct texts).length = texts.length ↔ texts.Nodup := by
  constructor
  · intro hlen
    have hperm := (distinct_subperm texts).perm_of_length_le (Nat.le_of_eq hlen.symm)
    exact hperm.nodup_iff.mp (nodup_distinct texts)
  · intro hnodup
    have hback : texts.Subperm (distinct texts) := hnodup.subperm fun _ hs => mem_distinct.mpr hs
    exact Nat.le_antisymm (distinct_subperm texts).length_le hback.length_le

/-- Lists with the same texts have the same number of different ones. -/
theorem distinct_perm {others : List String} (h : ∀ s, s ∈ texts ↔ s ∈ others) :
    (distinct texts).Perm (distinct others) :=
  (List.perm_ext_iff_of_nodup (nodup_distinct texts) (nodup_distinct others)).mpr fun s => by
    rw [mem_distinct, mem_distinct, h]

end ImageLedger.Text
