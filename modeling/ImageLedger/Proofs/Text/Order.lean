import ImageLedger.Proofs.Json.Quote

namespace ImageLedger.Text

theorem combine_units (s : String) : Json.combine (units s) = s.toList := by
  have hflat : ∀ cs : List Char, Json.combine (cs.flatMap unitsOf) = cs := by
    intro cs
    induction cs with
    | nil => rfl
    | cons c cs ih => rw [List.flatMap_cons, Json.combine_unitsOf, ih]
  exact hflat s.toList

theorem units_inj {s t : String} : units s = units t ↔ s = t := by
  constructor
  · intro h
    rw [← String.toList_inj, ← combine_units, ← combine_units, h]
  · intro h
    rw [h]

theorem le_iff {s t : String} : le s t = true ↔ ¬ units t < units s := by
  rw [le, Bool.not_eq_true', decide_eq_false_iff_not]

theorem le_total (s t : String) : (le s t || le t s) = true := by
  rw [Bool.or_eq_true, le_iff, le_iff, List.not_lt, List.not_lt]
  exact List.le_total (units s) (units t)

theorem le_trans {s t u : String} (hst : le s t = true) (htu : le t u = true) : le s u = true := by
  rw [le_iff, List.not_lt] at hst htu ⊢
  exact List.le_trans hst htu

theorem le_antisymm {s t : String} (hst : le s t = true) (hts : le t s = true) : s = t := by
  rw [le_iff, List.not_lt] at hst hts
  exact units_inj.mp (List.le_antisymm hst hts)

theorem pairwise_sort (texts : List String) : (sort texts).Pairwise (le · · = true) := by
  apply List.pairwise_mergeSort
  · intro s t u hst htu
    exact le_trans hst htu
  · exact le_total

/-- Sorted lists are the same exactly for lists of the same texts, each as often. -/
theorem sort_eq_sort_iff {ss ts : List String} : sort ss = sort ts ↔ ss.Perm ts := by
  have hss : (sort ss).Perm ss := List.mergeSort_perm ss le
  have hts : (sort ts).Perm ts := List.mergeSort_perm ts le
  constructor
  · intro h
    rw [h] at hss
    exact hss.symm.trans hts
  · intro h
    refine List.Perm.eq_of_pairwise ?_ (pairwise_sort ss) (pairwise_sort ts)
      ((hss.trans h).trans hts.symm)
    intro s t _ _ hst hts
    exact le_antisymm hst hts

end ImageLedger.Text
