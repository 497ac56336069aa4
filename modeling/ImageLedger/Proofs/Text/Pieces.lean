import ImageLedger.Text.Order
import Mathlib.Algebra.Order.Ring.Nat

namespace ImageLedger.Text

theorem length_splitOn (a : Char) (cs : List Char) : (cs.splitOn a).length = cs.count a + 1 := by
  induction cs with
  | nil => rfl
  | cons c cs ih =>
    rw [List.splitOn_cons_eq_if_modifyHead, List.count_cons]
    by_cases hc : (c == a) = true
    · rw [if_pos hc, if_pos hc, List.length_cons, ih]
    · rw [if_neg hc, if_neg hc, List.length_modifyHead, ih, Nat.add_zero]

theorem splitOn_inj {a : Char} {cs ds : List Char} (h : cs.splitOn a = ds.splitOn a) : cs = ds := by
  have hjoin := congrArg [a].intercalate h
  rw [List.intercalate_splitOn, List.intercalate_splitOn] at hjoin
  exact hjoin

/-- The pieces that texts fall into at the separators. -/
def pieces (a : Char) (texts : List String) : List (List Char) :=
  texts.flatMap fun s => s.toList.splitOn a

theorem splitOn_intercalate_pieces (a : Char) {texts : List String} (hne : texts ≠ []) :
    ([a].intercalate (texts.map String.toList)).splitOn a = pieces a texts := by
  induction texts with
  | nil => exact absurd rfl hne
  | cons s rest ih =>
    cases rest with
    | nil =>
      rw [List.map_singleton, List.intercalate_singleton, pieces, List.flatMap_singleton]
    | cons t rest =>
      have htail := ih (List.cons_ne_nil t rest)
      rw [List.map_cons, List.map_cons, List.intercalate_cons_cons, List.append_assoc,
        List.singleton_append, List.splitOn_append_cons_self, ← List.map_cons, htail]
      rfl

/-- Joined texts are the same exactly when the pieces are. -/
theorem join_eq_iff {a : Char} {fs gs : List String} (hf : fs ≠ []) (hg : gs ≠ []) :
    join (String.singleton a) fs = join (String.singleton a) gs ↔ pieces a fs = pieces a gs := by
  have hchars : ∀ texts : List String, (join (String.singleton a) texts).toList =
      [a].intercalate (texts.map String.toList) := by
    intro texts
    rw [join, String.toList_intercalate, String.toList_singleton]
  rw [← splitOn_intercalate_pieces a hf, ← splitOn_intercalate_pieces a hg, ← String.toList_inj,
    hchars, hchars]
  constructor
  · intro h
    rw [h]
  · intro h
    exact splitOn_inj h

/-- How many separators each text holds. -/
def shape (a : Char) (texts : List String) : List Nat := texts.map fun s => s.toList.count a

/-- The pieces tell the texts once it is known how many separators each text holds. -/
theorem eq_of_pieces_eq {a : Char} {fs gs : List String} (hshape : shape a fs = shape a gs)
    (h : pieces a fs = pieces a gs) : fs = gs := by
  induction fs generalizing gs with
  | nil =>
    rw [shape, List.map_nil] at hshape
    exact (List.map_eq_nil_iff.mp hshape.symm).symm
  | cons f fs ih =>
    cases gs with
    | nil => cases hshape
    | cons g gs =>
      rw [shape, shape, List.map_cons, List.map_cons, List.cons.injEq] at hshape
      obtain ⟨hcount, hrest⟩ := hshape
      have hlength : (f.toList.splitOn a).length = (g.toList.splitOn a).length := by
        rw [length_splitOn, length_splitOn, hcount]
      rw [pieces, pieces, List.flatMap_cons, List.flatMap_cons] at h
      obtain ⟨hhead, htail⟩ := List.append_inj h hlength
      rw [String.toList_inj.mp (splitOn_inj hhead), ih hrest htail]

@[simp] theorem length_pieces (a : Char) (texts : List String) :
    (pieces a texts).length = (shape a texts).sum + texts.length := by
  induction texts with
  | nil => rfl
  | cons s rest ih =>
    rw [pieces, shape] at ih
    rw [pieces, shape, List.flatMap_cons, List.length_append, length_splitOn, ih, List.map_cons,
      List.sum_cons, List.length_cons]
    omega

/-- A text without a separator is a piece of its own. -/
theorem getElem?_pieces {a : Char} (front rest : List String) {s : String} (h : a ∉ s.toList) :
    (pieces a (front ++ s :: rest))[(pieces a front).length]? = some s.toList := by
  rw [pieces, List.flatMap_append, List.flatMap_cons, List.splitOn_eq_singleton h, ← pieces,
    List.getElem?_append_right (Nat.le_refl _), Nat.sub_self]
  rfl

theorem shape_of_not_mem {a : Char} {texts : List String} (h : ∀ s ∈ texts, a ∉ s.toList) :
    shape a texts = List.replicate texts.length 0 := by
  apply List.eq_replicate_iff.mpr
  refine ⟨List.length_map .., ?_⟩
  intro n hn
  obtain ⟨s, hs, rfl⟩ := List.mem_map.mp hn
  exact List.count_eq_zero.mpr (h s hs)

theorem sum_shape_of_not_mem {a : Char} {texts : List String} (h : ∀ s ∈ texts, a ∉ s.toList) :
    (shape a texts).sum = 0 := by
  rw [shape_of_not_mem h, List.sum_replicate_nat, Nat.mul_zero]

/-- Texts without a separator are told from the joined text by their number. -/
theorem eq_iff_length_of_join_eq {a : Char} {texts others : List String}
    (h : join (String.singleton a) texts = join (String.singleton a) others)
    (hfree : ∀ s ∈ others, a ∉ s.toList) :
    texts = others ↔ texts.length = others.length := by
  constructor
  · intro heq
    rw [heq]
  · intro hlength
    by_cases hne : others = []
    · subst hne
      exact List.length_eq_zero_iff.mp hlength
    · have hne' : texts ≠ [] := by
        intro hnil
        rw [hnil] at hlength
        exact hne (List.length_eq_zero_iff.mp hlength.symm)
      have hpieces := (join_eq_iff hne' hne).mp h
      -- as many pieces from as many texts leave no separator within a text
      have hcount := congrArg List.length hpieces
      rw [length_pieces, length_pieces, sum_shape_of_not_mem hfree, hlength] at hcount
      have hzero := List.sum_eq_zero_iff_forall_eq_nat.mp
        (show (shape a texts).sum = 0 by omega)
      refine eq_of_pieces_eq ?_ hpieces
      rw [shape_of_not_mem hfree, ← hlength, List.eq_replicate_iff]
      exact ⟨List.length_map .., hzero⟩

end ImageLedger.Text
