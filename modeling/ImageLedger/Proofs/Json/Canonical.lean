import ImageLedger.Proofs.Number.WholeText
import ImageLedger.Proofs.Text.Order
import Mathlib.Data.List.Sort

namespace ImageLedger.Json

/-- Equal up to the order of the keys, at any depth. -/
inductive Reordered : Json → Json → Prop
  | refl (v : Json) : Reordered v v
  | trans {u v w : Json} : Reordered u v → Reordered v w → Reordered u w
  | fields {fs gs : List (String × Json)} : fs.Perm gs → Reordered (object fs) (object gs)
  | item {v w : Json} (front rest : List Json) : Reordered v w →
      Reordered (list (front ++ v :: rest)) (list (front ++ w :: rest))
  | field {v w : Json} (k : String) (front rest : List (String × Json)) : Reordered v w →
      Reordered (object (front ++ (k, v) :: rest)) (object (front ++ (k, w) :: rest))

theorem Reordered.symm {v w : Json} (h : Reordered v w) : Reordered w v := by
  induction h with
  | refl v => exact .refl v
  | trans _ _ ih ih' => exact .trans ih' ih
  | fields hperm => exact .fields hperm.symm
  | item front rest _ ih => exact .item front rest ih
  | field k front rest _ ih => exact .field k front rest ih

/-- Up to this magnitude no whole number is rounded, and no other is rounded to it. -/
def safeLimit : Nat := 2 ^ 53 - 1

mutual

/-- Values that every reader takes alike: the keys of an object differ, and numbers are whole and
not rounded. -/
def Portable : Json → Prop
  | number x => ∃ z : Int, x = .finite z ∧ z.natAbs ≤ safeLimit
  | list items => PortableItems items
  | object fields => (fields.map (·.1)).Nodup ∧ PortableFields fields
  | _ => True

def PortableItems : List Json → Prop
  | [] => True
  | v :: rest => Portable v ∧ PortableItems rest

def PortableFields : List (String × Json) → Prop
  | [] => True
  | (_, v) :: rest => Portable v ∧ PortableFields rest

end

theorem portableItems_iff {items : List Json} : PortableItems items ↔ ∀ v ∈ items, v.Portable := by
  induction items with
  | nil => simp [PortableItems]
  | cons v rest ih => simp [PortableItems, ih]

theorem portableFields_iff {fields : List (String × Json)} :
    PortableFields fields ↔ ∀ f ∈ fields, f.2.Portable := by
  induction fields with
  | nil => simp [PortableFields]
  | cons f rest ih => simp only [PortableFields, ih, List.forall_mem_cons]

theorem portable_list {items : List Json} : (list items).Portable ↔ ∀ v ∈ items, v.Portable := by
  rw [Portable, portableItems_iff]

theorem portable_object {fields : List (String × Json)} :
    (object fields).Portable ↔ (fields.map (·.1)).Nodup ∧ ∀ f ∈ fields, f.2.Portable := by
  rw [Portable, portableFields_iff]

theorem readsBack_number {z : Int} (h : z.natAbs ≤ safeLimit) : NumberReadsBack (.finite z) := by
  have hlimit : safeLimit ≤ Number.wholeLimit := by decide
  exact numberReadsBack_whole (Number.kept_of_le (h.trans hlimit))

mutual

theorem Portable.readsBack : ∀ {v : Json}, v.Portable → v.ReadsBack
  | null, _ => trivial
  | bool _, _ => trivial
  | number _, h => by
    obtain ⟨z, rfl, hz⟩ := h
    exact readsBack_number hz
  | text _, _ => trivial
  | list _, h => itemsReadBack_of_portable h
  | object _, h => ⟨h.1, fieldsReadBack_of_portable h.2⟩

theorem itemsReadBack_of_portable : ∀ {items : List Json}, PortableItems items →
    ItemsReadBack items
  | [], _ => trivial
  | _ :: _, h => ⟨Portable.readsBack h.1, itemsReadBack_of_portable h.2⟩

theorem fieldsReadBack_of_portable : ∀ {fields : List (String × Json)}, PortableFields fields →
    FieldsReadBack fields
  | [], _ => trivial
  | _ :: _, h => ⟨Portable.readsBack h.1, fieldsReadBack_of_portable h.2⟩

end

/-- Reordering leaves a value portable. -/
theorem Reordered.portable_iff {v w : Json} (h : Reordered v w) : v.Portable ↔ w.Portable := by
  induction h with
  | refl v => exact Iff.rfl
  | trans _ _ ih ih' => exact ih.trans ih'
  | fields hperm =>
    rw [portable_object, portable_object, (hperm.map _).nodup_iff]
    simp only [hperm.mem_iff]
  | item front rest _ ih =>
    simp only [portable_list, List.mem_append, List.mem_cons, or_imp, forall_and, forall_eq, ih]
  | field k front rest _ ih =>
    simp only [portable_object, List.map_append, List.map_cons, List.mem_append, List.mem_cons,
      or_imp, forall_and, forall_eq, ih]

theorem sortedItems_eq (items : List Json) : sortedItems items = items.map sorted := by
  induction items with
  | nil => rfl
  | cons v rest ih => rw [sortedItems, ih, List.map_cons]

theorem sortedFields_eq (fields : List (String × Json)) :
    sortedFields fields = fields.map fun f => (f.1, f.2.sorted) := by
  induction fields with
  | nil => rfl
  | cons f rest ih => rw [sortedFields, ih, List.map_cons]

mutual

/-- Putting the keys in order only reorders. -/
theorem reordered_sorted : ∀ v : Json, Reordered v v.sorted
  | null => .refl _
  | bool _ => .refl _
  | number _ => .refl _
  | text _ => .refl _
  | list items => reordered_sortedItems [] items
  | object fields =>
    (reordered_sortedFields [] fields).trans (.fields (List.mergeSort_perm _ fieldLe).symm)

theorem reordered_sortedItems : ∀ front items : List Json,
    Reordered (list (front ++ items)) (list (front ++ sortedItems items))
  | front, [] => .refl _
  | front, v :: rest => by
    have hfirst := Reordered.item front rest (reordered_sorted v)
    have hrest := reordered_sortedItems (front ++ [v.sorted]) rest
    rw [List.append_assoc, List.append_assoc] at hrest
    exact hfirst.trans hrest

theorem reordered_sortedFields : ∀ front fields : List (String × Json),
    Reordered (object (front ++ fields)) (object (front ++ sortedFields fields))
  | front, [] => .refl _
  | front, (k, v) :: rest => by
    have hfirst := Reordered.field k front rest (reordered_sorted v)
    have hrest := reordered_sortedFields (front ++ [(k, v.sorted)]) rest
    rw [List.append_assoc, List.append_assoc] at hrest
    exact hfirst.trans hrest

end

theorem pairwise_mergeSort_fieldLe (fields : List (String × Json)) :
    (fields.mergeSort fieldLe).Pairwise (fieldLe · · = true) := by
  apply List.pairwise_mergeSort
  · intro a b c hab hbc
    exact Text.le_trans hab hbc
  · intro a b
    exact Text.le_total a.1 b.1

/-- Fields with differing keys have one order. -/
theorem mergeSort_eq_of_perm {fs gs : List (String × Json)} (hkeys : (fs.map (·.1)).Nodup)
    (h : fs.Perm gs) : fs.mergeSort fieldLe = gs.mergeSort fieldLe := by
  have hfs := List.mergeSort_perm fs fieldLe
  have hgs := List.mergeSort_perm gs fieldLe
  refine List.Perm.eq_of_pairwise ?_ (pairwise_mergeSort_fieldLe fs)
    (pairwise_mergeSort_fieldLe gs) ((hfs.trans h).trans hgs.symm)
  intro a b ha hb hab hba
  have hkey : a.1 = b.1 := Text.le_antisymm hab hba
  exact List.inj_on_of_nodup_map hkeys (hfs.mem_iff.mp ha) (h.mem_iff.mpr (hgs.mem_iff.mp hb)) hkey

theorem sorted_eq_of_perm {fs gs : List (String × Json)} (hkeys : (fs.map (·.1)).Nodup)
    (h : fs.Perm gs) : (object fs).sorted = (object gs).sorted := by
  have hmap : ((fs.map fun f => (f.1, f.2.sorted)).map (·.1)).Nodup := by
    rw [List.map_map]
    exact hkeys
  rw [sorted, sorted, sortedFields_eq, sortedFields_eq,
    mergeSort_eq_of_perm hmap (h.map fun f => (f.1, f.2.sorted))]

/-- Reordered values are the same once their keys are in order. -/
theorem Reordered.sorted_eq {v w : Json} (h : Reordered v w) (hv : v.Portable) :
    v.sorted = w.sorted := by
  induction h with
  | refl v => rfl
  | trans huv _ ih ih' => exact (ih hv).trans (ih' (huv.portable_iff.mp hv))
  | fields hperm => exact sorted_eq_of_perm (portable_object.mp hv).1 hperm
  | @item v w front rest _ ih =>
    have hitem : v.Portable := portable_list.mp hv v (by simp)
    simp only [sorted, sortedItems_eq, List.map_append, List.map_cons, ih hitem]
  | @field v w k front rest _ ih =>
    have hfield : v.Portable := (portable_object.mp hv).2 (k, v) (by simp)
    simp only [sorted, sortedFields_eq, List.map_append, List.map_cons, ih hfield]

/-- A portable value is read back from its canonical text, its keys in order. -/
theorem parse?_canonical {v : Json} (h : v.Portable) : parse? v.canonical = some v.sorted := by
  rw [parse?, canonical, String.toList_ofList]
  exact parseChars_chars true ((reordered_sorted v).portable_iff.mp h).readsBack

theorem canonical_eq_iff_sorted {v w : Json} (hv : v.Portable) (hw : w.Portable) :
    v.canonical = w.canonical ↔ v.sorted = w.sorted := by
  constructor
  · intro h
    have hread := parse?_canonical hv
    rw [h, parse?_canonical hw, Option.some.injEq] at hread
    exact hread.symm
  · intro h
    rw [canonical, canonical, h]

/-- Canonical texts are the same exactly for values that reordering makes equal. -/
theorem canonical_eq_iff {v w : Json} (hv : v.Portable) (hw : w.Portable) :
    v.canonical = w.canonical ↔ Reordered v w := by
  rw [canonical_eq_iff_sorted hv hw]
  constructor
  · intro h
    have hsorted := reordered_sorted v
    rw [h] at hsorted
    exact hsorted.trans (reordered_sorted w).symm
  · intro h
    exact h.sorted_eq hv

/-- Only characters below U+0080. -/
def Ascii (cs : List Char) : Prop := ∀ c ∈ cs, c.toNat < 0x80

instance (cs : List Char) : Decidable (Ascii cs) :=
  List.decidableBAll (fun c : Char => c.toNat < 0x80) cs

@[simp] theorem ascii_nil : Ascii [] := by
  intro c hc
  cases hc

@[simp] theorem ascii_cons {c : Char} {cs : List Char} :
    Ascii (c :: cs) ↔ c.toNat < 0x80 ∧ Ascii cs := List.forall_mem_cons

@[simp] theorem ascii_append {cs ds : List Char} : Ascii (cs ++ ds) ↔ Ascii cs ∧ Ascii ds :=
  List.forall_mem_append

theorem ascii_flatMap {α : Type} {f : α → List Char} {as : List α} (h : ∀ a ∈ as, Ascii (f a)) :
    Ascii (as.flatMap f) := by
  intro c hc
  obtain ⟨a, ha, hc⟩ := List.mem_flatMap.mp hc
  exact h a ha c hc

theorem ascii_escapeUnit (unit : Nat) : Ascii (escapeUnit unit) := by
  have hdigit : ∀ n < 16, (hexDigit n).toNat < 0x80 := by decide
  have hmod : ∀ n, (hexDigit (n % 16)).toNat < 0x80 := fun n =>
    hdigit (n % 16) (Nat.mod_lt n (by decide))
  simp only [escapeUnit, ascii_cons, ascii_nil, hmod, and_true]
  decide

theorem ascii_quoteChar (c : Char) : Ascii (quoteChar true c) := by
  unfold quoteChar
  split_ifs with hquote hback hn hr ht hb hf hcontrol hwide
  · decide
  · decide
  · decide
  · decide
  · decide
  · decide
  · decide
  · exact ascii_escapeUnit c.toNat
  · exact ascii_flatMap fun unit _ => ascii_escapeUnit unit
  · rw [Bool.true_and, decide_eq_true_eq] at hwide
    rw [ascii_cons]
    exact ⟨Nat.lt_of_not_le hwide, ascii_nil⟩

theorem ascii_quote (s : String) : Ascii (quote true s) := by
  have hinner := ascii_flatMap (fun c (_ : c ∈ s.toList) => ascii_quoteChar c)
  simp only [quote, ascii_cons, ascii_append, ascii_nil, hinner, and_true]
  decide

theorem ascii_numberChars {z : Int} (h : z.natAbs ≤ safeLimit) :
    Ascii (numberChars (.finite z)) := by
  have hlimit : safeLimit ≤ Number.wholeLimit := by decide
  have hdigits : Ascii (Number.finite (z.natAbs : Nat)).chars := by
    rw [chars_of_le (h.trans hlimit)]
    intro c hc
    have hdigit := isDigit_of_mem_toDigits hc
    have hnine : '9'.toNat = 57 := rfl
    simp only [isDigit, Text.le_iff_toNat_le, Bool.and_eq_true, decide_eq_true_eq] at hdigit
    omega
  rw [numberChars, Number.isFinite, if_pos rfl]
  rcases Number.chars_intCast z with hchars | hchars
  · rw [hchars]
    exact hdigits
  · rw [hchars, ascii_cons]
    exact ⟨by decide, hdigits⟩

mutual

theorem Portable.ascii_chars : ∀ {v : Json}, v.Portable → Ascii (v.chars true)
  | null, _ => by decide
  | bool true, _ => by decide
  | bool false, _ => by decide
  | number _, h => by
    obtain ⟨z, rfl, hz⟩ := h
    exact ascii_numberChars hz
  | text s, _ => ascii_quote s
  | list items, h => by
    have hitems := ascii_itemChars h
    simp only [chars, ascii_cons, ascii_append, ascii_nil, hitems, and_true]
    decide
  | object fields, h => by
    have hfields := ascii_fieldChars h.2
    simp only [chars, ascii_cons, ascii_append, ascii_nil, hfields, and_true]
    decide

theorem ascii_itemChars : ∀ {items : List Json}, PortableItems items →
    Ascii (itemChars true items)
  | [], _ => ascii_nil
  | [_], h => Portable.ascii_chars h.1
  | _ :: _ :: _, h => by
    simp only [itemChars, ascii_append, ascii_cons]
    exact ⟨Portable.ascii_chars h.1, by decide, ascii_itemChars h.2⟩

theorem ascii_fieldChars : ∀ {fields : List (String × Json)}, PortableFields fields →
    Ascii (fieldChars true fields)
  | [], _ => ascii_nil
  | [(k, _)], h => by
    simp only [fieldChars, ascii_append, ascii_cons]
    exact ⟨ascii_quote k, by decide, Portable.ascii_chars h.1⟩
  | (k, _) :: _ :: _, h => by
    simp only [fieldChars, ascii_append, ascii_cons]
    exact ⟨⟨ascii_quote k, by decide, Portable.ascii_chars h.1⟩, by decide, ascii_fieldChars h.2⟩

end

/-- Plain characters are their own code units. -/
theorem units_of_ascii {cs : List Char} (h : Ascii cs) :
    ∀ u ∈ Text.units (String.ofList cs), u < 0x80 := by
  intro u hu
  rw [Text.units, String.toList_ofList] at hu
  obtain ⟨c, hc, hu⟩ := List.mem_flatMap.mp hu
  have hplain := h c hc
  rw [Text.unitsOf, if_pos (by omega), List.mem_singleton] at hu
  exact hu ▸ hplain

/-- Canonical text is ASCII, is read back as the value it was made of, and is shared by values
that differ in the order of keys only. -/
theorem canonical_faithful {v : Json} (hv : v.Portable) :
    (∀ u ∈ Text.units v.canonical, u < 0x80) ∧
      (∃ r, parse? v.canonical = some r ∧ Reordered v r) ∧
      ∀ w : Json, w.Portable → (v.canonical = w.canonical ↔ Reordered v w) := by
  have hsorted := (reordered_sorted v).portable_iff.mp hv
  refine ⟨units_of_ascii hsorted.ascii_chars, ?_, ?_⟩
  · exact ⟨v.sorted, parse?_canonical hv, reordered_sorted v⟩
  · intro w hw
    exact canonical_eq_iff hv hw

/-- Objects with keys out of order, texts that need escapes and a negative number. -/
def nested : Json :=
  object [("é", list [number (.finite (-7 : Int)), null, text "😀\\u00e9"]),
    ("a", object [("b", bool true), ("B", text "\"\n")])]

theorem nested_canonical_faithful :
    nested.Portable ∧ (∀ u ∈ Text.units nested.canonical, u < 0x80) ∧
      nested.canonical = nested.sorted.canonical := by
  have hnested : nested.Portable := by
    refine ⟨by decide, ⟨⟨-7, rfl, by decide⟩, trivial, trivial, trivial⟩, ⟨by decide, ?_⟩, trivial⟩
    exact ⟨trivial, trivial, trivial⟩
  have hsorted := (reordered_sorted nested).portable_iff.mp hnested
  obtain ⟨hascii, -, hsame⟩ := canonical_faithful hnested
  exact ⟨hnested, hascii, (hsame nested.sorted hsorted).mpr (reordered_sorted nested)⟩

end ImageLedger.Json
