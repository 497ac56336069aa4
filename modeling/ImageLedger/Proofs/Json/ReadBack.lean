import ImageLedger.Proofs.Json.Quote

namespace ImageLedger.Json

/-- What may follow a number's text. -/
def EndsNumber (rest : List Char) : Prop :=
  ∀ c cs, rest = c :: cs → isDigit c = false ∧ c ≠ '.' ∧ c ≠ 'e' ∧ c ≠ 'E'

/-- A number that its text names. -/
def NumberReadsBack (x : Number) : Prop :=
  x.isFinite = true ∧ ∀ rest, EndsNumber rest → readNumber (x.chars ++ rest) = some (x, rest)

mutual

/-- A value with differing keys in each object and numbers that are read back. -/
def ReadsBack : Json → Prop
  | number x => NumberReadsBack x
  | list items => ItemsReadBack items
  | object fields => (fields.map (·.1)).Nodup ∧ FieldsReadBack fields
  | _ => True

def ItemsReadBack : List Json → Prop
  | [] => True
  | v :: rest => ReadsBack v ∧ ItemsReadBack rest

def FieldsReadBack : List (String × Json) → Prop
  | [] => True
  | (_, v) :: rest => ReadsBack v ∧ FieldsReadBack rest

end

theorem endsNumber_nil : EndsNumber [] := by
  intro c cs h
  cases h

theorem endsNumber_cons {c : Char} {cs : List Char}
    (h : isDigit c = false ∧ c ≠ '.' ∧ c ≠ 'e' ∧ c ≠ 'E') : EndsNumber (c :: cs) := by
  intro d ds he
  cases he
  exact h

/-- A number starts with a digit or a minus sign. -/
theorem head_of_readNumber {c : Char} {cs : List Char} (h : (readNumber (c :: cs)).isSome) :
    c = '-' ∨ isDigit c = true := by
  by_cases hminus : c = '-'
  · exact Or.inl hminus
  · right
    by_contra hdigit
    have hnone : readDigits (c :: cs) = none := by
      simp [readDigits, hdigit]
    rw [readNumber] at h
    · simp [readMagnitude, readWhole, hnone] at h
    · intro rest hrest
      exact hminus (List.cons.inj hrest).1

theorem exists_chars_of_numberReadsBack {x : Number} (h : NumberReadsBack x) :
    ∃ c cs, x.chars = c :: cs ∧ (c = '-' ∨ isDigit c = true) := by
  have hread := h.2 [] endsNumber_nil
  rw [List.append_nil] at hread
  cases hchars : x.chars with
  | nil =>
    rw [hchars] at hread
    cases hread
  | cons c cs =>
    rw [hchars] at hread
    exact ⟨c, cs, rfl, head_of_readNumber (by rw [hread]; rfl)⟩

/-- Nothing that reading a list or a value treats apart starts a number. -/
theorem ne_of_numberHead {c d : Char} (h : c = '-' ∨ isDigit c = true) (hd : d ≠ '-')
    (hdigit : isDigit d = false) : c ≠ d := by
  intro he
  obtain rfl := he
  rcases h with rfl | h
  · exact hd rfl
  · rw [hdigit] at h
    cases h

/-- A value starts with neither a blank nor a bracket that closes. -/
theorem exists_chars (ascii : Bool) {v : Json} (h : v.ReadsBack) :
    ∃ c cs, v.chars ascii = c :: cs ∧ isSpace c = false ∧ c ≠ ']' := by
  cases v with
  | null => exact ⟨'n', "ull".toList, rfl, by decide, by decide⟩
  | bool b =>
    cases b with
    | true => exact ⟨'t', "rue".toList, rfl, by decide, by decide⟩
    | false => exact ⟨'f', "alse".toList, rfl, by decide, by decide⟩
  | number x =>
    obtain ⟨c, cs, hchars, hc⟩ := exists_chars_of_numberReadsBack h
    refine ⟨c, cs, ?_, ?_, ne_of_numberHead hc (by decide) (by decide)⟩
    · rw [chars, numberChars, h.1, if_pos rfl, hchars]
    · simp [isSpace, ne_of_numberHead hc (by decide) (by decide : isDigit ' ' = false),
        ne_of_numberHead hc (by decide) (by decide : isDigit '\n' = false),
        ne_of_numberHead hc (by decide) (by decide : isDigit '\r' = false),
        ne_of_numberHead hc (by decide) (by decide : isDigit '\t' = false)]
  | text s => exact ⟨'"', _, rfl, by decide, by decide⟩
  | list items => exact ⟨'[', _, rfl, by decide, by decide⟩
  | object fields => exact ⟨'\x7b', _, rfl, by decide, by decide⟩

theorem skipSpace_cons {c : Char} (cs : List Char) (h : isSpace c = false) :
    skipSpace (c :: cs) = c :: cs := by
  simp [skipSpace, h]

theorem readValue_number {x : Number} (h : NumberReadsBack x) (fuel : Nat) {rest : List Char}
    (hrest : EndsNumber rest) :
    readValue (fuel + 1) (x.chars ++ rest) = some (number x, rest) := by
  have hread := h.2 rest hrest
  obtain ⟨c, cs, hchars, hc⟩ := exists_chars_of_numberReadsBack h
  have hspace : isSpace c = false := by
    have hnumber : (number x).ReadsBack := h
    obtain ⟨c', cs', hchars', hspace, -⟩ := exists_chars false hnumber
    rw [chars, numberChars, h.1, if_pos rfl, hchars] at hchars'
    obtain ⟨rfl, -⟩ := List.cons.inj hchars'
    exact hspace
  rw [hchars, List.cons_append] at hread ⊢
  rw [readValue, skipSpace_cons _ hspace]
  split
  all_goals first
    | exact absurd (List.cons.inj ‹_›).1 (ne_of_numberHead hc (by decide) (by decide))
    | skip
  rw [hread, Option.map_some]

theorem readValue_text (ascii : Bool) (s : String) (fuel : Nat) (rest : List Char) :
    readValue (fuel + 1) (quote ascii s ++ rest) = some (text s, rest) := by
  have hspace : isSpace '"' = false := by decide
  simp only [quote, List.cons_append, List.append_assoc, List.nil_append, readValue,
    skipSpace_cons _ hspace, readText_quote, Option.map_some]

theorem setField_new {name : String} {v : Json} {fields : List (String × Json)}
    (h : name ∉ fields.map (·.1)) : setField name v fields = (name, v) :: fields := by
  rw [setField, if_neg]
  simp only [List.any_eq_true, decide_eq_true_eq, not_exists, not_and]
  exact fun f hf he => h (List.mem_map.mpr ⟨f, hf, he⟩)

theorem length_chars_pos (ascii : Bool) {v : Json} (h : v.ReadsBack) :
    0 < (v.chars ascii).length := by
  obtain ⟨c, cs, hchars, -⟩ := exists_chars ascii h
  rw [hchars, List.length_cons]
  exact Nat.succ_pos _

theorem readValue_bracket {c : Char} (fuel : Nat) (cs : List Char) (hspace : isSpace c = false)
    (hc : c ≠ ']') : readValue (fuel + 1) ('[' :: c :: cs) = readItems fuel (c :: cs) [] := by
  have hbracket : isSpace '[' = false := by decide
  simp only [readValue, skipSpace_cons _ hbracket, skipSpace_cons _ hspace]
  split
  · next rest h => exact absurd (List.cons.inj h).1 hc
  · rfl

theorem readValue_brace (fuel : Nat) (cs : List Char) :
    readValue (fuel + 1) ('\x7b' :: '"' :: cs) = readFields fuel ('"' :: cs) [] := by
  have hbrace : isSpace '\x7b' = false := by decide
  have hquote : isSpace '"' = false := by decide
  simp only [readValue, skipSpace_cons _ hbrace, skipSpace_cons _ hquote]
  rfl

section Steps

variable {fuel : Nat} {cs rest : List Char} {v : Json}

theorem readItems_last {read : List Json} (h : readValue fuel cs = some (v, ']' :: rest)) :
    readItems (fuel + 1) cs read = some (list (v :: read).reverse, rest) := by
  have hspace : isSpace ']' = false := by decide
  simp only [readItems, h, skipSpace_cons _ hspace]

theorem readItems_next {read : List Json} (h : readValue fuel cs = some (v, ',' :: rest)) :
    readItems (fuel + 1) cs read = readItems fuel rest (v :: read) := by
  have hspace : isSpace ',' = false := by decide
  simp only [readItems, h, skipSpace_cons _ hspace]

theorem readFields_last {ascii : Bool} {k : String} {read : List (String × Json)}
    (h : readValue fuel cs = some (v, '\x7d' :: rest)) :
    readFields (fuel + 1) (quote ascii k ++ ':' :: cs) read =
      some (object (setField k v read).reverse, rest) := by
  have hquote : isSpace '"' = false := by decide
  have hcolon : isSpace ':' = false := by decide
  have hbrace : isSpace '\x7d' = false := by decide
  simp only [quote, List.cons_append, List.append_assoc, List.nil_append, readFields,
    skipSpace_cons _ hquote, readText_quote, skipSpace_cons _ hcolon, h, skipSpace_cons _ hbrace]

theorem readFields_next {ascii : Bool} {k : String} {read : List (String × Json)}
    (h : readValue fuel cs = some (v, ',' :: rest)) :
    readFields (fuel + 1) (quote ascii k ++ ':' :: cs) read =
      readFields fuel rest (setField k v read) := by
  have hquote : isSpace '"' = false := by decide
  have hcolon : isSpace ':' = false := by decide
  have hcomma : isSpace ',' = false := by decide
  simp only [quote, List.cons_append, List.append_assoc, List.nil_append, readFields,
    skipSpace_cons _ hquote, readText_quote, skipSpace_cons _ hcolon, h, skipSpace_cons _ hcomma]

end Steps

mutual

/-- A value is read back from its characters. -/
theorem readValue_chars (ascii : Bool) : ∀ (v : Json) (fuel : Nat) (rest : List Char),
    v.ReadsBack → 2 * (v.chars ascii).length ≤ fuel → EndsNumber rest →
    readValue fuel (v.chars ascii ++ rest) = some (v, rest)
  | v, 0, rest, hv, hfuel, _ => by
    have hpos := length_chars_pos ascii hv
    omega
  | null, fuel + 1, rest, _, _, _ => by
    simp [chars, readValue, skipSpace, isSpace, afterWord]
  | bool true, fuel + 1, rest, _, _, _ => by
    simp [chars, readValue, skipSpace, isSpace, afterWord]
  | bool false, fuel + 1, rest, _, _, _ => by
    simp [chars, readValue, skipSpace, isSpace, afterWord]
  | number x, fuel + 1, rest, hv, _, hrest => by
    have hx : NumberReadsBack x := hv
    rw [chars, numberChars, hx.1, if_pos rfl]
    exact readValue_number hx fuel hrest
  | text s, fuel + 1, rest, _, _, _ => readValue_text ascii s fuel rest
  | list [], fuel + 1, rest, _, _, _ => by
    simp [chars, itemChars, readValue, skipSpace, isSpace]
  | list (v :: items), fuel + 1, rest, hv, hfuel, _ => by
    have hitems : ItemsReadBack (v :: items) := hv
    obtain ⟨c, cs, hchars, hspace, hc⟩ := exists_chars ascii hitems.1
    have hhead : ∃ tail, itemChars ascii (v :: items) = c :: tail := by
      cases items <;> simp [itemChars, hchars]
    obtain ⟨tail, htail⟩ := hhead
    have hread := readItems_itemChars ascii (v :: items) fuel rest [] (by simp) hitems (by
      simp only [chars, List.cons_append, List.length_cons, List.length_append,
        List.length_nil] at hfuel
      omega)
    rw [htail] at hread
    simp only [chars, htail, List.cons_append, List.append_assoc, List.nil_append] at hread ⊢
    rw [readValue_bracket fuel _ hspace hc, hread]
    rfl
  | object [], fuel + 1, rest, _, _, _ => by
    simp [chars, fieldChars, readValue, skipSpace, isSpace]
  | object ((k, v) :: fields), fuel + 1, rest, hv, hfuel, _ => by
    have hfields : (((k, v) :: fields).map (·.1)).Nodup ∧ FieldsReadBack ((k, v) :: fields) := hv
    have hhead : ∃ tail, fieldChars ascii ((k, v) :: fields) = '"' :: tail := by
      cases fields <;> simp [fieldChars, quote]
    obtain ⟨tail, htail⟩ := hhead
    have hread := readFields_fieldChars ascii ((k, v) :: fields) fuel rest [] (by simp) hfields.1
      (by simp) hfields.2 (by
        simp only [chars, List.cons_append, List.length_cons, List.length_append,
          List.length_nil] at hfuel
        omega)
    rw [htail] at hread
    simp only [chars, htail, List.cons_append, List.append_assoc, List.nil_append] at hread ⊢
    rw [readValue_brace, hread]
    rfl

theorem readItems_itemChars (ascii : Bool) : ∀ (items : List Json) (fuel : Nat) (rest : List Char)
    (read : List Json), items ≠ [] → ItemsReadBack items →
    2 * (itemChars ascii items).length + 1 ≤ fuel →
    readItems fuel (itemChars ascii items ++ ']' :: rest) read =
      some (list (read.reverse ++ items), rest)
  | [], _, _, _, hne, _, _ => absurd rfl hne
  | [v], fuel + 1, rest, read, _, hv, hfuel => by
    simp only [itemChars] at hfuel ⊢
    have hvalue := readValue_chars ascii v fuel (']' :: rest) hv.1 (by omega)
      (endsNumber_cons (by decide))
    rw [readItems_last hvalue, List.reverse_cons]
  | v :: w :: items, fuel + 1, rest, read, _, hv, hfuel => by
    simp only [itemChars, List.length_append, List.length_cons] at hfuel
    have hpos := length_chars_pos ascii hv.1
    have hvalue := readValue_chars ascii v fuel
      (',' :: (itemChars ascii (w :: items) ++ ']' :: rest)) hv.1 (by omega)
      (endsNumber_cons (by decide))
    have hitems := readItems_itemChars ascii (w :: items) fuel rest (v :: read) (by simp) hv.2
      (by omega)
    simp only [itemChars, List.append_assoc, List.cons_append]
    rw [readItems_next hvalue, hitems, List.reverse_cons, List.append_assoc]
    rfl

theorem readFields_fieldChars (ascii : Bool) : ∀ (fields : List (String × Json)) (fuel : Nat)
    (rest : List Char) (read : List (String × Json)), fields ≠ [] → (fields.map (·.1)).Nodup →
    (∀ f ∈ fields, f.1 ∉ read.map (·.1)) → FieldsReadBack fields →
    2 * (fieldChars ascii fields).length + 1 ≤ fuel →
    readFields fuel (fieldChars ascii fields ++ '\x7d' :: rest) read =
      some (object (read.reverse ++ fields), rest)
  | [], _, _, _, hne, _, _, _, _ => absurd rfl hne
  | [(k, v)], fuel + 1, rest, read, _, _, hnew, hv, hfuel => by
    simp only [fieldChars, List.length_append, List.length_cons] at hfuel
    have hvalue := readValue_chars ascii v fuel ('\x7d' :: rest) hv.1 (by omega)
      (endsNumber_cons (by decide))
    have hk : k ∉ read.map (·.1) := hnew (k, v) List.mem_cons_self
    simp only [fieldChars, List.append_assoc, List.cons_append]
    rw [readFields_last hvalue, setField_new hk, List.reverse_cons]
  | (k, v) :: f :: fields, fuel + 1, rest, read, _, hnodup, hnew, hv, hfuel => by
    simp only [fieldChars, List.length_append, List.length_cons] at hfuel
    have hvalue := readValue_chars ascii v fuel
      (',' :: (fieldChars ascii (f :: fields) ++ '\x7d' :: rest)) hv.1 (by omega)
      (endsNumber_cons (by decide))
    have hk : k ∉ read.map (·.1) := hnew (k, v) List.mem_cons_self
    obtain ⟨hfresh, hnodup'⟩ := List.nodup_cons.mp hnodup
    have hnew' : ∀ g ∈ f :: fields, g.1 ∉ ((k, v) :: read).map (·.1) := by
      intro g hg hmem
      rcases List.mem_cons.mp hmem with he | hmem
      · exact hfresh (List.mem_map.mpr ⟨g, hg, he⟩)
      · exact hnew g (List.mem_cons_of_mem _ hg) hmem
    have hfields := readFields_fieldChars ascii (f :: fields) fuel rest ((k, v) :: read) (by simp)
      hnodup' hnew' hv.2 (by omega)
    simp only [fieldChars, List.append_assoc, List.cons_append]
    rw [readFields_next hvalue, setField_new hk, hfields, List.reverse_cons, List.append_assoc]
    rfl

end

/-- A value is read back from its text. -/
theorem parseChars_chars (ascii : Bool) {v : Json} (h : v.ReadsBack) :
    parseChars (v.chars ascii) = some v := by
  have hread := readValue_chars ascii v (2 * (v.chars ascii).length + 2) [] h (by omega)
    endsNumber_nil
  rw [List.append_nil] at hread
  simp [parseChars, hread, skipSpace]

theorem parse?_toText {v : Json} (h : v.ReadsBack) : parse? v.toText = some v := by
  rw [parse?, toText, String.toList_ofList]
  exact parseChars_chars false h

end ImageLedger.Json
