import ImageLedger.Chain.Commitment
import ImageLedger.Proofs.Json.Canonical

namespace ImageLedger

namespace Json

/-- Numbers that are read back from their texts have different ones. -/
theorem numberChars_append_inj {x y : Number} (hx : NumberReadsBack x) (hy : NumberReadsBack y)
    {xs ys : List Char} (hxs : EndsNumber xs) (hys : EndsNumber ys)
    (h : numberChars x ++ xs = numberChars y ++ ys) : x = y := by
  rw [numberChars, numberChars, if_pos hx.1, if_pos hy.1] at h
  have hread := hx.2 xs hxs
  rw [h, hy.2 ys hys] at hread
  exact (Prod.mk.inj (Option.some.inj hread)).1.symm

theorem quote_append_inj {ascii : Bool} {s t : String} {ss ts : List Char}
    (h : quote ascii s ++ ss = quote ascii t ++ ts) : s = t ∧ ss = ts := by
  simp only [quote, List.cons_append, List.append_assoc, List.nil_append, List.cons.injEq,
    true_and] at h
  have hread := readText_quote ascii s ss
  rw [h, readText_quote] at hread
  exact ⟨(Prod.mk.inj (Option.some.inj hread)).1.symm, (Prod.mk.inj (Option.some.inj hread)).2.symm⟩

/-- Lists of texts that are written alike start alike. -/
theorem head?_of_itemChars {ascii : Bool} {ss ts : List String} {xs ys : List Char}
    (h : itemChars ascii (ss.map .text) ++ ']' :: xs =
      itemChars ascii (ts.map .text) ++ ']' :: ys) : ss.head? = ts.head? := by
  have hcons : ∀ (s : String) (rest : List String) (xs : List Char),
      ∃ tail, itemChars ascii ((s :: rest).map .text) ++ ']' :: xs = quote ascii s ++ tail := by
    intro s rest xs
    cases rest with
    | nil => exact ⟨']' :: xs, by simp only [List.map_cons, List.map_nil, itemChars, chars]⟩
    | cons t rest =>
      refine ⟨',' :: (itemChars ascii ((t :: rest).map .text) ++ ']' :: xs), ?_⟩
      simp only [List.map_cons, itemChars, chars, List.append_assoc, List.cons_append]
  cases ss with
  | nil =>
    cases ts with
    | nil => rfl
    | cons t ts =>
      obtain ⟨tail, htail⟩ := hcons t ts ys
      rw [htail] at h
      simp [itemChars, quote] at h
  | cons s ss =>
    obtain ⟨tail, htail⟩ := hcons s ss xs
    rw [htail] at h
    cases ts with
    | nil => simp [itemChars, quote] at h
    | cons t ts =>
      obtain ⟨tail', htail'⟩ := hcons t ts ys
      rw [htail'] at h
      rw [List.head?_cons, List.head?_cons, (quote_append_inj h).1]

/-- Fields whose keys are in order stay where they are. -/
theorem mergeSort_of_keys {fields : List (String × Json)}
    (h : (fields.map (·.1)).Pairwise (Text.le · · = true)) : fields.mergeSort fieldLe = fields :=
  List.mergeSort_of_pairwise (List.pairwise_map.mp h)

theorem sorted_list {items : List Json} (h : ∀ v ∈ items, v.sorted = v) :
    (list items).sorted = list items := by
  rw [sorted, sortedItems_eq, List.map_congr_left h, List.map_id']

theorem sorted_object {fields : List (String × Json)}
    (hkeys : (fields.map (·.1)).Pairwise (Text.le · · = true))
    (hvalues : ∀ f ∈ fields, f.2.sorted = f.2) : (object fields).sorted = object fields := by
  have hmap : (fields.map fun f => (f.1, f.2.sorted)) = fields := by
    refine (List.map_congr_left fun f hf => ?_).trans (List.map_id' fields)
    rw [hvalues f hf]
  rw [sorted, sortedFields_eq, hmap, mergeSort_of_keys hkeys]

end Json

/-- A whole number of a magnitude that is never rounded. -/
def Number.Exact (x : Number) : Prop := ∃ z : Int, x = .finite z ∧ z.natAbs ≤ Json.safeLimit

/-- What a hash of the chain is taken of. -/
inductive Content
  | block (height : Number) (previousHash : String) (timestamp : Number)
      (transactionHashes : List String) (validatorId : String)
  | transaction (imageHashes : List String) (timestamps : List Number) (submitterId : String)

namespace Content

def text : Content → String
  | block height previousHash timestamp hashes validatorId =>
    blockText height previousHash timestamp hashes validatorId
  | transaction hashes timestamps submitterId => transactionText hashes timestamps submitterId

def hash : Content → String
  | block height previousHash timestamp hashes validatorId =>
    blockHash height previousHash timestamp hashes validatorId
  | transaction hashes timestamps submitterId => transactionHash hashes timestamps submitterId

/-- All its numbers are exact. -/
def Exact : Content → Prop
  | block height _ timestamp _ _ => height.Exact ∧ timestamp.Exact
  | transaction _ timestamps _ => ∀ t ∈ timestamps, t.Exact

/-- The same in everything but the order in which the hashes are listed. -/
def Alike : Content → Content → Prop
  | block height previous timestamp hashes validator,
    block height' previous' timestamp' hashes' validator' =>
    height = height' ∧ previous = previous' ∧ timestamp = timestamp' ∧ validator = validator' ∧
      hashes.Perm hashes'
  | transaction hashes timestamps submitter, transaction hashes' timestamps' submitter' =>
    submitter = submitter' ∧ timestamps = timestamps' ∧ hashes.Perm hashes'
  | _, _ => False

/-- The value whose text is hashed, its keys in order. -/
def value : Content → Json
  | block height previousHash timestamp hashes validatorId => .object [
      ("block_height", .number height),
      ("previous_hash", .text previousHash),
      ("timestamp", .number timestamp),
      ("transaction_hashes", .list ((Text.sort hashes).map .text)),
      ("validator_id", .text validatorId)]
  | transaction hashes timestamps submitterId => .object [
      ("aggregator_id", .text submitterId),
      ("image_hashes", .list ((Text.sort hashes).map .text)),
      ("timestamps", .list (timestamps.map .number))]

variable {a b : Content}

theorem sorted_value (a : Content) : a.value.sorted = a.value := by
  have htexts : ∀ texts : List String, (Json.list (texts.map .text)).sorted =
      .list (texts.map .text) := fun _ =>
    Json.sorted_list (List.forall_mem_map.mpr fun _ _ => rfl)
  have hnumbers : ∀ xs : List Number, (Json.list (xs.map .number)).sorted =
      .list (xs.map .number) := fun _ =>
    Json.sorted_list (List.forall_mem_map.mpr fun _ _ => rfl)
  cases a with
  | block height previousHash timestamp hashes validatorId =>
    have hkeys : ["block_height", "previous_hash", "timestamp", "transaction_hashes",
      "validator_id"].Pairwise (Text.le · · = true) := by decide
    refine Json.sorted_object hkeys ?_
    simp only [List.forall_mem_cons]
    exact ⟨rfl, rfl, rfl, htexts _, rfl, nofun⟩
  | transaction hashes timestamps submitterId =>
    have hkeys : ["aggregator_id", "image_hashes", "timestamps"].Pairwise
      (Text.le · · = true) := by decide
    refine Json.sorted_object hkeys ?_
    simp only [List.forall_mem_cons]
    exact ⟨rfl, htexts _, hnumbers _, nofun⟩

theorem text_eq_canonical (a : Content) : a.text = a.value.canonical := by
  cases a with
  | block height previousHash timestamp hashes validatorId => rfl
  | transaction hashes timestamps submitterId =>
    have hkeys : ["image_hashes", "timestamps", "aggregator_id"].Nodup := by decide
    have hperm : ∀ i t s : String × Json, [i, t, s].Perm [s, i, t] := fun i t s =>
      @List.perm_append_comm _ [i, t] [s]
    rw [text, transactionText, value, Json.canonical, Json.canonical]
    refine congrArg (fun v => String.ofList (Json.chars true v)) ?_
    refine Json.sorted_eq_of_perm ?_ (hperm _ _ _)
    exact hkeys

theorem text_eq (a : Content) : a.text = String.ofList (a.value.chars true) := by
  rw [text_eq_canonical, Json.canonical, sorted_value]

theorem Exact.portable (h : a.Exact) : a.value.Portable := by
  have htexts : ∀ texts : List String, (Json.list (texts.map .text)).Portable := fun _ =>
    Json.portable_list.mpr (List.forall_mem_map.mpr fun _ _ => trivial)
  cases a with
  | block height previousHash timestamp hashes validatorId =>
    have hkeys : ["block_height", "previous_hash", "timestamp", "transaction_hashes",
      "validator_id"].Nodup := by decide
    exact ⟨hkeys, h.1, trivial, h.2, htexts _, trivial, trivial⟩
  | transaction hashes timestamps submitterId =>
    have hkeys : ["aggregator_id", "image_hashes", "timestamps"].Nodup := by decide
    have htimes : (Json.list (timestamps.map .number)).Portable :=
      Json.portable_list.mpr (List.forall_mem_map.mpr h)
    exact ⟨hkeys, trivial, htexts _, htimes, trivial⟩

/-- Sorting keeps of a list of hashes just what is in it, so that the values tell contents apart
which are not alike. -/
theorem value_eq_iff_alike : a.value = b.value ↔ a.Alike b := by
  have htexts : ∀ {ss ts : List String},
      (Text.sort ss).map Json.text = (Text.sort ts).map Json.text ↔ ss.Perm ts := fun {ss ts} =>
    (List.map_injective_iff.mpr fun _ _ h => Json.text.inj h).eq_iff.trans Text.sort_eq_sort_iff
  have hnumbers : ∀ {xs ys : List Number},
      xs.map Json.number = ys.map Json.number ↔ xs = ys := fun {xs ys} =>
    (List.map_injective_iff.mpr fun _ _ h => Json.number.inj h).eq_iff
  cases a <;> cases b <;>
    simp [value, Alike, htexts, hnumbers, and_comm, and_left_comm]

theorem text_eq_iff_value_eq (ha : a.Exact) (hb : b.Exact) :
    a.text = b.text ↔ a.value = b.value := by
  rw [text_eq_canonical, text_eq_canonical,
    Json.canonical_eq_iff_sorted ha.portable hb.portable, sorted_value, sorted_value]

end Content

theorem toList_loop (bytes : ByteArray) (i : Nat) (read : List UInt8) :
    ByteArray.toList.loop bytes i read = read.reverse ++ bytes.data.toList.drop i := by
  unfold ByteArray.toList.loop
  split_ifs with hi
  · have hlt : i < bytes.data.toList.length := hi
    have hget : bytes.get! i = bytes.data.toList[i] := by
      have hdata : bytes.get! i = bytes.data[i]! := rfl
      rw [hdata, getElem!_pos bytes.data i hi, Array.getElem_toList]
    rw [toList_loop bytes (i + 1), hget, List.drop_eq_getElem_cons hlt, List.reverse_cons,
      List.append_assoc, List.singleton_append]
  · have hle : bytes.data.toList.length ≤ i := Nat.le_of_not_lt hi
    rw [List.drop_eq_nil_of_le hle, List.append_nil]
termination_by bytes.size - i

theorem utf8_inj {s t : String} : utf8 s = utf8 t ↔ s = t := by
  constructor
  · intro h
    rw [utf8, utf8, ByteArray.toList, ByteArray.toList, toList_loop, toList_loop] at h
    exact String.toByteArray_inj.mp (ByteArray.ext (Array.toList_inj.mp h))
  · rintro rfl
    rfl

theorem hash_utf8_of_hashText {s t : String} (h : hashText s = hashText t) :
    Sha256.hash (utf8 s) = Sha256.hash (utf8 t) := by
  have hread := Digest.ofHex?_toHex (Sha256.hash (utf8 s))
  have hsame : (Sha256.hash (utf8 s)).toHex = (Sha256.hash (utf8 t)).toHex := h
  rw [hsame, Digest.ofHex?_toHex, Option.some.injEq] at hread
  exact hread.symm

/-- Two byte strings of one digest. -/
def Sha256.Collision (bytes bytes' : List UInt8) : Prop :=
  bytes ≠ bytes' ∧ hash bytes = hash bytes'

namespace Content

variable {a b : Content}

/-- Contents are hashed as one text exactly if they are alike. Contents of one hash that are not
alike give a collision of the hash function. -/
theorem text_eq_iff_alike (ha : a.Exact) (hb : b.Exact) :
    (a.text = b.text ↔ a.Alike b) ∧
      (a.hash = b.hash → ¬ a.Alike b → Sha256.Collision (utf8 a.text) (utf8 b.text)) := by
  have htext : a.text = b.text ↔ a.Alike b :=
    (text_eq_iff_value_eq ha hb).trans value_eq_iff_alike
  have hhash : ∀ c : Content, c.hash = hashText c.text := by
    intro c
    cases c <;> rfl
  refine ⟨htext, fun hsame hnot => ⟨fun hbytes => ?_, ?_⟩⟩
  · exact hnot (htext.mp (utf8_inj.mp hbytes))
  · rw [hhash, hhash] at hsame
    exact hash_utf8_of_hashText hsame

/-- Two images at two minutes, from a submitter whose name has a quote, a comma and a letter
beyond ASCII. -/
def twoImages (hashes : List String) : Content := transaction hashes [60, 120] "\",é"

theorem twoImages_exact (hashes : List String) : (twoImages hashes).Exact := by
  have hminute : Number.Exact 60 := ⟨60, by decide, by decide⟩
  have hnext : Number.Exact 120 := ⟨120, by decide, by decide⟩
  exact List.forall_mem_cons.mpr ⟨hminute, List.forall_mem_cons.mpr ⟨hnext, nofun⟩⟩

theorem twoImages_text :
    (twoImages ["b", "a"]).Exact ∧ (twoImages ["a", "b"]).Exact ∧
      (twoImages ["b", "a"]).text = (twoImages ["a", "b"]).text ∧
      (twoImages ["b", "a"]).text ≠ (twoImages ["b", "b"]).text := by
  have hexact := twoImages_exact
  refine ⟨hexact _, hexact _, ?_, ?_⟩
  · refine (text_eq_iff_alike (hexact _) (hexact _)).1.mpr ⟨rfl, rfl, ?_⟩
    exact List.Perm.swap "a" "b" []
  · intro h
    have hperm := ((text_eq_iff_alike (hexact _) (hexact _)).1.mp h).2.2
    exact absurd (hperm.mem_iff.mp (List.mem_cons_of_mem "b" List.mem_cons_self)) (by decide)

end Content

/-- A block's text starts with its height. -/
theorem exists_blockText (height : Number) (previousHash : String) (timestamp : Number)
    (hashes : List String) (validatorId : String) :
    ∃ rest, (blockText height previousHash timestamp hashes validatorId).toList =
      '\x7b' :: Json.quote true "block_height" ++
        ':' :: (Json.numberChars height ++ ',' :: rest) := by
  have htext := (Content.block height previousHash timestamp hashes validatorId).text_eq
  rw [Content.text] at htext
  simp only [htext, Content.value, Json.chars, Json.fieldChars, String.toList_ofList,
    List.cons_append, List.append_assoc]
  exact ⟨_, rfl⟩

/-- A transaction's text starts with its submitter and its image hashes in order. -/
theorem exists_transactionText (hashes : List String) (timestamps : List Number)
    (submitterId : String) :
    ∃ rest, (transactionText hashes timestamps submitterId).toList =
      '{' :: Json.quote true "aggregator_id" ++ ':' :: (Json.quote true submitterId ++
        ',' :: (Json.quote true "image_hashes" ++ ':' :: '[' ::
          (Json.itemChars true ((Text.sort hashes).map .text) ++ ']' :: rest))) := by
  have htext := (Content.transaction hashes timestamps submitterId).text_eq
  rw [Content.text] at htext
  simp only [htext, Content.value, Json.chars, Json.fieldChars, String.toList_ofList,
    List.cons_append, List.append_assoc]
  exact ⟨_, rfl⟩

/-- Blocks whose heights are told apart by their texts have different texts. -/
theorem height_of_blockText {m n : Nat} (hm : m ≤ Number.wholeLimit) (hn : n ≤ Number.wholeLimit)
    {previous previous' validator validator' : String} {time time' : Number}
    {hashes hashes' : List String}
    (h : blockText (Number.ofNat m) previous time hashes validator =
      blockText (Number.ofNat n) previous' time' hashes' validator') : m = n := by
  have hreads : ∀ {k : Nat}, k ≤ Number.wholeLimit → Json.NumberReadsBack (Number.ofNat k) := by
    intro k hk
    rw [Number.ofNat_eq hk, ← Int.cast_natCast]
    exact Json.numberReadsBack_whole (Number.kept_of_le hk)
  have hcomma : ∀ cs, Json.EndsNumber (',' :: cs) := fun cs =>
    Json.endsNumber_cons (by decide)
  obtain ⟨rest, hrest⟩ := exists_blockText (Number.ofNat m) previous time hashes validator
  obtain ⟨rest', hrest'⟩ := exists_blockText (Number.ofNat n) previous' time' hashes' validator'
  rw [h, hrest'] at hrest
  have htail := (List.cons.inj (List.append_cancel_left hrest)).2
  exact (Number.ofNat_inj hm hn).mp
    (Json.numberChars_append_inj (hreads hn) (hreads hm) (hcomma _) (hcomma _) htail).symm

/-- Transactions with one text have the same least image hash. -/
theorem head?_of_transactionText {hashes hashes' : List String} {times times' : List Number}
    {submitter submitter' : String}
    (h : transactionText hashes times submitter = transactionText hashes' times' submitter') :
    (Text.sort hashes).head? = (Text.sort hashes').head? := by
  obtain ⟨rest, hrest⟩ := exists_transactionText hashes times submitter
  obtain ⟨rest', hrest'⟩ := exists_transactionText hashes' times' submitter'
  rw [h, hrest'] at hrest
  have hfirst := (List.cons.inj (List.append_cancel_left hrest)).2
  have hsecond := (List.cons.inj (Json.quote_append_inj hfirst).2).2
  have hthird := List.append_cancel_left hsecond
  exact (Json.head?_of_itemChars (List.cons.inj (List.cons.inj hthird).2).2).symm

end ImageLedger
