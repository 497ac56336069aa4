import ImageLedger.Store.Query
import ImageLedger.Proofs.Json.ReadBack
import ImageLedger.Proofs.Merkle.Completeness
import ImageLedger.Proofs.Store.Chain
import Mathlib.Data.List.Nodup

namespace ImageLedger

namespace Store

@[simp] theorem readStep_stepJson (step : Merkle.Step) : readStep (stepJson step) = some step := by
  obtain ⟨sibling, side⟩ := step
  cases side <;> rfl

theorem itemsReadBack_stepJson (path : List Merkle.Step) :
    Json.ItemsReadBack (path.map stepJson) := by
  induction path with
  | nil => trivial
  | cons step rest ih =>
    have hkeys : ["sibling_hash", "position"].Nodup := by decide
    exact ⟨⟨hkeys, trivial, trivial, trivial⟩, ih⟩

@[simp] theorem mapM_readStep (path : List Merkle.Step) :
    (path.map stepJson).mapM readStep = some path := by
  induction path with
  | nil => rfl
  | cons step rest ih =>
    rw [List.map_cons, List.mapM_cons, readStep_stepJson, ih]
    rfl

/-- A path is read back from the text that it was stored as. -/
@[simp] theorem readPath_pathText (path : List Merkle.Step) :
    readPath (pathText path) = .ok path := by
  have hread : (Json.list (path.map stepJson)).ReadsBack := itemsReadBack_stepJson path
  rw [readPath, pathText, Json.parse?_toText hread]
  simp only [mapM_readStep]

end Store

namespace Entry

variable {e : Entry}

theorem tree_eq_some (h : e.hashes ≠ []) :
    ∃ tree, e.tree = some tree ∧ Merkle.build e.hashes = .ok tree := by
  have htree := e.tree_eq
  have hne : ¬ ((Store.lowerHashes e.batch).isEmpty = true) := by
    rw [List.isEmpty_iff]
    exact h
  rw [Store.treeOf, if_neg hne] at htree
  cases hbuild : Merkle.build (Store.lowerHashes e.batch) with
  | error error => simp [hbuild] at htree
  | ok tree =>
    simp only [hbuild, Except.ok.injEq] at htree
    exact ⟨tree, htree.symm, hbuild⟩

theorem proofs_eq_nil (h : e.hashes = []) : e.proofs = [] := by
  have htree := e.tree_eq
  have hnil : (Store.lowerHashes e.batch).isEmpty = true := List.isEmpty_iff.mpr h
  rw [Store.treeOf, if_pos hnil] at htree
  rw [proofs, ← Except.ok.inj htree]

theorem lower_of_mem_hashes {h : String} (hh : h ∈ e.hashes) : HashText.lower h = h := by
  have hself := (HashText.normalize?_self_iff h).mpr (lowercase_of_mem_hashes hh)
  exact (HashText.normalize?_eq_some.mp hself).2

/-- The row of the hash at a place, however many there are. -/
theorem exists_proof_at {i : Nat} {h : String} (hh : e.hashes[i]? = some h) :
    ∃ path, e.proofs[i]? = some ⟨e.txId, h, i, Store.pathText path⟩ := by
  have hne : e.hashes ≠ [] := by
    intro hnil
    simp [hnil] at hh
  obtain ⟨tree, htree, hbuild⟩ := tree_eq_some hne
  obtain ⟨-, -, digests, -, -, hproofs⟩ := Merkle.exists_digests_of_build hbuild
  have hlower := lower_of_mem_hashes (List.mem_of_getElem? hh)
  refine ⟨Merkle.pathOf tree.depth (Merkle.pad (Nat.pow 2 tree.depth) digests) i, ?_⟩
  rw [proofs, htree]
  simp only [hproofs, List.getElem?_map, List.getElem?_mapIdx, hh, Option.map_some,
    Store.proofRow, hlower]

/-- The row of the hash at a place: its path is as long as the tree is deep and ends in the root. -/
theorem getElem?_proofs (hlen : e.hashes.length ≤ Merkle.leafLimit) {i : Nat} {h : String}
    (hh : e.hashes[i]? = some h) :
    ∃ tree path, e.tree = some tree ∧ Merkle.build e.hashes = .ok tree ∧
      e.proofs[i]? = some ⟨e.txId, h, i, Store.pathText path⟩ ∧ path.length = tree.depth ∧
      Merkle.verify h path tree.root = true := by
  have hne : e.hashes ≠ [] := by
    intro hnil
    simp [hnil] at hh
  obtain ⟨tree, htree, hbuild⟩ := tree_eq_some hne
  obtain ⟨path, hproof, hdepth, hverify⟩ := Merkle.verify_of_build hbuild hlen hh
  rw [lower_of_mem_hashes (List.mem_of_getElem? hh)] at hproof hverify
  refine ⟨tree, path, htree, hbuild, ?_, hdepth, hverify⟩
  simp only [proofs, htree, List.getElem?_map, hproof, Option.map_some]
  rfl

/-- A transaction has one row for each of its hashes. -/
theorem length_proofs (e : Entry) : e.proofs.length = e.hashes.length := by
  by_cases hne : e.hashes = []
  · rw [proofs_eq_nil hne, hne]
    rfl
  · obtain ⟨tree, htree, hbuild⟩ := tree_eq_some hne
    simp only [proofs, htree, List.length_map, Merkle.length_proofs_of_build hbuild]

theorem map_imageHash_proofs (hlen : e.hashes.length ≤ Merkle.leafLimit) :
    e.proofs.map (·.imageHash) = e.hashes := by
  refine List.ext_getElem? fun i => ?_
  rw [List.getElem?_map]
  cases hh : e.hashes[i]? with
  | none =>
    have hi := List.getElem?_eq_none_iff.mp hh
    rw [List.getElem?_eq_none_iff.mpr (by rw [length_proofs e]; exact hi)]
    rfl
  | some h =>
    obtain ⟨tree, path, -, -, hproof, -⟩ := getElem?_proofs hlen hh
    rw [hproof]
    rfl

theorem leafIndex_getElem (hlen : e.hashes.length ≤ Merkle.leafLimit) {i : Nat}
    (hi : i < e.proofs.length) : e.proofs[i].leafIndex = i := by
  have hi' : i < e.hashes.length := length_proofs e ▸ hi
  obtain ⟨tree, path, -, -, hproof, -⟩ := getElem?_proofs hlen (List.getElem?_eq_getElem hi')
  rw [List.getElem?_eq_getElem hi] at hproof
  rw [Option.some.inj hproof]

/-- The rows of a transaction stand in the order of their leaves. -/
theorem pairwise_proofs (hlen : e.hashes.length ≤ Merkle.leafLimit) :
    e.proofs.Pairwise fun a b => a.leafIndex ≤ b.leafIndex := by
  rw [List.pairwise_iff_getElem]
  intro i j hi hj hij
  rw [leafIndex_getElem hlen hi, leafIndex_getElem hlen hj]
  omega

end Entry

namespace Store

/-- The image hashes of a transaction in the order of their leaves. -/
def leavesOf (s : Store) (txId : Nat) : List String :=
  ((s.proofs.filter (·.txId = txId)).mergeSort fun a b => a.leafIndex ≤ b.leafIndex).map
    (·.imageHash)

/-- The image hashes on the ledger that belong to a transaction. -/
def hashesOf (s : Store) (txId : Nat) : List String :=
  (s.images.filter (·.txId = txId)).map (·.imageHash)

/-- Every transaction has fewer hashes than the count of leaves is cut to. -/
def BatchesFit (s : Store) : Prop := ∀ tx ∈ s.transactions, tx.batchSize < 4294967296

/-- The rows that carry a number among those of entries that are numbered differently. -/
theorem filter_flatMap_txId {β : Type} {entries : List Entry} {f : Entry → List β} {id : β → Nat}
    (hid : ∀ e x, x ∈ f e → id x = e.txId) (hnodup : (entries.map (·.txId)).Nodup) {e : Entry}
    (he : e ∈ entries) : (entries.flatMap f).filter (fun x => id x = e.txId) = f e := by
  induction entries with
  | nil => cases he
  | cons a rest ih =>
    obtain ⟨hfresh, hrest⟩ := List.nodup_cons.mp hnodup
    rw [List.flatMap_cons, List.filter_append]
    rcases List.mem_cons.mp he with rfl | he
    · have hall : (f e).filter (fun x => id x = e.txId) = f e :=
        List.filter_eq_self.mpr fun x hx => decide_eq_true (hid e x hx)
      have hnone : (rest.flatMap f).filter (fun x => id x = e.txId) = [] := by
        rw [List.filter_eq_nil_iff]
        intro x hx
        obtain ⟨b, hb, hxb⟩ := List.mem_flatMap.mp hx
        have hne : b.txId ≠ e.txId := fun h =>
          hfresh (List.mem_map.mpr ⟨b, hb, h⟩)
        simpa [hid b x hxb] using hne
      rw [hall, hnone, List.append_nil]
    · have hne : a.txId ≠ e.txId := fun h =>
        hfresh (List.mem_map.mpr ⟨e, he, h.symm⟩)
      have hnone : (f a).filter (fun x => id x = e.txId) = [] := by
        rw [List.filter_eq_nil_iff]
        intro x hx
        simpa [hid a x hx] using hne
      rw [hnone, List.nil_append, ih hrest he]

/-- What is found by a key that no two share. -/
theorem find?_of_nodup {β γ : Type} [DecidableEq γ] {k : β → γ} {l : List β}
    (h : (l.map k).Nodup) {x : β} (hx : x ∈ l) : l.find? (fun y => k y = k x) = some x := by
  induction l with
  | nil => cases hx
  | cons a rest ih =>
    obtain ⟨hfresh, hrest⟩ := List.nodup_cons.mp h
    rcases List.mem_cons.mp hx with rfl | hx
    · exact List.find?_cons_of_pos (by simp)
    · have hne : k a ≠ k x := fun he => hfresh (List.mem_map.mpr ⟨x, hx, he.symm⟩)
      rw [List.find?_cons_of_neg (by simpa using hne), ih hrest hx]

namespace Recorded

variable {s : Store} {entries : List Entry}

theorem nodup_txIds (h : s.Recorded entries) : (entries.map (·.txId)).Nodup := by
  rw [h.txIds]
  exact List.nodup_range'

theorem length_hashes (h : s.Recorded entries) (hfit : s.BatchesFit) {e : Entry}
    (he : e ∈ entries) : e.hashes.length ≤ Merkle.leafLimit := by
  have hsize : e.row.batchSize = e.hashes.length := rfl
  have hlt := hfit e.row (h.row_mem he)
  unfold Merkle.leafLimit
  omega

/-- The records under the number of an entry are its own. -/
theorem images_of_txId (h : s.Recorded entries) {e : Entry} (he : e ∈ entries) :
    s.images.filter (·.txId = e.txId) = e.images := by
  rw [h.images_eq]
  exact filter_flatMap_txId (fun e x hx => (Entry.txId_of_mem_images hx).1) h.nodup_txIds he

/-- So are the proofs. -/
theorem proofs_of_txId (h : s.Recorded entries) {e : Entry} (he : e ∈ entries) :
    s.proofs.filter (·.txId = e.txId) = e.proofs := by
  rw [h.proofs_eq]
  exact filter_flatMap_txId (fun e x hx => Entry.txId_of_mem_proofs hx) h.nodup_txIds he

theorem leavesOf_txId (h : s.Recorded entries) (hfit : s.BatchesFit) {e : Entry}
    (he : e ∈ entries) : s.leavesOf e.txId = e.hashes := by
  have hlen := h.length_hashes hfit he
  have hsorted : e.proofs.mergeSort (fun a b => a.leafIndex ≤ b.leafIndex) = e.proofs :=
    List.mergeSort_of_pairwise (by simpa using Entry.pairwise_proofs hlen)
  rw [leavesOf, h.proofs_of_txId he, hsorted, Entry.map_imageHash_proofs hlen]

theorem hashesOf_txId (h : s.Recorded entries) {e : Entry} (he : e ∈ entries) :
    s.hashesOf e.txId = e.hashes := by
  rw [hashesOf, h.images_of_txId he, Entry.map_imageHash_images]

theorem map_imageHash_proofs (h : s.Recorded entries) (hfit : s.BatchesFit) :
    s.proofs.map (·.imageHash) = entries.flatMap Entry.hashes := by
  rw [h.proofs_eq, List.map_flatMap]
  exact List.flatMap_congr fun e he => Entry.map_imageHash_proofs (h.length_hashes hfit he)

theorem find?_transaction (h : s.Recorded entries) {e : Entry} (he : e ∈ entries) :
    s.transactions.find? (·.txId = e.txId) = some e.row := by
  have hmap : s.transactions.map (·.txId) = entries.map (·.txId) := by
    rw [h.transactions_eq, List.map_map]
    rfl
  exact find?_of_nodup (k := (·.txId)) (hmap ▸ h.nodup_txIds) (h.row_mem he)

theorem find?_image (h : s.Recorded entries) {e : Entry} (he : e ∈ entries) {hash : String}
    (hh : hash ∈ e.hashes) :
    ∃ r, s.images.find? (·.imageHash = hash) = some r ∧ r.imageHash = hash ∧ r.txId = e.txId ∧
      r.blockHeight = e.blockHeight := by
  rw [← e.map_imageHash_images] at hh
  obtain ⟨r, hr, rfl⟩ := List.mem_map.mp hh
  have hmem : r ∈ s.images := by
    rw [h.images_eq]
    exact List.mem_flatMap.mpr ⟨e, he, hr⟩
  have hown := Entry.txId_of_mem_images hr
  exact ⟨r, find?_of_nodup (k := (·.imageHash)) h.nodup_imageHash hmem, rfl, hown.1, hown.2⟩

theorem find?_image_eq_none (h : s.Recorded entries) {hash : String}
    (hh : hash ∉ entries.flatMap Entry.hashes) :
    s.images.find? (·.imageHash = hash) = none := by
  rw [← h.map_imageHash] at hh
  rw [List.find?_eq_none]
  intro r hr
  simp only [decide_eq_true_eq]
  exact fun he => hh (List.mem_map.mpr ⟨r, hr, he⟩)

theorem find?_proof_eq_none (h : s.Recorded entries) (hfit : s.BatchesFit) {hash : String}
    (hh : hash ∉ entries.flatMap Entry.hashes) :
    s.proofs.find? (·.imageHash = hash) = none := by
  rw [← h.map_imageHash_proofs hfit] at hh
  rw [List.find?_eq_none]
  intro r hr
  simp only [decide_eq_true_eq]
  exact fun he => hh (List.mem_map.mpr ⟨r, hr, he⟩)

/-- The proof that is served for a hash of an entry. -/
theorem proof?_of_mem (h : s.Recorded entries) (hfit : s.BatchesFit) {e : Entry} (he : e ∈ entries)
    {hash text : String} (hh : hash ∈ e.hashes) (htext : HashText.normalize? text = some hash) :
    ∃ tree path i, e.tree = some tree ∧ Merkle.build e.hashes = .ok tree ∧
      path.length = tree.depth ∧ Merkle.verify hash path tree.root = true ∧
      s.proof? text = .ok (some ⟨e.txId, hash, i, path, tree.root, e.blockHeight⟩) := by
  obtain ⟨i, hi⟩ := List.getElem?_of_mem hh
  obtain ⟨tree, path, htree, hbuild, hproof, hdepth, hverify⟩ :=
    Entry.getElem?_proofs (h.length_hashes hfit he) hi
  have hrow : (⟨e.txId, hash, i, pathText path⟩ : StoredProof) ∈ s.proofs := by
    rw [h.proofs_eq]
    exact List.mem_flatMap.mpr ⟨e, he, List.mem_of_getElem? hproof⟩
  have hnodup : (s.proofs.map (·.imageHash)).Nodup := h.map_imageHash_proofs hfit ▸ h.nodup
  have hfind : s.proofs.find? (·.imageHash = hash) = some ⟨e.txId, hash, i, pathText path⟩ :=
    find?_of_nodup (k := (·.imageHash)) hnodup hrow
  have hroot : e.row.merkleRoot = some tree.root := by
    simp only [Entry.row, htree, Option.map_some]
  refine ⟨tree, path, i, htree, hbuild, hdepth, hverify, ?_⟩
  simp only [proof?, htext, Option.bind_some, hfind, h.find?_transaction he, hroot,
    readPath_pathText]
  rfl

end Recorded

end Store

end ImageLedger
