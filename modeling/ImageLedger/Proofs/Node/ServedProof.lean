import ImageLedger.Node.Lookup
import ImageLedger.Proofs.Node.Reachable
import ImageLedger.Proofs.Store.InclusionProof

namespace ImageLedger

namespace Store

/-- What a served proof has to do with the record of the hash: it is valid, names the same
transaction and block, and the row of the transaction holds its root and the length of its path,
which are those of the tree over the transaction's hashes in the order of their leaves. -/
structure ProofMatches (s : Store) (p : ProofLookup) (r : ImageRecord) : Prop where
  valid : p.valid = true
  imageHash_eq : p.proof.imageHash = r.imageHash
  txId_eq : p.proof.txId = r.txId
  blockHeight_eq : p.proof.blockHeight = r.blockHeight
  transaction : ∃ tx ∈ s.transactions, tx.txId = r.txId ∧
    tx.merkleRoot = some p.proof.merkleRoot ∧ tx.treeDepth = some p.proof.path.length
  leaves : (s.leavesOf r.txId).Perm (s.hashesOf r.txId)
  tree : ∃ tree, Merkle.build (s.leavesOf r.txId) = .ok tree ∧ tree.root = p.proof.merkleRoot

variable {s : Store}

theorem verify_record (s : Store) (hash : String) : (s.verify hash).record = s.image? hash := by
  unfold verify image?
  cases hnorm : HashText.normalize? hash with
  | none => rfl
  | some h =>
    have hself := HashText.normalize?_of_normalize? hnorm
    simp only [hself]

theorem lookupProof_of_proof? {hash : String} {p : ProofWithRoot}
    (h : s.proof? hash = .ok (some p)) :
    s.lookupProof hash = .ok (some ⟨p, Merkle.verify p.imageHash p.path p.merkleRoot⟩) := by
  rw [lookupProof, h]
  rfl

theorem lookupProof_of_none {hash : String} (h : s.proof? hash = .ok none) :
    s.lookupProof hash = .ok none := by
  rw [lookupProof, h]
  rfl

/-- A hash has a proof exactly when it has a record, and the two match. -/
theorem Recorded.lookupProof {entries : List Entry} (h : s.Recorded entries)
    (hfit : s.BatchesFit) (hash : String) :
    ∃ found, s.lookupProof hash = .ok found ∧
      (found.isSome = true ↔ (s.verify hash).record.isSome = true) ∧
      ∀ p r, found = some p → (s.verify hash).record = some r → s.ProofMatches p r := by
  rw [verify_record]
  cases hnorm : HashText.normalize? hash with
  | none =>
    have himage : s.image? hash = none := by simp only [image?, hnorm]
    have hproof : s.proof? hash = .ok none := by simp only [proof?, hnorm, Option.bind_none]
    refine ⟨none, lookupProof_of_none hproof, ?_, ?_⟩
    · simp [himage]
    · intro p r hp
      cases hp
  | some g =>
    by_cases hg : g ∈ entries.flatMap Entry.hashes
    · obtain ⟨e, he, hge⟩ := List.mem_flatMap.mp hg
      obtain ⟨r, hfind, hhash, hid, hheight⟩ := h.find?_image he hge
      obtain ⟨tree, path, i, htree, hbuild, hdepth, hverify, hproof⟩ := h.proof?_of_mem hfit he hge
        hnorm
      have himage : s.image? hash = some r := by simp only [image?, hnorm, hfind]
      refine ⟨_, lookupProof_of_proof? hproof, ?_, ?_⟩
      · simp [himage]
      · intro p r' hp hr'
        obtain rfl := Option.some.inj hp
        obtain rfl : r = r' := by
          rw [himage] at hr'
          exact Option.some.inj hr'
        have hleaves : s.leavesOf r.txId = e.hashes := by rw [hid, h.leavesOf_txId hfit he]
        have hhashes : s.hashesOf r.txId = e.hashes := by rw [hid, h.hashesOf_txId he]
        refine ⟨hverify, hhash.symm, hid.symm, hheight.symm,
          ⟨e.row, h.row_mem he, hid.symm, ?_, ?_⟩, ?_, ?_⟩
        · simp only [Entry.row, htree, Option.map_some]
        · simp only [Entry.row, htree, Option.map_some, hdepth]
        · rw [hleaves, hhashes]
        · exact ⟨tree, hleaves ▸ hbuild, rfl⟩
    · have himage : s.image? hash = none := by simp only [image?, hnorm, h.find?_image_eq_none hg]
      have hproof : s.proof? hash = .ok none := by
        simp only [proof?, hnorm, Option.bind_some, h.find?_proof_eq_none hfit hg]
      refine ⟨none, lookupProof_of_none hproof, ?_, ?_⟩
      · simp [himage]
      · intro p r hp
        cases hp

end Store

/-- In every state that a node reaches, a proof is served for just the hashes on the ledger, in
whatever letter case they are asked for, and it matches the hash's record. -/
theorem Node.served_proof_matches (start n : Node) (hempty : start.store = Store.empty)
    (h : start.ReachableFrom n) (hfit : n.store.BatchesFit) (hash : String) :
    ∃ found, n.store.lookupProof hash = .ok found ∧
      (found.isSome = true ↔ (n.store.verify hash).record.isSome = true) ∧
      ∀ p r, found = some p → (n.store.verify hash).record = some r →
        n.store.ProofMatches p r := by
  obtain ⟨entries, hrec⟩ := (h.sound hempty).recorded
  exact hrec.lookupProof hfit hash

/-- The second of two hashes has a proof of one step, also when it is asked for in capitals. -/
theorem Node.served_proof_matches_derived :
    derived.store.BatchesFit ∧ ∃ p r,
      derived.store.lookupProof (String.ofList (List.replicate 64 'B')) = .ok (some p) ∧
      (derived.store.verify (String.ofList (List.replicate 64 'B'))).record = some r ∧
      derived.store.ProofMatches p r ∧ p.proof.path.length = 1 := by
  have hfit : derived.store.BatchesFit := by
    intro tx htx
    obtain rfl := List.mem_singleton.mp htx
    decide
  have hrecord : (derived.store.verify (String.ofList (List.replicate 64 'B'))).record.isSome =
      true := by decide +kernel
  obtain ⟨found, hlookup, hiff, hmatches⟩ := served_proof_matches lone derived rfl
    reachableFrom_lone_derived hfit (String.ofList (List.replicate 64 'B'))
  obtain ⟨p, rfl⟩ := Option.isSome_iff_exists.mp (hiff.mpr hrecord)
  obtain ⟨r, hr⟩ := Option.isSome_iff_exists.mp hrecord
  have hmatch := hmatches p r rfl hr
  obtain ⟨tx, htx, -, -, hdepth⟩ := hmatch.transaction
  obtain rfl := List.mem_singleton.mp htx
  have hone : derivedEntry.row.treeDepth = some 1 := by decide +kernel
  exact ⟨hfit, p, r, hlookup, hr, hmatch, Option.some.inj (hdepth.symm.trans hone)⟩

end ImageLedger
