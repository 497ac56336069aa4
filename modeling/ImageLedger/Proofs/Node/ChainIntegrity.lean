import ImageLedger.Proofs.Node.Reachable
import Mathlib.Data.List.Nodup

namespace ImageLedger

namespace Store

/-- A linked chain whose image records hold lowercase hashes, each once, and name a transaction of
their own block. -/
structure ChainIntegrity (s : Store) : Prop extends s.Linked where
  lowercase : ∀ r ∈ s.images, HashText.Lowercase r.imageHash
  once : ∀ r ∈ s.images, s.images.countP (·.imageHash = r.imageHash) = 1
  named : ∀ r ∈ s.images, ∃ tx ∈ s.transactions, tx.txId = r.txId ∧ tx.blockHeight = r.blockHeight

namespace Recorded

variable {s : Store} {entries : List Entry}

theorem lowercase (h : s.Recorded entries) {r : ImageRecord} (hr : r ∈ s.images) :
    HashText.Lowercase r.imageHash := by
  obtain ⟨e, -, hmem⟩ := h.exists_entry hr
  exact Entry.lowercase_of_mem_hashes (Entry.imageHash_mem_hashes hmem)

theorem countP_imageHash (h : s.Recorded entries) {r : ImageRecord} (hr : r ∈ s.images) :
    s.images.countP (·.imageHash = r.imageHash) = 1 := by
  have hone : (s.images.map (·.imageHash)).count r.imageHash = 1 :=
    List.count_eq_one_of_mem h.nodup_imageHash (List.mem_map_of_mem hr)
  rw [List.count_eq_countP, List.countP_map] at hone
  rw [← hone]
  exact List.countP_congr fun r' _ => by simp

theorem exists_transaction (h : s.Recorded entries) {r : ImageRecord} (hr : r ∈ s.images) :
    ∃ tx ∈ s.transactions, tx.txId = r.txId ∧ tx.blockHeight = r.blockHeight := by
  obtain ⟨e, he, hmem⟩ := h.exists_entry hr
  obtain ⟨hid, hheight⟩ := Entry.txId_of_mem_images hmem
  exact ⟨e.row, h.row_mem he, hid.symm, hheight.symm⟩

end Recorded

theorem Sound.chainIntegrity {s : Store} (h : s.Sound) : s.ChainIntegrity := by
  obtain ⟨⟨entries, hrec⟩, hlinked⟩ := h
  exact ⟨hlinked, fun r hr => hrec.lowercase hr, fun r hr => hrec.countP_imageHash hr,
    fun r hr => hrec.exists_transaction hr⟩

end Store

/-- The chain of a node that started with empty tables is whole, whatever the node was asked to do
and in whatever order the steps were taken. -/
theorem Node.chainIntegrity_of_reachable (start n : Node) (hempty : start.store = Store.empty)
    (h : start.ReachableFrom n) : n.store.ChainIntegrity :=
  (h.sound hempty).chainIntegrity

/-- The chain with one block for one hash is whole. -/
theorem Node.chainIntegrity_founded : founded.store.ChainIntegrity ∧
    founded.store.images.map (·.imageHash) = [String.ofList (List.replicate 64 'a')] :=
  ⟨chainIntegrity_of_reachable lone founded rfl reachableFrom_lone, by decide +kernel⟩

end ImageLedger
