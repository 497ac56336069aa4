import ImageLedger.Proofs.Node.ScreenedBatch

namespace ImageLedger

namespace Node

open Operation

/-- Screening comes to an end. Each candidate that does not pass on its own is rejected with a
reason; each other one that is not on the ledger, and does not repeat one that was accepted before,
is accepted and waits for its batch. -/
def Sifts (n : Node) (now : Number) (cs : List Submission) : Prop :=
  ∃ kept m, (screening now cs).perform n = some (.ok kept, m) ∧
    (∀ c ∈ cs, Rules.screenEntry now c.row.entry.received ≠ none →
      c ∉ kept ∧ Rejected m.store c) ∧
    ∀ before c after, cs = before ++ c :: after →
      Rules.screenEntry now c.row.entry.received = none →
      (∀ r ∈ n.store.images, r.imageHash ≠ c.row.hash) →
      (∀ d ∈ before, d ∈ kept → d.row.hash ≠ c.row.hash) → c ∈ kept ∧ m.store.Ready c.row

section Sifts

variable {n : Node} {now : Number} {cs : List Submission}

/-- What is dropped is rejected with its reason. -/
theorem rejected_of_dropped {dropped : List (Submission × Batching.DropReason)}
    (hids : (dropped.map (·.1.row.id)).Nodup) {d : Submission × Batching.DropReason}
    (hd : d ∈ dropped) (hrow : d.1.row ∈ n.store.submissions) :
    Rejected (n.store.rejectEach dropped) d.1 := by
  refine ⟨Store.settle dropped d.1.row, ?_, ?_⟩
  · rw [Store.submissions_rejectEach hids]
    exact List.mem_map_of_mem hrow
  · rw [Store.settle_of_mem hids hd rfl]
    exact ⟨rfl, rfl, d.2, rfl⟩

theorem sifts_of_wellFormed (hids : (cs.map (·.row.id)).Nodup)
    (hready : ∀ c ∈ cs, n.store.Ready c.row)
    (hwell : ∀ c ∈ cs, HashText.wellFormed c.row.entry.imageHash = true) : n.Sifts now cs := by
  have hperm := perm_screen (n.store.existingOf (cs.map (·.row.hash))) now [] cs
  obtain ⟨hkept, -⟩ := Batching.screen_kept (n.store.existingOf (cs.map (·.row.hash))) now [] cs
  obtain ⟨hdropped, -, hapart⟩ : ((n.screen now cs).2.map (·.1.row.id)).Nodup ∧
      ((n.screen now cs).1.map (·.row.id)).Nodup ∧
      ∀ a ∈ (n.screen now cs).2.map (·.1.row.id), ∀ b ∈ (n.screen now cs).1.map (·.row.id),
        a ≠ b := by
    have hmap := hperm.map (·.row.id)
    rw [List.map_append, List.map_map] at hmap
    exact List.nodup_append.mp (hmap.nodup_iff.mpr hids)
  refine ⟨_, _, perform_screening hwell, fun c hc hfails => ?_, ?_⟩
  · have hnot : c ∉ (n.screen now cs).1 := fun hmem => hfails (hkept c hmem).2.2
    refine ⟨hnot, ?_⟩
    rcases List.mem_append.mp (hperm.mem_iff.mpr hc) with hmem | hmem
    · obtain ⟨d, hd, rfl⟩ := List.mem_map.mp hmem
      exact rejected_of_dropped hdropped hd (hready d.1 hc).1
    · exact absurd hmem hnot
  · intro before c after hsplit hpasses hfresh hfirst
    have hchain : c.row.hash ∉ n.store.existingOf (cs.map (·.row.hash)) := by
      intro hmem
      obtain ⟨-, r, hr, hhash⟩ := Store.mem_existingOf.mp hmem
      exact hfresh r hr hhash
    have haccepted : c ∈ (n.screen now cs).1 := by
      rw [screen] at hfirst ⊢
      generalize n.store.existingOf (cs.map (·.row.hash)) = onChain at hchain hfirst ⊢
      rw [hsplit] at hfirst ⊢
      exact Batching.mem_screen hpasses hchain hfirst
    obtain ⟨hrow, hrest⟩ := hready c (hsplit ▸ List.mem_append_right _ List.mem_cons_self)
    refine ⟨haccepted, ?_, hrest⟩
    change c.row ∈ (n.store.rejectEach (n.screen now cs).2).submissions
    rw [Store.submissions_rejectEach hdropped]
    refine List.mem_map.mpr ⟨c.row, hrow, Store.settle_of_not_mem fun hmem => ?_⟩
    exact hapart _ hmem _ (List.mem_map_of_mem haccepted) rfl

/-- A malformed hash among the candidates is found before any of them is screened. -/
theorem exists_screening_fails {c : Submission} (hc : c ∈ cs)
    (hmalformed : HashText.wellFormed c.row.entry.imageHash = false) :
    ∃ d ∈ cs, HashText.wellFormed d.row.entry.imageHash = false ∧
      ∀ (m : Node) (now : Number), (screening now cs).perform m =
        some (.error (.store (.malformedHash d.row.entry.imageHash)), m) := by
  cases hlowered : Store.normalizeAll (cs.map (·.row.entry.imageHash)) with
  | ok lowered =>
    have hwell := (Store.normalizeAll_eq_ok.mp hlowered).1 _ (List.mem_map_of_mem hc)
    exact absurd hwell (Bool.eq_false_iff.mp hmalformed)
  | error e =>
    obtain ⟨hash, hmem, hbad, rfl⟩ := Store.exists_malformed_of_normalizeAll hlowered
    obtain ⟨d, hd, rfl⟩ := List.mem_map.mp hmem
    refine ⟨d, hd, hbad, fun m now => ?_⟩
    have hlook : (Operation.look fun n : Node =>
        (n.store.existing (cs.map (·.row.entry.imageHash))).mapError Fault.store).perform m =
        some (.error (.store (.malformedHash d.row.entry.imageHash)), m) := by
      rw [perform_look, Store.existing, hlowered]
      rfl
    exact perform_bind_error hlook

/-- A cycle fails like the screening of the candidates that it reads. -/
theorem perform_batchingCycle_of_screening_fails {e : Fault}
    (hread : n.store.findReady n.settings.batchSizeMax = .ok cs) (hne : cs ≠ [])
    (hfails : ∀ now, (screening now cs).perform n = some (.error e, n))
    (network : Consensus.Network) (time : Option Number) :
    (batchingCycle network time).perform n = some (.error e, n) := by
  have hlook : (Operation.look fun m : Node =>
      (m.store.findReady m.settings.batchSizeMax).mapError Fault.submission).perform n =
      some (.ok cs, n) := by
    rw [perform_look, hread]
    rfl
  have hassemble : ∀ now, (assemble now).perform n = some (.error e, n) := by
    intro now
    rw [assemble_eq, perform_bind hlook, if_neg (by simpa using hne)]
    exact perform_bind_error (hfails now)
  have hclock : (Operation.look fun m => .ok m.seconds : Operation Number).perform n =
      some (.ok n.seconds, n) := rfl
  rw [batchingCycle, perform_bind hclock]
  exact perform_bind_error (hassemble _)

/-- Candidates are screened one by one exactly when all their image hashes are well-formed. With a
malformed one among them screening fails before it has dealt with any, and so does every cycle that
reads them; the node stays as it is. -/
theorem sifts_iff_wellFormed (n : Node) (now : Number) (cs : List Submission)
    (hids : (cs.map (·.row.id)).Nodup) (hready : ∀ c ∈ cs, n.store.Ready c.row) :
    (n.Sifts now cs ↔ ∀ c ∈ cs, HashText.wellFormed c.row.entry.imageHash = true) ∧
    ∀ c ∈ cs, HashText.wellFormed c.row.entry.imageHash = false →
      ∃ d ∈ cs, HashText.wellFormed d.row.entry.imageHash = false ∧
        (screening now cs).perform n =
          some (.error (.store (.malformedHash d.row.entry.imageHash)), n) ∧
        (n.store.findReady n.settings.batchSizeMax = .ok cs →
          ∀ (network : Consensus.Network) (time : Option Number),
            (batchingCycle network time).perform n =
              some (.error (.store (.malformedHash d.row.entry.imageHash)), n)) := by
  refine ⟨⟨?_, sifts_of_wellFormed hids hready⟩, fun c hc hmalformed => ?_⟩
  · rintro ⟨kept, m, hruns, -⟩ c hc
    by_contra hmalformed
    obtain ⟨d, -, -, hfails⟩ := exists_screening_fails hc (Bool.eq_false_iff.mpr hmalformed)
    cases hruns.symm.trans (hfails n now)
  · obtain ⟨d, hd, hbad, hfails⟩ := exists_screening_fails hc hmalformed
    refine ⟨d, hd, hbad, hfails n now, fun hread network time => ?_⟩
    exact perform_batchingCycle_of_screening_fails hread (List.ne_nil_of_mem hc) (hfails n)
      network time

/-- A submission that waits for a batch, with a time that is still to come. -/
def earlyRow (id : Nat) (digit : Char) : SubmissionRow :=
  { waitingRow id digit with entry := { (waitingRow id digit).entry with timestamp := 3720 } }

/-- A submission that waits for a batch, with something else for an image hash. -/
def malformedRow (id : Nat) : SubmissionRow :=
  { waitingRow id 'a' with entry := { (waitingRow id 'a').entry with imageHash := "not-a-hash" } }

/-- A submission that was read from a row of the queue. -/
def queued (row : SubmissionRow) : Submission :=
  ⟨row, .certificate ⟨"certificate", "signature"⟩⟩

theorem findReady_queueing {rows : List SubmissionRow} {limit : Number} {most : Nat}
    (least : Number) (hlimit : Store.rowLimit limit = some most)
    (hread : ((rows.filter Store.isReady).take most).mapM SubmissionRow.read = .ok cs) :
    (queueing rows least limit).store.findReady (queueing rows least limit).settings.batchSizeMax =
      .ok cs := by
  rw [← hread, ← Store.limited_eq_take hlimit]
  rfl

/-- With well-formed hashes the one that is too early is rejected, and the other one accepted. -/
theorem sifts_early_row :
    (queueing [earlyRow 1 'a', waitingRow 2 'b'] 1 2).Sifts 120
      [queued (earlyRow 1 'a'), queued (waitingRow 2 'b')] ∧
    Rules.screenEntry 120 (earlyRow 1 'a').entry.received ≠ none ∧
    Rules.screenEntry 120 (waitingRow 2 'b').entry.received = none := by
  have hready : ∀ c ∈ [queued (earlyRow 1 'a'), queued (waitingRow 2 'b')],
      (queueing [earlyRow 1 'a', waitingRow 2 'b'] 1 2).store.Ready c.row := by
    intro c hc
    rcases List.mem_pair.mp hc with rfl | rfl
    · exact ⟨List.mem_cons_self, rfl, rfl⟩
    · exact ⟨List.mem_cons_of_mem _ List.mem_cons_self, rfl, rfl⟩
  have hsifts := (sifts_iff_wellFormed (queueing [earlyRow 1 'a', waitingRow 2 'b'] 1 2) 120
    [queued (earlyRow 1 'a'), queued (waitingRow 2 'b')] (by decide) hready).1
  exact ⟨hsifts.mpr (by decide), by decide +kernel, by decide +kernel⟩

/-- Of two submissions that wait the first has no image hash: the cycle fails, the first is not
rejected, and the second, which passes, does not come into a block. -/
theorem malformed_hash_stops_batching :
    let n := queueing [malformedRow 1, waitingRow 2 'b'] 1 2
    let cs := [queued (malformedRow 1), queued (waitingRow 2 'b')]
    n.store.findReady n.settings.batchSizeMax = .ok cs ∧ (cs.map (·.row.id)).Nodup ∧
      (∀ c ∈ cs, n.store.Ready c.row) ∧
      Rules.screenEntry 120 (malformedRow 1).entry.received = some (.malformedHash "not-a-hash") ∧
      Rules.screenEntry 120 (waitingRow 2 'b').entry.received = none ∧
      (batchingCycle .silent (some 120)).perform n =
        some (.error (.store (.malformedHash "not-a-hash")), n) ∧
      ¬ n.Sifts 120 cs := by
  intro n cs
  have hread : n.store.findReady n.settings.batchSizeMax = .ok cs := by
    exact findReady_queueing 1 (Store.rowLimit_ofNat (by decide)) rfl
  have hready : ∀ c ∈ cs, n.store.Ready c.row := by
    intro c hc
    rcases List.mem_pair.mp hc with rfl | rfl
    · exact ⟨List.mem_cons_self, rfl, rfl⟩
    · exact ⟨List.mem_cons_of_mem _ List.mem_cons_self, rfl, rfl⟩
  have hfirst : queued (malformedRow 1) ∈ cs := List.mem_cons_self
  obtain ⟨d, hd, hbad, hfails⟩ := exists_screening_fails hfirst (by decide)
  obtain rfl : d = queued (malformedRow 1) := by
    rcases List.mem_pair.mp hd with rfl | rfl
    · rfl
    · exact absurd hbad (by decide)
  refine ⟨hread, by decide, hready, by decide +kernel, by decide +kernel,
    perform_batchingCycle_of_screening_fails hread (List.ne_nil_of_mem hfirst) (hfails n) _ _, ?_⟩
  rintro ⟨kept, m, hruns, -⟩
  cases hruns.symm.trans (hfails n 120)

end Sifts

end Node

end ImageLedger
