import ImageLedger.Proofs.Node.Perform
import ImageLedger.Proofs.Node.Service
import ImageLedger.Proofs.Node.StagedOnce

namespace ImageLedger

/-- All that a body says about a submission. -/
structure Intake.Content where
  entry : BatchEntry
  submitterId : String
  authorityId : String
  credential : Credential

def Intake.Content.draft (said : Intake.Content) : Draft :=
  Intake.draft said.entry said.submitterId said.authorityId said.credential

/-- A request with a well-formed body, and what the body says. The credentials are those of the
kind that the request is for. -/
inductive IntakeRequest.Says : IntakeRequest → Intake.Content → Prop
  | token {fields token : Fields.Members} {entry : BatchEntry}
      {submitterId authorityId : String} {t : CameraToken} :
      fields.lookup "cameraToken" = some (.object token) →
      Intake.SaysEntry fields entry submitterId authorityId → Intake.SaysToken token t →
      Says ⟨.cameraToken, .object fields⟩ ⟨entry, submitterId, authorityId, .cameraToken t⟩
  | certificate {fields bundle : Fields.Members} {entry : BatchEntry}
      {submitterId authorityId : String} {b : CertificateBundle} :
      fields.lookup "certificateBundle" = some (.object bundle) →
      Intake.SaysEntry fields entry submitterId authorityId → Intake.SaysBundle bundle b →
      Says ⟨.certificate, .object fields⟩ ⟨entry, submitterId, authorityId, .certificate b⟩

/-- The hash is not on the ledger, and no submission of it is left that is not rejected. -/
structure Store.Lacks (s : Store) (hash : String) : Prop where
  unlisted : ∀ r ∈ s.images, HashText.lower r.imageHash ≠ hash
  unstaged : s.live hash = 0

/-- A row for what was said. Nothing has been done about it, and it is due at once. -/
structure SubmissionRow.Holds (row : SubmissionRow) (said : Intake.Content) (now : Number) :
    Prop where
  kind : row.kind = said.credential.kind
  entry : row.entry = said.entry
  submitterId : row.submitterId = said.submitterId
  authorityId : row.authorityId = said.authorityId
  credentials : row.credentials = said.credential.columns
  pending : row.status = .pending
  untried : row.retryCount = 0
  unbatched : row.batched = false
  due : ∀ maxAttempts, Number.lt 0 maxAttempts = true → Store.isDue maxAttempts now row = true

namespace IntakeRequest

variable {r : IntakeRequest} {said : Intake.Content}

theorem read_eq_ok {d : Draft} : r.read = .ok d ↔ ∃ said, r.Says said ∧ d = said.draft := by
  obtain ⟨kind, body⟩ := r
  constructor
  · intro h
    cases kind with
    | cameraToken =>
      obtain ⟨fields, token, entry, submitter, authority, t, rfl, htoken, hentry, ht, rfl⟩ :=
        Intake.readToken_eq_ok.mp h
      exact ⟨_, .token htoken hentry ht, rfl⟩
    | certificate =>
      obtain ⟨fields, bundle, entry, submitter, authority, b, rfl, hbundle, hentry, hb, rfl⟩ :=
        Intake.readCertificate_eq_ok.mp h
      exact ⟨_, .certificate hbundle hentry hb, rfl⟩
  · rintro ⟨said, hsays, rfl⟩
    cases hsays with
    | token htoken hentry ht =>
      exact Intake.readToken_eq_ok.mpr ⟨_, _, _, _, _, _, rfl, htoken, hentry, ht, rfl⟩
    | certificate hbundle hentry hb =>
      exact Intake.readCertificate_eq_ok.mpr ⟨_, _, _, _, _, _, rfl, hbundle, hentry, hb, rfl⟩

/-- A body says one thing about the image. -/
theorem Says.entry_eq {other : Intake.Content} (h : r.Says said) (hother : r.Says other) :
    said.entry = other.entry := by
  have hread := read_eq_ok.mpr ⟨said, h, rfl⟩
  rw [read_eq_ok.mpr ⟨other, hother, rfl⟩] at hread
  exact congrArg Draft.entry (Except.ok.inj hread).symm

theorem Says.imageHash (h : r.Says said) :
    HashText.normalize? said.entry.imageHash = some said.entry.imageHash := by
  cases h with
  | token _ hentry _ => exact hentry.imageHash.normalize?
  | certificate _ hentry _ => exact hentry.imageHash.normalize?

end IntakeRequest

namespace Store

variable {s : Store}

theorem image?_eq_none {hash : String} (hnormal : HashText.normalize? hash = some hash) :
    (s.image? hash).isSome = false ↔ ∀ r ∈ s.images, r.imageHash ≠ hash := by
  simp [image?, hnormal]

/-- What is said is staged as a row that holds it and reads back with its credentials. -/
theorem exists_holds (s : Store) (receiptId : String) {now : Number} (hnow : now ≠ .nan)
    (said : Intake.Content) : ∃ row : SubmissionRow, s.stage receiptId now said.draft =
        { s with submissions := s.submissions ++ [row] } ∧
      row.receiptId = receiptId ∧ row.read = .ok ⟨row, said.credential⟩ ∧
      row.Holds said now := by
  refine ⟨_, rfl, rfl, ?_, rfl, rfl, rfl, rfl, rfl, rfl, rfl, rfl, ?_⟩
  · obtain ⟨entry, submitterId, authorityId, credential⟩ := said
    cases credential <;> rfl
  · intro maxAttempts hattempts
    have hzero : Number.ofNat 0 = 0 := rfl
    simpa [isDue, Number.le_self hnow, hzero] using hattempts

theorem findReceipt_append {row : SubmissionRow}
    (hfresh : ∀ old ∈ s.submissions, old.receiptId ≠ row.receiptId) :
    ({ s with submissions := s.submissions ++ [row] } : Store).findReceipt row.receiptId =
      row.read.map some := by
  have hfind : (s.submissions ++ [row]).find? (·.receiptId = row.receiptId) = some row := by
    rw [List.find?_append, List.find?_eq_none.mpr (by simpa using hfresh)]
    simp
  simp only [findReceipt, hfind]

end Store

namespace Node

variable {n : Node}

/-- The two checks of a request find out whether the hash is lacking. -/
theorem WellKept.lacks_iff (h : n.WellKept) {hash : String}
    (hnormal : HashText.normalize? hash = some hash) : n.store.Lacks hash ↔
      (n.store.image? hash).isSome = false ∧ n.store.isStaged hash = false := by
  have hlive : n.store.isStaged hash = false ↔ n.store.live hash = 0 := by
    rw [← Bool.not_eq_true, Store.isStaged_iff h.submissions, Nat.pos_iff_ne_zero, not_not]
  rw [Store.image?_eq_none hnormal, hlive]
  constructor
  · intro hlacks
    exact ⟨fun r hr => h.images r hr ▸ hlacks.unlisted r hr, hlacks.unstaged⟩
  · rintro ⟨hlisted, hunstaged⟩
    exact ⟨fun r hr => (h.images r hr).symm ▸ hlisted r hr, hunstaged⟩

/-- A draft is staged when neither check finds its hash. -/
theorem perform_intake (n : Node) (d : Draft) : (intake d).perform n =
    if (n.store.image? d.entry.imageHash).isSome then some (.error .alreadyOnChain, n)
    else if n.store.isStaged d.entry.imageHash then some (.error .alreadyStaged, n)
    else (stage d >>= fun s => pure ⟨s.row.receiptId⟩ : Operation Receipt).perform n := by
  have hlisted : (Operation.look fun m : Node =>
      .ok (m.store.image? d.entry.imageHash).isSome).perform n =
        some (.ok (n.store.image? d.entry.imageHash).isSome, n) := rfl
  have hstaged : (Operation.look fun m : Node =>
      .ok (m.store.isStaged d.entry.imageHash)).perform n =
        some (.ok (n.store.isStaged d.entry.imageHash), n) := rfl
  rw [intake, Operation.perform_bind hlisted]
  split_ifs with honChain hlive
  · rfl
  · rw [Operation.perform_bind hstaged, if_pos hlive]
    rfl
  · rw [Operation.perform_bind hstaged, if_neg hlive]

/-- A draft that is staged is read back as it is. -/
theorem perform_stage_eq_ok {d : Draft} {s : Submission}
    (h : (n.store.stage (receiptId (n.receipts + 1)) n.seconds d).findReceipt
      (receiptId (n.receipts + 1)) = .ok (some s)) : (stage d).perform n =
        some (.ok s, { n with
          receipts := n.receipts + 1
          store := n.store.stage (receiptId (n.receipts + 1)) n.seconds d }) := by
  change some (_, _) = _
  dsimp only
  rw [h]

/-- What is said of a lacking hash is staged under a receipt that was not given out before. -/
theorem WellKept.perform_intake_eq_ok (h : n.WellKept) {said : Intake.Content}
    (hnormal : HashText.normalize? said.entry.imageHash = some said.entry.imageHash)
    (hlacks : n.store.Lacks said.entry.imageHash) :
    ∃ row m, (intake said.draft).perform n = some (.ok ⟨row.receiptId⟩, m) ∧
      m.store = { n.store with submissions := n.store.submissions ++ [row] } ∧
      m.store.findReceipt row.receiptId = .ok (some ⟨row, said.credential⟩) ∧
      row.Holds said m.seconds := by
  have htime : n.seconds ≠ .nan := Number.ofRat_ne_nan _
  obtain ⟨row, hstage, hid, hread, hholds⟩ :=
    n.store.exists_holds (receiptId (n.receipts + 1)) htime said
  have hfind : (n.store.stage (receiptId (n.receipts + 1)) n.seconds said.draft).findReceipt
      row.receiptId = .ok (some ⟨row, said.credential⟩) := by
    rw [hstage, Store.findReceipt_append (hid ▸ h.fresh), hread]
    rfl
  obtain ⟨honChain, hlive⟩ := (h.lacks_iff hnormal).mp hlacks
  refine ⟨row, { n with
    receipts := n.receipts + 1
    store := n.store.stage (receiptId (n.receipts + 1)) n.seconds said.draft }, ?_, hstage, hfind,
    hholds⟩
  have hrun := perform_intake n said.draft
  rw [if_neg (Bool.not_eq_true _ ▸ honChain), if_neg (Bool.not_eq_true _ ▸ hlive)] at hrun
  rw [hrun, Operation.perform_bind (perform_stage_eq_ok (hid ▸ hfind))]
  rfl

/-- What is said of any other hash is refused. -/
theorem WellKept.perform_intake_eq_error (h : n.WellKept) {said : Intake.Content}
    (hnormal : HashText.normalize? said.entry.imageHash = some said.entry.imageHash)
    (hlacks : ¬ n.store.Lacks said.entry.imageHash) :
    (intake said.draft).perform n = some (.error .alreadyOnChain, n) ∨
      (intake said.draft).perform n = some (.error .alreadyStaged, n) := by
  rw [h.lacks_iff hnormal, Bool.eq_false_iff, Bool.eq_false_iff] at hlacks
  have hrun := perform_intake n said.draft
  split_ifs at hrun with honChain hlive
  · exact .inl hrun
  · exact .inr hrun
  · exact absurd ⟨honChain, hlive⟩ hlacks

/-- A request that can be read is answered with its receipt, or fails as its intake does. -/
theorem run_activity {s : Http.Surroundings} {r : IntakeRequest} {d : Draft} {m : Node}
    {result : Except Fault Receipt} (hread : r.read = .ok d)
    (hintake : (intake d).perform n = some (result, m)) : (r.activity s).run n =
      some (result.map fun receipt => .ofJson 202 (Http.receiptJson receipt), m) := by
  have hreceipt : (Http.ofField r.read >>= intake).perform n = some (result, m) := by
    rw [hread]
    exact hintake
  rw [IntakePhase.activity_eq]
  cases result with
  | error e => exact Operation.perform_bind_error hreceipt
  | ok receipt => exact Operation.perform_bind hreceipt

/-- A request that is taken by itself is accepted if its body is well-formed and its hash is lacking
on the ledger and among the submissions. It adds one row then, which is found by the receipt that is
answered and reads back as the body said it. Otherwise it is refused and changes nothing. -/
theorem intake_round_trip {start n : Node} (hempty : start.store = .empty)
    (hserves : ServesFrom start n) (s : Http.Surroundings) (r : IntakeRequest)
    (production : Bool) :
    ∃ result m, (r.activity s).run n = some (result, m) ∧
      ((∃ said row, r.Says said ∧ n.store.Lacks said.entry.imageHash ∧
          Http.respond production result = .ofJson 202 (Http.receiptJson ⟨row.receiptId⟩) ∧
          m.store = { n.store with submissions := n.store.submissions ++ [row] } ∧
          m.store.findReceipt row.receiptId = .ok (some ⟨row, said.credential⟩) ∧
          row.Holds said m.seconds) ∨
        ((¬ ∃ said, r.Says said ∧ n.store.Lacks said.entry.imageHash) ∧ m = n ∧
          (Http.respond production result).status ∈ [400, 409])) := by
  have hkept := hserves.wellKept hempty
  cases hread : r.read with
  | error e =>
    have hrun : (r.activity s).run n = some (.error (.field e), n) := by
      rw [IntakePhase.activity_eq, IntakePhase.rest, IntakePhase.receipt, hread]
      rfl
    refine ⟨_, n, hrun, .inr ⟨?_, rfl, List.mem_cons_self⟩⟩
    rintro ⟨said, hsays, -⟩
    cases hread.symm.trans (IntakeRequest.read_eq_ok.mpr ⟨said, hsays, rfl⟩)
  | ok d =>
    obtain ⟨said, hsays, rfl⟩ := IntakeRequest.read_eq_ok.mp hread
    have hnormal := hsays.imageHash
    by_cases hlacks : n.store.Lacks said.entry.imageHash
    · obtain ⟨row, m, hintake, hstore, hfind, hholds⟩ :=
        hkept.perform_intake_eq_ok hnormal hlacks
      exact ⟨_, m, run_activity hread hintake,
        .inl ⟨said, row, hsays, hlacks, rfl, hstore, hfind, hholds⟩⟩
    · have hrefused : ¬ ∃ said, r.Says said ∧ n.store.Lacks said.entry.imageHash := by
        rintro ⟨said', hsays', hlacks'⟩
        exact hlacks (hsays'.entry_eq hsays ▸ hlacks')
      have hconflict : 409 ∈ [400, 409] := by decide
      rcases hkept.perform_intake_eq_error hnormal hlacks with hintake | hintake
      · exact ⟨_, n, run_activity hread hintake, .inr ⟨hrefused, rfl, hconflict⟩⟩
      · exact ⟨_, n, run_activity hread hintake, .inr ⟨hrefused, rfl, hconflict⟩⟩

/-- The first request that a node takes. -/
theorem intake_round_trip_first : ∃ result m,
    (Pipeline.racedToken.activity ⟨0, .silent⟩).run lone = some (result, m) ∧
      (Http.respond true result).status = 202 ∧ m.store.submissions.length = 1 := by
  have hserves : ServesFrom lone lone := ⟨[], .start⟩
  obtain ⟨result, m, hrun, htaken | ⟨hrefused, -, -⟩⟩ :=
    intake_round_trip rfl hserves ⟨0, .silent⟩ Pipeline.racedToken true
  · obtain ⟨said, row, -, -, hanswer, hstore, -, -⟩ := htaken
    refine ⟨result, m, hrun, ?_, ?_⟩
    · rw [hanswer]
      rfl
    · rw [hstore]
      rfl
  · obtain ⟨said, hsays, hdraft⟩ := IntakeRequest.read_eq_ok.mp Pipeline.read_racedToken
    have hlacks : lone.store.Lacks said.entry.imageHash := ⟨List.forall_mem_nil _, rfl⟩
    exact absurd ⟨said, hsays, hlacks⟩ hrefused

end Node

end ImageLedger
