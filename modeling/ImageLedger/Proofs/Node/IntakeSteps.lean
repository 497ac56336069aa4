import ImageLedger.Http.Api
import ImageLedger.Proofs.Intake.Fields
import ImageLedger.Proofs.Node.Attempts
import ImageLedger.Proofs.Node.DirectSubmission
import ImageLedger.Proofs.Node.Pipeline
import ImageLedger.Proofs.Store.Staging

namespace ImageLedger

namespace Intake

/-- What intake reads has its hash in the small form, and the credentials of its kind. -/
structure Proper (d : Draft) : Prop where
  lowercase : HashText.lower d.entry.imageHash = d.entry.imageHash
  credential : ∃ c : Credential, d.kind = c.kind ∧ d.credentials = c.columns

theorem proper_of_readToken {body : Json} {d : Draft} (h : readToken body = .ok d) : Proper d := by
  obtain ⟨_, _, _, _, _, t, -, -, hentry, -, rfl⟩ := readToken_eq_ok.mp h
  exact ⟨hentry.imageHash.lowercase, .cameraToken t, rfl, rfl⟩

theorem proper_of_readCertificate {body : Json} {d : Draft} (h : readCertificate body = .ok d) :
    Proper d := by
  obtain ⟨_, _, _, _, _, b, -, -, hentry, -, rfl⟩ := readCertificate_eq_ok.mp h
  exact ⟨hentry.imageHash.lowercase, .certificate b, rfl, rfl⟩

end Intake

/-- A request with the body of a camera token or of a device certificate. -/
structure IntakeRequest where
  kind : SubmissionKind
  body : Json

namespace IntakeRequest

def read (r : IntakeRequest) : Except FieldError Draft :=
  match r.kind with
  | .cameraToken => Intake.readToken r.body
  | .certificate => Intake.readCertificate r.body

def route (r : IntakeRequest) : Http.Route :=
  match r.kind with
  | .cameraToken => .createSubmission
  | .certificate => .createCertificateSubmission

/-- The work on a request. -/
def activity (s : Http.Surroundings) (r : IntakeRequest) :
    Activity Node (Except Fault Http.Response) :=
  (Http.answer s r.body r.route).run

/-- A request that can be read, and is for the hash. -/
def AsksFor (r : IntakeRequest) (hash : String) : Prop :=
  ∃ d, r.read = .ok d ∧ HashText.lower d.entry.imageHash = hash

theorem proper_of_read {r : IntakeRequest} {d : Draft} (h : r.read = .ok d) : Intake.Proper d := by
  obtain ⟨kind, body⟩ := r
  cases kind with
  | cameraToken => exact Intake.proper_of_readToken h
  | certificate => exact Intake.proper_of_readCertificate h

end IntakeRequest

/-- The workers leave credentials alone. -/
theorem SubmissionRow.Reworked.isComplete {row after : SubmissionRow} (h : row.Reworked after) :
    after.isComplete = row.isComplete := by
  rw [SubmissionRow.isComplete, h.kind, h.credentials]
  rfl

namespace Store

/-- Tables that intake has filled: whatever is on the ledger was staged. -/
structure Taken (s : Store) : Prop where
  lowercase : ∀ row ∈ s.submissions,
    HashText.lower row.entry.imageHash = row.entry.imageHash
  complete : ∀ row ∈ s.submissions, row.isComplete = true
  images : ∀ r ∈ s.images, ∃ row ∈ s.submissions, row.hash = r.imageHash

theorem taken_empty : empty.Taken := by
  constructor <;> simp [empty]

theorem image?_empty (text : String) : empty.image? text = none := by
  unfold image?
  split <;> rfl

theorem Taken.rework {s t : Store} (hs : s.Taken) (h : s.Reworks t) : t.Taken := by
  obtain ⟨f, hf, hrows⟩ := h.rows
  refine ⟨?_, ?_, fun r hr => ?_⟩
  · rw [hf]
    refine List.forall_mem_map.mpr fun row hrow => ?_
    rw [(hrows row hrow).entry]
    exact hs.lowercase row hrow
  · rw [hf]
    refine List.forall_mem_map.mpr fun row hrow => ?_
    rw [(hrows row hrow).isComplete]
    exact hs.complete row hrow
  · obtain ⟨row, hrow, hhash⟩ : ∃ row ∈ s.submissions, row.hash = r.imageHash := by
      rcases h.images r hr with hr | hnew
      · exact hs.images r hr
      · exact hnew
    rw [hf]
    exact ⟨f row, List.mem_map_of_mem hrow, (hrows row hrow).hash.trans hhash⟩

theorem Taken.stage {s : Store} (hs : s.Taken) {d : Draft} (hd : Intake.Proper d)
    (receiptId : String) (now : Number) : (s.stage receiptId now d).Taken := by
  refine ⟨?_, ?_, fun r hr => ?_⟩
  · exact List.forall_mem_append.mpr ⟨hs.lowercase, List.forall_mem_singleton.mpr hd.lowercase⟩
  · refine List.forall_mem_append.mpr ⟨hs.complete, List.forall_mem_singleton.mpr ?_⟩
    obtain ⟨c, hkind, hcolumns⟩ := hd.credential
    rw [SubmissionRow.isComplete, hkind, hcolumns]
    cases c <;> rfl
  · obtain ⟨row, hrow, hhash⟩ := hs.images r hr
    exact ⟨row, List.mem_append_left _ hrow, hhash⟩

/-- A hash that is on the ledger was staged. -/
theorem Taken.submitted_pos_of_image? {s : Store} (hs : s.Taken) {text : String}
    (h : (s.image? text).isSome = true) : 0 < s.submitted (HashText.lower text) := by
  obtain ⟨r, hr, hnorm⟩ := isSome_image?.mp h
  obtain ⟨row, hrow, hhash⟩ := hs.images r hr
  refine submitted_pos.mpr ⟨row, hrow, ?_⟩
  rw [hhash, (HashText.normalize?_eq_some.mp hnorm).2]

/-- A staged submission is found again by its receipt. -/
theorem Taken.exists_findReceipt {s : Store} (hs : s.Taken) {row : SubmissionRow}
    (hrow : row ∈ s.submissions) : ∃ c, s.findReceipt row.receiptId = .ok (some c) := by
  obtain ⟨found, hfound⟩ := Option.isSome_iff_exists.mp
    (List.find?_isSome (p := (·.receiptId = row.receiptId)).mpr ⟨row, hrow, by simp⟩)
  obtain ⟨c, hc⟩ := SubmissionRow.exists_read_iff.mpr
    (hs.complete found (List.mem_of_find?_eq_some hfound))
  refine ⟨c, ?_⟩
  rw [findReceipt, hfound]
  simp only [hc]
  rfl

/-- The check for staged submissions misses none that is live when all are spelt small. -/
theorem isStaged_iff {s : Store} (hlower : ∀ row ∈ s.submissions,
    HashText.lower row.entry.imageHash = row.entry.imageHash) (hash : String) :
    s.isStaged hash = true ↔ 0 < s.live hash := by
  rw [live, List.countP_pos_iff, isStaged, List.any_eq_true]
  refine exists_congr fun row => and_congr_right fun hrow => ?_
  rw [SubmissionRow.hash, hlower row hrow]

end Store

/-- What a request has come to. -/
inductive IntakePhase where
  | unread (r : IntakeRequest)
  | unreadable (e : FieldError)
  | arrived (d : Draft)
  /-- Refused because the hash is on the ledger. -/
  | onLedger (d : Draft)
  | unlisted (d : Draft)
  /-- Refused because the hash is staged. -/
  | repeated (d : Draft)
  /-- The hash was found nowhere, and will be staged. -/
  | cleared (d : Draft)
  | staged (d : Draft) (receiptId : String)
  | accepted (d : Draft) (receipt : Receipt)
  | lost (d : Draft) (fault : Fault)

namespace IntakePhase

open Node

/-- What is left to do for the receipt. -/
def receipt : IntakePhase → Operation Receipt
  | unread r => Http.ofField r.read >>= intake
  | unreadable e => throw (.field e)
  | arrived d => intake d
  | onLedger _ => throw .alreadyOnChain
  | unlisted d => do
    let staged ← .look fun n => .ok (n.store.isStaged d.entry.imageHash)
    if staged then throw .alreadyStaged
    let s ← stage d
    return ⟨s.row.receiptId⟩
  | repeated _ => throw .alreadyStaged
  | cleared d => do
    let s ← stage d
    return ⟨s.row.receiptId⟩
  | staged _ receiptId => do
    let s ← .look fun n =>
      match n.store.findReceipt receiptId with
      | .ok (some s) => .ok s
      | .ok none => .error (.notFound "Submission")
      | .error e => .error (.submission e)
    return ⟨s.row.receiptId⟩
  | accepted _ receipt => pure receipt
  | lost _ fault => throw fault

/-- What is left of the work on the request. -/
def rest (x : IntakePhase) : Activity Node (Except Fault Http.Response) :=
  (Http.answering 202 Http.receiptJson x.receipt).run

/-- One step of a request, with the node that it finds and the one that it leaves. -/
inductive Moves : IntakePhase → Node → IntakePhase → Node → Prop
  | read {r : IntakeRequest} {d : Draft} {n : Node} : r.read = .ok d →
      Moves (unread r) n (arrived d) n
  | unreadable {r : IntakeRequest} {e : FieldError} {n : Node} : r.read = .error e →
      Moves (unread r) n (unreadable e) n
  | onLedger {d : Draft} {n : Node} : (n.store.image? d.entry.imageHash).isSome = true →
      Moves (arrived d) n (onLedger d) n
  | unlisted {d : Draft} {n : Node} : (n.store.image? d.entry.imageHash).isSome = false →
      Moves (arrived d) n (unlisted d) n
  | repeated {d : Draft} {n : Node} : n.store.isStaged d.entry.imageHash = true →
      Moves (unlisted d) n (repeated d) n
  | cleared {d : Draft} {n : Node} : n.store.isStaged d.entry.imageHash = false →
      Moves (unlisted d) n (cleared d) n
  | staged {d : Draft} {n : Node} : Moves (cleared d) n (staged d (receiptId (n.receipts + 1)))
      { n with
        receipts := n.receipts + 1
        store := n.store.stage (receiptId (n.receipts + 1)) n.seconds d }
  | accepted {d : Draft} {receiptId : String} {s : Submission} {n : Node} :
      n.store.findReceipt receiptId = .ok (some s) →
      Moves (staged d receiptId) n (accepted d ⟨s.row.receiptId⟩) n
  | lost {d : Draft} {receiptId : String} {fault : Fault} {n : Node} :
      (∀ s, n.store.findReceipt receiptId ≠ .ok (some s)) →
      Moves (staged d receiptId) n (lost d fault) n

/-- Whether the phase is one of a request. -/
def Fits (r : IntakeRequest) : IntakePhase → Prop
  | unread r' => r' = r
  | unreadable e => r.read = .error e
  | arrived d | onLedger d | unlisted d | repeated d | cleared d => r.read = .ok d
  | staged d _ | accepted d _ | lost d _ => r.read = .ok d

/-- Whether a submission of the hash was staged. -/
def hasStaged (hash : String) : IntakePhase → Bool
  | staged d _ | accepted d _ | lost d _ => HashText.lower d.entry.imageHash = hash
  | _ => false

/-- What the tables say about the hash when a request has come this far. -/
def Evident (hash : String) (s : Store) : IntakePhase → Prop
  | cleared d => HashText.lower d.entry.imageHash = hash → s.live hash = 0
  | onLedger d | repeated d => HashText.lower d.entry.imageHash = hash → 0 < s.submitted hash
  | staged _ receiptId => ∃ row ∈ s.submissions, row.receiptId = receiptId
  | lost _ _ => False
  | _ => True

theorem activity_eq (s : Http.Surroundings) (r : IntakeRequest) :
    r.activity s = (unread r).rest := by
  obtain ⟨kind, body⟩ := r
  cases kind <;> rfl

/-- Every step of a request is one of these. -/
theorem exists_moves {x : IntakePhase} {n m : Node}
    {b : Activity Node (Except Fault Http.Response)} (h : x.rest.advance n = some (b, m)) :
    ∃ y : IntakePhase, b = y.rest ∧ x.Moves n y m := by
  cases x with
  | unread r =>
    obtain ⟨rfl, rfl⟩ := Prod.mk.inj (Option.some.inj h)
    cases hread : r.read with
    | error e => exact ⟨unreadable e, rfl, .unreadable hread⟩
    | ok d => exact ⟨arrived d, rfl, .read hread⟩
  | arrived d =>
    obtain ⟨rfl, rfl⟩ := Prod.mk.inj (Option.some.inj h)
    dsimp only
    cases hlisted : (n.store.image? d.entry.imageHash).isSome with
    | true => exact ⟨onLedger d, rfl, .onLedger hlisted⟩
    | false => exact ⟨unlisted d, rfl, .unlisted hlisted⟩
  | unlisted d =>
    obtain ⟨rfl, rfl⟩ := Prod.mk.inj (Option.some.inj h)
    dsimp only
    cases hstaged : n.store.isStaged d.entry.imageHash with
    | true => exact ⟨repeated d, rfl, .repeated hstaged⟩
    | false => exact ⟨cleared d, rfl, .cleared hstaged⟩
  | cleared d =>
    obtain ⟨rfl, rfl⟩ := Prod.mk.inj (Option.some.inj h)
    exact ⟨_, rfl, .staged⟩
  | staged d receiptId =>
    obtain ⟨rfl, rfl⟩ := Prod.mk.inj (Option.some.inj h)
    dsimp only
    cases hfind : n.store.findReceipt receiptId with
    | error e => exact ⟨lost d (.submission e), rfl, .lost fun s => by simp [hfind]⟩
    | ok found =>
      cases found with
      | none => exact ⟨lost d (.notFound "Submission"), rfl, .lost fun s => by simp [hfind]⟩
      | some s => exact ⟨_, rfl, .accepted hfind⟩
  | unreadable e => cases h
  | onLedger d => cases h
  | repeated d => cases h
  | accepted d receipt => cases h
  | lost d fault => cases h

/-- What a request does to the tables is left to senders. -/
theorem within_activity (s : Http.Surroundings) (r : IntakeRequest) :
    (r.activity s).Within fun n m => n.store.FreeMove m.store := by
  rw [activity_eq]
  refine Operation.Within.bind (Operation.Within.bind ?_ fun d => ?_) fun receipt => .pure _
  · exact .look Store.FreeMove.idle _
  · exact (intake_changes trivial).within Pipeline.freeMove_of_change

/-- The steps that do not lose a submission can be taken. -/
theorem Moves.advance {x y : IntakePhase} {n m : Node} (h : x.Moves n y m)
    (hlost : ∀ d fault, y ≠ .lost d fault) : x.rest.advance n = some (y.rest, m) := by
  cases h with
  | @read r d n hread =>
    change some (Activity.andThen _ _, n) = _
    dsimp only
    rw [hread]
    rfl
  | @unreadable r e n hread =>
    change some (Activity.andThen _ _, n) = _
    dsimp only
    rw [hread]
    rfl
  | @onLedger d n hlisted =>
    change some (Activity.andThen _ _, n) = _
    dsimp only
    rw [hlisted]
    rfl
  | @unlisted d n hlisted =>
    change some (Activity.andThen _ _, n) = _
    dsimp only
    rw [hlisted]
    rfl
  | @repeated d n hstaged =>
    change some (Activity.andThen _ _, n) = _
    dsimp only
    rw [hstaged]
    rfl
  | @cleared d n hstaged =>
    change some (Activity.andThen _ _, n) = _
    dsimp only
    rw [hstaged]
    rfl
  | staged => rfl
  | @accepted d receiptId s n hfind =>
    change some (Activity.andThen _ _, n) = _
    dsimp only
    rw [hfind]
    rfl
  | lost => exact absurd rfl (hlost _ _)

theorem Moves.fits {x y : IntakePhase} {n m : Node} (h : x.Moves n y m) {r : IntakeRequest}
    (hx : x.Fits r) : y.Fits r := by
  cases h with
  | read hread => exact hx ▸ hread
  | unreadable hread => exact hx ▸ hread
  | onLedger | unlisted | repeated | cleared | staged | accepted | lost => exact hx

/-- What the tables say stays true when the workers go on. -/
theorem Evident.rework {x : IntakePhase} {hash : String} {s t : Store} (hx : x.Evident hash s)
    (h : s.Reworks t) : x.Evident hash t := by
  cases x with
  | cleared d => exact fun hd => Nat.le_zero.mp (hx hd ▸ h.live_le hash)
  | onLedger d => exact fun hd => h.submitted hash ▸ hx hd
  | repeated d => exact fun hd => h.submitted hash ▸ hx hd
  | staged d receiptId =>
    obtain ⟨f, hf, hrows⟩ := h.rows
    obtain ⟨row, hrow, hid⟩ := hx
    refine ⟨f row, ?_, (hrows row hrow).receiptId.trans hid⟩
    rw [hf]
    exact List.mem_map_of_mem hrow
  | unread | unreadable | arrived | unlisted | accepted => trivial
  | lost => exact hx

/-- It stays true when another draft is staged, unless that makes a request stage a hash twice. -/
theorem Evident.stage {x : IntakePhase} {hash : String} {s : Store} (hx : x.Evident hash s)
    {d : Draft} (hapart : HashText.lower d.entry.imageHash = hash → ∀ d', x = cleared d' →
      HashText.lower d'.entry.imageHash ≠ hash) (receiptId : String) (now : Number) :
    x.Evident hash (s.stage receiptId now d) := by
  cases x with
  | cleared d' =>
    intro hd'
    rw [Store.live_stage, if_neg fun hd => hapart hd d' rfl hd', hx hd']
  | onLedger d' => exact fun hd => by rw [Store.submitted_stage]; exact Nat.lt_add_right _ (hx hd)
  | repeated d' => exact fun hd => by rw [Store.submitted_stage]; exact Nat.lt_add_right _ (hx hd)
  | staged d' id =>
    obtain ⟨row, hrow, hid⟩ := hx
    exact ⟨row, List.mem_append_left _ hrow, hid⟩
  | unread | unreadable | arrived | unlisted | accepted => trivial
  | lost => exact hx

/-- A step that stages a draft, or only looks. -/
theorem Moves.stages_or_looks {x y : IntakePhase} {n m : Node} (h : x.Moves n y m)
    {r : IntakeRequest} (hfits : x.Fits r) {hash : String} (hx : x.Evident hash n.store)
    (htaken : n.store.Taken) :
    (∃ d receiptId, r.read = .ok d ∧ x = .cleared d ∧ y = .staged d receiptId ∧
      m.store = n.store.stage receiptId n.seconds d) ∨
    (m = n ∧ y.hasStaged hash = x.hasStaged hash ∧ y.Evident hash n.store) := by
  cases h with
  | read | unreadable | unlisted => exact Or.inr ⟨rfl, rfl, trivial⟩
  | onLedger hlisted =>
    exact Or.inr ⟨rfl, rfl, fun hd => hd ▸ htaken.submitted_pos_of_image? hlisted⟩
  | @repeated d n hstaged =>
    refine Or.inr ⟨rfl, rfl, fun hd => ?_⟩
    rw [(IntakeRequest.proper_of_read hfits).lowercase] at hd
    exact Nat.lt_of_lt_of_le ((Store.isStaged_iff htaken.lowercase hash).mp (hd ▸ hstaged))
      (n.store.live_le_submitted hash)
  | @cleared d n hstaged =>
    refine Or.inr ⟨rfl, rfl, fun hd => ?_⟩
    rw [(IntakeRequest.proper_of_read hfits).lowercase] at hd
    refine Nat.eq_zero_of_not_pos fun hlive => ?_
    rw [← hd, ← Store.isStaged_iff htaken.lowercase, hstaged] at hlive
    cases hlive
  | staged => exact Or.inl ⟨_, _, hfits, rfl, rfl, rfl⟩
  | accepted => exact Or.inr ⟨rfl, rfl, trivial⟩
  | @lost d receiptId fault n hlost =>
    obtain ⟨row, hrow, hid⟩ := hx
    exact absurd (htaken.exists_findReceipt hrow) (by simpa [hid] using hlost)

end IntakePhase

end ImageLedger
