import ImageLedger.Proofs.Activity.Lockstep
import ImageLedger.Proofs.Node.Isolation
import Mathlib.Data.List.Forall2

namespace ImageLedger

/-- Outcomes that are alike: results related by `post`, or the same fault. -/
def AgreeUpTo {ε α β : Type} (post : α → β → Prop) : Except ε α → Except ε β → Prop
  | .ok a, .ok b => post a b
  | .error e, .error f => e = f
  | _, _ => False

namespace AgreeUpTo

variable {ε ε' α β γ δ : Type} {seen : γ → δ → Prop} {post : α → β → Prop}

theorem bind {x : Except ε γ} {y : Except ε δ} {f : γ → Except ε α} {g : δ → Except ε β}
    (h : AgreeUpTo seen x y) (hrest : ∀ c d, seen c d → AgreeUpTo post (f c) (g d)) :
    AgreeUpTo post (x >>= f) (y >>= g) := by
  cases x with
  | ok c =>
    cases y with
    | ok d => exact hrest c d h
    | error e => cases h
  | error e =>
    cases y with
    | ok d => cases h
    | error e' => exact h

theorem mapError {x : Except ε α} {y : Except ε β} (h : AgreeUpTo post x y) (f : ε → ε') :
    AgreeUpTo post (x.mapError f) (y.mapError f) := by
  cases x with
  | ok a =>
    cases y with
    | ok b => exact h
    | error e => cases h
  | error e =>
    cases y with
    | ok b => cases h
    | error e' => exact congrArg f h

theorem mapM {f : γ → Except ε α} {g : δ → Except ε β} {cs : List γ} {ds : List δ}
    (h : List.Forall₂ seen cs ds) (hf : ∀ c d, seen c d → AgreeUpTo post (f c) (g d)) :
    AgreeUpTo (List.Forall₂ post) (cs.mapM f) (ds.mapM g) := by
  induction h with
  | nil => exact .nil
  | cons hhead _ ih =>
    rw [List.mapM_cons, List.mapM_cons]
    exact (hf _ _ hhead).bind fun a b hab => ih.bind fun as bs hrest => .cons hab hrest

theorem eq {x y : Except ε α} (h : AgreeUpTo Eq x y) : x = y := by
  cases x with
  | ok a =>
    cases y with
    | ok b => exact congrArg Except.ok h
    | error e => cases h
  | error e =>
    cases y with
    | ok b => cases h
    | error e' => exact congrArg Except.error h

end AgreeUpTo

/-- Rows that are the same but for the image of a camera token's submission. A certificate signs its
image, which therefore takes part in its validation. -/
structure SubmissionRow.SameButImage (row other : SubmissionRow) : Prop where
  rest : other = { row with entry := other.entry }
  certificate : row.kind = .certificate → other.entry = row.entry

/-- Submissions that were read back from such rows. -/
structure Submission.SameButImage (s t : Submission) : Prop where
  row : s.row.SameButImage t.row
  credential : t.credential = s.credential
  kind : s.credential.kind = s.row.kind

namespace SubmissionRow.SameButImage

variable {row other : SubmissionRow}

theorem refl (row : SubmissionRow) : row.SameButImage row := ⟨rfl, fun _ => rfl⟩

/-- Whatever does not depend on the image is the same of both rows. -/
theorem congr {β : Type} (h : row.SameButImage other) (f : SubmissionRow → β)
    (hf : ∀ row entry, f { row with entry } = f row) : f other = f row := by
  rw [h.rest]
  exact hf row other.entry

theorem read (h : row.SameButImage other) :
    AgreeUpTo Submission.SameButImage row.read other.read := by
  have hkind : other.kind = row.kind := h.congr (·.kind) fun _ _ => rfl
  have hcredentials : other.credentials = row.credentials := h.congr (·.credentials) fun _ _ => rfl
  have hreceipt : other.receiptId = row.receiptId := h.congr (·.receiptId) fun _ _ => rfl
  unfold SubmissionRow.read
  rw [hkind, hcredentials, hreceipt]
  cases hrow : row.kind with
  | certificate =>
    dsimp only
    split
    · exact ⟨h, rfl, hrow.symm⟩
    · exact rfl
  | cameraToken =>
    dsimp only
    split
    · exact ⟨h, rfl, hrow.symm⟩
    · exact rfl

/-- The same attempt leaves two such rows the same but for the image. -/
theorem apply (h : row.SameButImage other) (u : AttemptUpdate) :
    (u.apply row).SameButImage (u.apply other) :=
  ⟨h.congr (fun row => { u.apply row with entry := other.entry }) fun _ _ => rfl, h.certificate⟩

end SubmissionRow.SameButImage

namespace Submission.SameButImage

variable {s t : Submission}

/-- The question about a submission does not show a token's image. -/
theorem requestOf (h : s.SameButImage t) : Validation.requestOf t = Validation.requestOf s := by
  have hauthority : t.row.authorityId = s.row.authorityId :=
    h.row.congr (·.authorityId) fun _ _ => rfl
  unfold Validation.requestOf
  rw [h.credential, hauthority]
  cases hcredential : s.credential with
  | cameraToken token => rfl
  | certificate bundle =>
    have hkind : s.row.kind = .certificate :=
      h.kind.symm.trans (congrArg Credential.kind hcredential)
    rw [h.row.certificate hkind]

theorem update (h : s.SameButImage t) (maxAttempts now : Number) (v : Authority.Verdict) :
    Validation.update maxAttempts now t v = Validation.update maxAttempts now s v := by
  have hcount : t.row.retryCount = s.row.retryCount := h.row.congr (·.retryCount) fun _ _ => rfl
  unfold Validation.update
  rw [hcount]

end Submission.SameButImage

/-- Nodes that differ in the images of camera tokens' submissions, and else at most in what
validation does not look at. -/
structure Node.SameButImages (n m : Node) : Prop where
  settings : m.settings = n.settings
  clock : m.clock = n.clock
  cache : m.cache = n.cache
  rows : List.Forall₂ SubmissionRow.SameButImage n.store.submissions m.store.submissions

namespace Store

variable {s t : Store}

theorem forall₂_dueRows
    (h : List.Forall₂ SubmissionRow.SameButImage s.submissions t.submissions)
    (maxAttempts limit now : Number) :
    List.Forall₂ SubmissionRow.SameButImage (s.dueRows maxAttempts limit now)
      (t.dueRows maxAttempts limit now) := by
  have hdue : List.Forall₂ SubmissionRow.SameButImage
      (s.submissions.filter (isDue maxAttempts now))
      (t.submissions.filter (isDue maxAttempts now)) :=
    List.rel_filter (fun row other hrow => by
      change isDue maxAttempts now row = true ↔ isDue maxAttempts now other = true
      rw [hrow.congr (isDue maxAttempts now) fun _ _ => rfl]) h
  unfold dueRows limited
  split
  · split
    · exact hdue
    · exact List.forall₂_take _ hdue
  · exact hdue

/-- An attempt that is recorded under one number leaves the rows the same but for the images. -/
theorem forall₂_recordAttempt
    (h : List.Forall₂ SubmissionRow.SameButImage s.submissions t.submissions) (id : Nat)
    (u : AttemptUpdate) :
    List.Forall₂ SubmissionRow.SameButImage (s.recordAttempt id u).submissions
      (t.recordAttempt id u).submissions := by
  refine List.rel_map (fun row other hrow => ?_) h
  have hid : other.id = row.id := hrow.congr (·.id) fun _ _ => rfl
  dsimp only
  by_cases hrecord : row.id = id
  · rw [if_pos hrecord, if_pos (hid.trans hrecord)]
    exact hrow.apply u
  · rw [if_neg hrecord, if_neg (hid ▸ hrecord)]
    exact hrow

end Store

namespace Node

open Operation Activity

variable {n m : Node}

/-- Operations in step on nodes that differ in such images. -/
abbrev Blind {α β : Type} (post : α → β → Prop) (op : Operation α) (op' : Operation β) : Prop :=
  InStep SameButImages (AgreeUpTo post) op.run op'.run

namespace Blind

variable {α β γ δ : Type} {seen : γ → δ → Prop} {post : α → β → Prop}

theorem pure {a : α} {b : β} (h : post a b) :
    Blind post (Pure.pure a : Operation α) (Pure.pure b : Operation β) := .done h

theorem bind {op : Operation γ} {op' : Operation δ} {f : γ → Operation α} {g : δ → Operation β}
    (h : Blind seen op op') (hrest : ∀ c d, seen c d → Blind post (f c) (g d)) :
    Blind post (op >>= f) (op' >>= g) := by
  refine InStep.andThen h fun x y hxy => ?_
  cases x with
  | ok c =>
    cases y with
    | ok d => exact hrest c d hxy
    | error e => cases hxy
  | error e =>
    cases y with
    | ok d => cases hxy
    | error e' => exact .done hxy

theorem look {f : Node → Except Fault α} {g : Node → Except Fault β}
    (h : ∀ n m, SameButImages n m → AgreeUpTo post (f n) (g m)) :
    Blind post (Operation.look f) (Operation.look g) :=
  .atomic fun n m hnm => ⟨h n m hnm, hnm⟩

theorem act {f : Node → α × Node} {g : Node → β × Node}
    (h : ∀ n m, SameButImages n m → post (f n).1 (g m).1 ∧ SameButImages (f n).2 (g m).2) :
    Blind post (Operation.act f) (Operation.act g) :=
  .atomic fun n m hnm => h n m hnm

end Blind

theorem remembered_blind (r : Authority.Request) : Blind Eq (remembered r) (remembered r) := by
  refine .act fun n m h => ?_
  have hkept : Authority.remembered m.cache m.clock r = Authority.remembered n.cache n.clock r := by
    rw [h.cache, h.clock]
  rw [hkept]
  exact ⟨rfl, ⟨h.settings, h.clock, rfl, h.rows⟩⟩

theorem consult_blind (reply : Authority.Reply) (r : Authority.Request) :
    Blind Eq (consult reply r) (consult reply r) := by
  refine (remembered_blind r).bind fun kept _ hkept => ?_
  subst hkept
  cases kept with
  | some v => exact .pure rfl
  | none =>
    refine .act fun n m h => ?_
    have hendpoints : m.endpoints = n.endpoints := by
      unfold endpoints
      rw [h.settings]
    rw [hendpoints]
    dsimp only
    split
    · next v _ =>
      refine ⟨rfl, ⟨h.settings, h.clock, ?_, h.rows⟩⟩
      rw [h.cache, h.clock]
    · exact ⟨rfl, h⟩

theorem attempt_blind (now : Number) (reply : Authority.Reply) {s t : Submission}
    (hst : s.SameButImage t) : Blind Eq (attempt now reply s) (attempt now reply t) := by
  have hid : t.row.id = s.row.id := hst.row.congr (·.id) fun _ _ => rfl
  unfold attempt
  rw [hst.requestOf]
  refine (consult_blind reply _).bind fun answer _ hanswer => ?_
  subst hanswer
  obtain ⟨verdict, call⟩ := answer
  cases verdict with
  | none => exact .pure rfl
  | some v =>
    refine .act fun n m h => ?_
    have hupdate : Validation.update m.settings.validationMaxAttempts now t v =
        Validation.update n.settings.validationMaxAttempts now s v := by
      rw [h.settings, hst.update]
    rw [hupdate, hid]
    exact ⟨rfl, ⟨h.settings, h.clock, h.cache, Store.forall₂_recordAttempt h.rows _ _⟩⟩

theorem attemptAll_blind (now : Number) (replies : Nat → Authority.Reply)
    {due due' : List Submission} (hdue : List.Forall₂ Submission.SameButImage due due')
    (counts : ValidationCounts) (calls : List Authority.Call) :
    Blind Eq (attemptAll now replies due counts calls)
      (attemptAll now replies due' counts calls) := by
  induction hdue generalizing counts calls with
  | nil => exact .pure rfl
  | cons hst _ ih =>
    refine (attempt_blind now _ hst).bind fun result _ hresult => ?_
    subst hresult
    exact ih _ _

theorem validationCycle_blind (replies : Nat → Authority.Reply) (now limit : Option Number) :
    Blind Eq (validationCycle replies now limit) (validationCycle replies now limit) := by
  have hclock : Blind Eq (Operation.look fun n => .ok n.seconds)
      (Operation.look fun n => .ok n.seconds) := by
    refine .look fun n m h => ?_
    change n.seconds = m.seconds
    unfold seconds
    rw [h.clock]
  refine hclock.bind fun current _ hcurrent => ?_
  subst hcurrent
  have hdue : Blind (List.Forall₂ Submission.SameButImage)
      (Operation.look fun n : Node => (n.store.findDue n.settings.validationMaxAttempts
        (limit.getD Validation.defaultLimit) (now.getD current)).mapError Fault.submission)
      (Operation.look fun n : Node => (n.store.findDue n.settings.validationMaxAttempts
        (limit.getD Validation.defaultLimit) (now.getD current)).mapError Fault.submission) := by
    refine .look fun n m h => ?_
    rw [h.settings]
    have hrows := Store.forall₂_dueRows h.rows n.settings.validationMaxAttempts
      (limit.getD Validation.defaultLimit) (now.getD current)
    exact (AgreeUpTo.mapM hrows fun row other hrow => hrow.read).mapError _
  exact hdue.bind fun due due' hdue => attemptAll_blind _ replies hdue _ _

/-- On nodes that differ in the images of camera tokens' submissions a cycle makes the same calls
and counts the same outcomes, or fails for the same reason. It leaves the same verdicts in the
cache, and rows that still differ in these images alone. -/
theorem validation_ignores_token_images {n m : Node} (h : n.SameButImages m)
    (replies : Nat → Authority.Reply) (now limit : Option Number) :
    ∃ result n' m', (validationCycle replies now limit).perform n = some (result, n') ∧
      (validationCycle replies now limit).perform m = some (result, m') ∧ n'.SameButImages m' := by
  obtain ⟨result, result', n', m', hn, hm, hresult, hafter⟩ :=
    (validationCycle_blind replies now limit).exists_run h
  exact ⟨result, n', m', hn, hresult.eq ▸ hm, hafter⟩

/-- A token's submission that waits for its authority's verdict. -/
def tokenRow (id : Nat) (digit : Char) : SubmissionRow :=
  { pendingRow id digit with
    kind := .cameraToken
    credentials := (Credential.cameraToken ⟨"00", "01", "02", 3, 7⟩).columns }

/-- Two tokens for different images, each before a certificate for one image: both submissions are
due in either table. -/
theorem same_calls_for_other_image :
    let n := queueing [tokenRow 1 'a', pendingRow 2 'c'] 1 1
    let m := queueing [tokenRow 1 'b', pendingRow 2 'c'] 1 1
    let replies := fun _ : Nat => Authority.Reply.response 200 (some "\x7b\"valid\":true\x7d")
    n.SameButImages m ∧ n.store.submissions ≠ m.store.submissions ∧
      n.dueRows (some 120) none = n.store.submissions ∧
      ∃ result n' m', (validationCycle replies (some 120) none).perform n = some (result, n') ∧
        (validationCycle replies (some 120) none).perform m = some (result, m') ∧
        n'.SameButImages m' := by
  intro n m replies
  have hsame : n.SameButImages m :=
    ⟨rfl, rfl, rfl, .cons ⟨rfl, nofun⟩ (.cons (.refl _) .nil)⟩
  exact ⟨hsame, by decide, by decide +kernel,
    validation_ignores_token_images hsame replies (some 120) none⟩

end Node

end ImageLedger
