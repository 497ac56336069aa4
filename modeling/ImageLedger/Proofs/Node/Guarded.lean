import ImageLedger.Node.Batching
import ImageLedger.Proofs.Activity.Interference

namespace ImageLedger.Operation

variable {rely guar : Store → Store → Prop} {α β : Type}

/-- What holds at the end of an operation: of the states that its steps found, of its outcome and of
the tables. -/
abbrev Post (α : Type) := List Node → Except Fault α → Store → Prop

/-- The operation takes steps that `guar` allows and ends as `post` says, as long as the others do
what `rely` allows. -/
def Guarded (rely guar : Store → Store → Prop) (post : Post α) (op : Operation α)
    (seen : List Node) (n : Node) : Prop :=
  Activity.Guarded (fun n m => rely n.store m.store) (fun n m => guar n.store m.store)
    (fun seen result m => post seen result m.store) op.run seen n

/-- An operation that leaves the tables as they are and has certain outcomes only, whatever its
steps find. -/
def Quiet (allowed : α → Prop) : Activity Node α → Prop
  | .done x => allowed x
  | .step ready act next => ∀ n, ready n = true →
      (act n).2.store = n.store ∧ Quiet allowed (next (act n).1)

/-- A property that the others cannot break and that the progress of the operation does not
touch. -/
structure Steady (rely : Store → Store → Prop) (A : List Node → Store → Prop) : Prop where
  rely : ∀ seen s t, A seen s → rely s t → A seen t
  seen : ∀ seen s n, A seen s → A (seen ++ [n]) s

section Rules

variable {post : Post β} {mid : Post α} {seen : List Node} {n : Node}

theorem Guarded.pure {b : β} (h : ∀ t, rely n.store t → post seen (.ok b) t) :
    Guarded rely guar post (pure b) seen n :=
  fun t ht => h t.store ht

theorem Guarded.atomic {act : Node → Except Fault β × Node}
    (h : ∀ t : Node, rely n.store t.store → guar t.store (act t).2.store ∧
      ∀ u, rely (act t).2.store u → post (seen ++ [t]) (act t).1 u) :
    Guarded rely guar post (Activity.atomic act) seen n := by
  intro t ht _
  obtain ⟨hguar, hpost⟩ := h t ht
  exact ⟨hguar, fun u hu => hpost u.store hu⟩

theorem Guarded.bind (refl : ∀ s, rely s s) {op : Operation α} {f : α → Operation β}
    (hop : op.Guarded rely guar mid seen n)
    (hok : ∀ seen a m, mid seen (.ok a) m.store → (f a).Guarded rely guar post seen m)
    (herr : ∀ seen e s t, mid seen (.error e) s → rely s t → post seen (.error e) t) :
    (op >>= f).Guarded rely guar post seen n := by
  apply Activity.Guarded.andThen (fun n => refl n.store) hop
  intro seen result m hmid
  cases result with
  | error e => exact fun t ht => herr seen e m.store t.store hmid ht
  | ok a => exact hok seen a m hmid

end Rules

theorem Quiet.andThen {p : α → Prop} {q : β → Prop} {a : Activity Node α}
    {f : α → Activity Node β} (ha : Quiet p a) (hf : ∀ x, p x → Quiet q (f x)) :
    Quiet q (a.andThen f) := by
  induction a with
  | done x => exact hf x ha
  | step ready act next ih =>
    intro n hn
    obtain ⟨hstore, hnext⟩ := ha n hn
    exact ⟨hstore, ih (act n).1 hnext⟩

theorem Quiet.atomic {p : α → Prop} {act : Node → α × Node}
    (h : ∀ n, (act n).2.store = n.store ∧ p (act n).1) : Quiet p (Activity.atomic act) :=
  fun n _ => h n

theorem Quiet.bind {p : Except Fault α → Prop} {q : Except Fault β → Prop} {op : Operation α}
    {f : α → Operation β} (hop : Quiet p op.run) (hok : ∀ a, p (.ok a) → Quiet q (f a).run)
    (herr : ∀ e, p (.error e) → q (.error e)) : Quiet q (op >>= f).run := by
  apply Quiet.andThen hop
  intro result hresult
  cases result with
  | error e => exact herr e hresult
  | ok a => exact hok a hresult

/-- A quiet activity can be followed by anything, and what is steady holds all along. -/
theorem Guarded.ofQuiet {A : List Node → Store → Prop} {allowed : α → Prop}
    (hsteady : Steady rely A) (hguar : ∀ s, guar s s) {a : Activity Node α} {seen : List Node}
    {n : Node} (ha : Quiet allowed a) (hA : A seen n.store) :
    Activity.Guarded (fun n m => rely n.store m.store) (fun n m => guar n.store m.store)
      (fun seen x m => A seen m.store ∧ allowed x) a seen n := by
  induction a generalizing seen n with
  | done x => exact fun t ht => ⟨hsteady.rely seen n.store t.store hA ht, ha⟩
  | step ready act next ih =>
    intro t ht hready
    obtain ⟨hstore, hnext⟩ := ha t hready
    constructor
    · show guar t.store (act t).2.store
      rw [hstore]
      exact hguar t.store
    · apply ih (act t).1 hnext
      rw [hstore]
      exact hsteady.seen seen t.store t (hsteady.rely seen n.store t.store hA ht)

theorem Guarded.quiet {A : List Node → Store → Prop} {allowed : Except Fault α → Prop}
    (hsteady : Steady rely A) (hguar : ∀ s, guar s s) {op : Operation α} {seen : List Node}
    {n : Node} (hop : Quiet allowed op.run) (hA : A seen n.store) :
    op.Guarded rely guar (fun seen x s => A seen s ∧ allowed x) seen n :=
  Guarded.ofQuiet hsteady hguar hop hA

/-- The lock is taken and given back around an operation without a trace in the tables. -/
theorem Guarded.exclusively {A : List Node → Store → Prop}
    {B : Except Fault α → List Node → Store → Prop} (refl : ∀ s, rely s s)
    (hguar : ∀ s, guar s s) (hA : Steady rely A) (hB : ∀ x, Steady rely (B x))
    {op : Operation α} (hop : ∀ seen n, A seen n.store →
      op.Guarded rely guar (fun seen x s => B x seen s) seen n) {seen : List Node} {n : Node}
    (hstart : A seen n.store) :
    (exclusively op).Guarded rely guar (fun seen x s => B x seen s) seen n := by
  have hrefl : ∀ n : Node, rely n.store n.store := fun n => refl n.store
  have hquiet : ∀ {γ : Type} (act : Node → γ × Node), (∀ n, (act n).2.store = n.store) →
      Quiet (fun _ => True) (Activity.atomic act) :=
    fun act h => Quiet.atomic fun n => ⟨h n, trivial⟩
  apply Activity.Guarded.andThen hrefl
    (Guarded.ofQuiet hA hguar (hquiet _ fun n => rfl) hstart)
  intro seen ticket n hparts
  obtain ⟨hn, -⟩ := hparts
  have hwait : Quiet (fun _ => True) (Activity.await fun n : Node => n.lock.holds ticket) :=
    fun n _ => ⟨rfl, trivial⟩
  apply Activity.Guarded.andThen hrefl (Guarded.ofQuiet hA hguar hwait hn)
  intro seen _ n hparts
  obtain ⟨hn, -⟩ := hparts
  apply Activity.Guarded.andThen hrefl (hop seen n hn)
  intro seen result n hn
  apply Activity.Guarded.andThen hrefl
    (Guarded.ofQuiet (hB result) hguar (hquiet _ fun n => rfl) hn)
  intro seen _ n hparts
  obtain ⟨hn, -⟩ := hparts
  exact fun t ht => (hB result).rely seen n.store t.store hn ht

end ImageLedger.Operation
