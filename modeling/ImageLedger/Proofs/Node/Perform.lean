import ImageLedger.Node.Workers
import Mathlib.Data.List.Basic

namespace ImageLedger

theorem Activity.run_andThen {σ α β : Type} {a : Activity σ α} {f : α → Activity σ β} {s t : σ}
    {x : α} (h : a.run s = some (x, t)) : (a.andThen f).run s = (f x).run t := by
  induction a generalizing s with
  | done y =>
    obtain ⟨rfl, rfl⟩ := Prod.mk.inj (Option.some.inj h)
    rfl
  | step ready act next ih =>
    simp only [Activity.run] at h
    split at h
    · next hs =>
      simp only [Activity.andThen, Activity.run, hs, if_true]
      exact ih (act s).1 h
    · cases h

theorem mapError_eq_ok {ε ε' α : Type} {x : Except ε α} {f : ε → ε'} {a : α} :
    x.mapError f = .ok a ↔ x = .ok a := by
  cases x <;> simp [Except.mapError]

/-- Two activities end one after the other when the first ends and the second does from there. -/
theorem Activity.run_andThen_eq_some {σ α β : Type} {a : Activity σ α} {f : α → Activity σ β}
    {s : σ} {r : β × σ} :
    (a.andThen f).run s = some r ↔ ∃ x t, a.run s = some (x, t) ∧ (f x).run t = some r := by
  constructor
  · intro h
    induction a generalizing s with
    | done x => exact ⟨x, s, rfl, h⟩
    | step ready act next ih =>
      simp only [Activity.andThen, Activity.run] at h ⊢
      split at h
      · next hs =>
        rw [if_pos hs]
        exact ih (act s).1 h
      · cases h
  · intro hparts
    obtain ⟨x, t, ha, hf⟩ := hparts
    rw [Activity.run_andThen ha, hf]

namespace Operation

variable {α β : Type} {n m : Node}

@[simp] theorem perform_look (f : Node → Except Fault α) (n : Node) :
    (look f).perform n = some (f n, n) := rfl

@[simp] theorem perform_attempt (f : Node → Except Fault α × Node) (n : Node) :
    (attempt f).perform n = some (f n) := rfl

theorem perform_bind {op : Operation α} {f : α → Operation β} {a : α}
    (h : op.perform n = some (.ok a, m)) : (op >>= f).perform n = (f a).perform m :=
  Activity.run_andThen h

theorem perform_bind_error {op : Operation α} {f : α → Operation β} {e : Fault}
    (h : op.perform n = some (.error e, m)) : (op >>= f).perform n = some (.error e, m) :=
  Activity.run_andThen h

/-- An operation of two parts succeeds when the first does and then the second. -/
theorem perform_bind_eq_ok {op : Operation α} {f : α → Operation β} {b : β} :
    (op >>= f).perform n = some (.ok b, m) ↔
      ∃ a k, op.perform n = some (.ok a, k) ∧ (f a).perform k = some (.ok b, m) := by
  constructor
  · intro h
    obtain ⟨x, k, hop, hrest⟩ := Activity.run_andThen_eq_some.mp h
    cases x with
    | ok a => exact ⟨a, k, hop, hrest⟩
    | error e =>
      have hfails : (some (.error e, k) : Option (Except Fault β × Node)) = some (.ok b, m) := hrest
      cases hfails
  · intro hparts
    obtain ⟨a, k, hop, hf⟩ := hparts
    rw [perform_bind hop, hf]

@[simp] theorem perform_pure_eq_ok {a b : α} :
    (pure a : Operation α).perform n = some (.ok b, m) ↔ a = b ∧ n = m := by
  have hpure : (pure a : Operation α).perform n = some (.ok a, n) := rfl
  rw [hpure, Option.some.injEq, Prod.mk.injEq, Except.ok.injEq]

theorem perform_look_eq_ok {f : Node → Except Fault α} {a : α} :
    (look f).perform n = some (.ok a, m) ↔ f n = .ok a ∧ n = m := by
  rw [perform_look, Option.some.injEq, Prod.mk.injEq]

/-- What an operation under the lock ends with is what the operation does, but for the lock. -/
theorem exists_perform_of_exclusively {op : Operation α} {r : Except Fault α}
    (h : (exclusively op).perform n = some (r, m)) :
    ∃ k, op.perform { n with lock := n.lock.enter.2 } = some (r, k) ∧
      m = { k with lock := k.lock.leave n.lock.tickets } := by
  obtain ⟨ticket, k, henter, h⟩ := Activity.run_andThen_eq_some.mp h
  obtain ⟨rfl, rfl⟩ := Prod.mk.inj (Option.some.inj henter)
  obtain ⟨_, k, hwait, h⟩ := Activity.run_andThen_eq_some.mp h
  simp only [Activity.await, Activity.run] at hwait
  split at hwait
  · obtain ⟨-, rfl⟩ := Prod.mk.inj (Option.some.inj hwait)
    obtain ⟨result, k, hop, h⟩ := Activity.run_andThen_eq_some.mp h
    obtain ⟨rfl, rfl⟩ := Prod.mk.inj (Option.some.inj h)
    exact ⟨k, hop, rfl⟩
  · cases hwait

/-- An operation that was called under the lock goes ahead once it holds it, and gives it back. -/
theorem run_awaited {op : Operation α} {r : Except Fault α} {ticket : Nat}
    (hholds : n.lock.holds ticket = true) (h : op.perform n = some (r, m)) :
    ((Activity.await fun k : Node => k.lock.holds ticket).andThen fun _ =>
      op.run.andThen fun result =>
        (Activity.change fun k : Node => { k with lock := k.lock.leave ticket }).andThen fun _ =>
          .done result).run n = some (r, { m with lock := m.lock.leave ticket }) := by
  have hwait : (Activity.await fun k : Node => k.lock.holds ticket).run n = some ((), n) :=
    if_pos hholds
  rw [Activity.run_andThen hwait, Activity.run_andThen h]
  rfl

/-- An operation under the lock goes ahead when nobody holds it, and gives it back. -/
theorem perform_exclusively {op : Operation α} {r : Except Fault α} (hfree : n.lock.queue = [])
    (h : op.perform { n with lock := n.lock.enter.2 } = some (r, m))
    (hlock : m.lock = n.lock.enter.2) :
    (exclusively op).perform n = some (r, { m with lock := ⟨[], n.lock.tickets + 1⟩ }) := by
  have hholds : n.lock.enter.2.holds n.lock.tickets = true := by
    simp [WriteLock.enter, WriteLock.holds, hfree]
  have hleave : m.lock.leave n.lock.tickets = ⟨[], n.lock.tickets + 1⟩ := by
    simp [hlock, WriteLock.enter, WriteLock.leave, hfree]
  rw [← hleave]
  exact run_awaited hholds h

end Operation

end ImageLedger
