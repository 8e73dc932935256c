import Lowering.Fault

/-!
# Computations that may fault

An `Attempt σ α` reads and changes a state of type `σ` and either gives a value or
faults.  The state outlives a fault: what was used up before it stays used up.

`run_pure`, `run_bind` and `run_throw` say all there is to know of a program in
this monad.
-/

namespace Lowering

/-- A computation over a state that gives a value or faults, and in both cases a
new state. -/
structure Attempt (σ α : Type) where
  /-- Run the computation from a state. -/
  run : σ → Except Fault α × σ

namespace Attempt

variable {σ α β γ : Type}

@[ext] theorem ext {x y : Attempt σ α} (h : ∀ s, x.run s = y.run s) : x = y := by
  cases x; cases y
  simp only [mk.injEq]
  exact funext h

/-- Give a value and leave the state alone. -/
protected def pure (a : α) : Attempt σ α := ⟨fun s => (.ok a, s)⟩

/-- Run a computation, and go on with its value unless it faults. -/
protected def bind (x : Attempt σ α) (f : α → Attempt σ β) : Attempt σ β :=
  ⟨fun s =>
    match x.run s with
    | (.ok a, s) => (f a).run s
    | (.error e, s) => (.error e, s)⟩

instance : Monad (Attempt σ) where
  pure := Attempt.pure
  bind := Attempt.bind

/-- Fault. -/
protected def throw (e : Fault) : Attempt σ α := ⟨fun s => (.error e, s)⟩

/-- Run a computation, and on a fault go on with its handler. -/
protected def tryCatch (x : Attempt σ α) (handler : Fault → Attempt σ α) : Attempt σ α :=
  ⟨fun s =>
    match x.run s with
    | (.ok a, s) => (.ok a, s)
    | (.error e, s) => (handler e).run s⟩

instance : MonadExceptOf Fault (Attempt σ) where
  throw := Attempt.throw
  tryCatch := Attempt.tryCatch

@[simp] theorem run_pure (a : α) (s : σ) : (pure a : Attempt σ α).run s = (.ok a, s) := rfl

@[simp] theorem run_throw (e : Fault) (s : σ) :
    (throw e : Attempt σ α).run s = (.error e, s) := rfl

theorem run_bind (x : Attempt σ α) (f : α → Attempt σ β) (s : σ) :
    (x >>= f).run s =
      match x.run s with
      | (.ok a, s) => (f a).run s
      | (.error e, s) => (.error e, s) := rfl

theorem run_bind_ok {x : Attempt σ α} {s t : σ} {a : α} (f : α → Attempt σ β)
    (h : x.run s = (.ok a, t)) : (x >>= f).run s = (f a).run t := by
  simp [run_bind, h]

theorem run_bind_error {x : Attempt σ α} {s t : σ} {e : Fault} (f : α → Attempt σ β)
    (h : x.run s = (.error e, t)) : (x >>= f).run s = (.error e, t) := by
  simp [run_bind, h]

/-- A sequence succeeds exactly when both of its parts do. -/
theorem run_bind_eq_ok_iff {x : Attempt σ α} {f : α → Attempt σ β} {s u : σ} {b : β} :
    (x >>= f).run s = (.ok b, u) ↔ ∃ a t, x.run s = (.ok a, t) ∧ (f a).run t = (.ok b, u) := by
  rw [run_bind]
  rcases h : x.run s with ⟨_ | a, t⟩
  · simp
  · constructor
    · exact fun hf => ⟨a, t, rfl, hf⟩
    · rintro ⟨a', t', heq, hf⟩
      cases heq
      exact hf

/-- A sequence faults exactly when its first part does, or its second behind a first that
succeeds. -/
theorem run_bind_eq_error_iff {x : Attempt σ α} {f : α → Attempt σ β} {s u : σ} {e : Fault} :
    (x >>= f).run s = (.error e, u) ↔
      x.run s = (.error e, u) ∨ ∃ a t, x.run s = (.ok a, t) ∧ (f a).run t = (.error e, u) := by
  rw [run_bind]
  rcases h : x.run s with ⟨_ | a, t⟩
  · simp
  · constructor
    · exact fun hf => .inr ⟨a, t, rfl, hf⟩
    · rintro (heq | ⟨a', t', heq, hf⟩)
      · cases heq
      · cases heq
        exact hf

instance : LawfulMonad (Attempt σ) := LawfulMonad.mk' (Attempt σ)
  (by
    intro α x
    apply Attempt.ext
    intro s
    show (x >>= fun a => pure a).run s = x.run s
    rw [run_bind]
    rcases h : x.run s with ⟨_ | a, t⟩ <;> simp)
  (by intro α β a f; rfl)
  (by
    intro α β γ x f g
    apply Attempt.ext
    intro s
    simp only [run_bind]
    rcases h : x.run s with ⟨_ | a, t⟩ <;> simp)

/-- Lift an outcome that needs no state. -/
def ofExcept : Except Fault α → Attempt σ α
  | .ok a => pure a
  | .error e => throw e

/-- Run a computation on one part of a larger state. -/
def zoom {τ : Type} (get : τ → σ) (set : σ → τ → τ) (x : Attempt σ α) : Attempt τ α :=
  ⟨fun t => let (r, s) := x.run (get t); (r, set s t)⟩

end Attempt

end Lowering
