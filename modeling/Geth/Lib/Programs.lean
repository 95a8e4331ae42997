import Mathlib.Tactic.Common

namespace Geth.Lib.Programs

variable {ε ε' σ α β : Type}

/-- A program that may fail, and that keeps what it did to the state until
then. -/
abbrev Program (ε σ α : Type) := EStateM ε σ α

def attempt (caught : ε → Bool) (x : Program ε σ α) : Program ε σ (Except ε α) := fun s =>
  match x s with
  | .ok a s' => .ok (.ok a) s'
  | .error e s' => if caught e then .ok (.error e) s' else .error e s'

def mapError (f : ε → ε') (x : Program ε σ α) : Program ε' σ α := fun s =>
  match x s with
  | .ok a s' => .ok a s'
  | .error e s' => .error (f e) s'

/-- A run succeeds with a result that passes a test. -/
def okAnd (p : α → Bool) : EStateM.Result ε σ α → Bool
  | .ok a _ => p a
  | .error _ _ => false

theorem exists_ok_of_okAnd {p : α → Bool} {r : EStateM.Result ε σ α} (h : okAnd p r = true) :
    ∃ a s, r = .ok a s ∧ p a = true := by
  cases r with
  | ok a s => exact ⟨a, s, rfl, h⟩
  | error e s => cases h

variable {x : Program ε σ α} {s s' : σ} {a : α}

theorem bind_ok {f} {b : β} : (x >>= f) s = .ok b s' ↔ ∃ a s₁, x s = .ok a s₁ ∧ f a s₁ = .ok b s' := by
  simp only [bind, EStateM.bind]
  cases x s with
  | ok a s₁ => simp
  | error e s₁ => simp

theorem pure_ok {b : α} : (pure a : Program ε σ α) s = .ok b s' ↔ a = b ∧ s = s' := by
  simp [pure, EStateM.pure]

theorem throw_ok {e : ε} {b : α} : (throw e : Program ε σ α) s ≠ .ok b s' := by
  intro h
  cases h

theorem mapError_ok {f : ε → ε'} : mapError f x s = .ok a s' ↔ x s = .ok a s' := by
  rw [mapError]
  cases x s with
  | ok b s₁ => simp
  | error e s₁ => simp

theorem ofExcept_ok {x} : (ofExcept x : Program ε σ α) s = .ok a s' ↔ x = .ok a ∧ s = s' := by
  cases x with
  | ok b => simp [ofExcept, pure_ok]
  | error e => simp [ofExcept, throw_ok]

theorem attempt_of_ok {caught} (h : x s = .ok a s') : attempt caught x s = .ok (.ok a) s' := by
  rw [attempt, h]

theorem get_ok {t : σ} : (get : Program ε σ σ) s = .ok t s' ↔ s = t ∧ s = s' := by
  have hget : (get : Program ε σ σ) s = .ok s s := rfl
  rw [hget, EStateM.Result.ok.injEq]

end Geth.Lib.Programs
