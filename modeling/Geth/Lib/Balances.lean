import Mathlib.Algebra.BigOperators.Ring.Finset
import Mathlib.Data.Fintype.BigOperators
import Mathlib.Tactic.Linarith

namespace Geth.Lib.Balances

variable {α : Type} [DecidableEq α]

/-- What every account holds. Debts are negative. -/
abbrev Ledger (α : Type) := α → ℤ

def credit (b : Ledger α) (a : α) (n : ℤ) : Ledger α := Function.update b a (b a + n)

def debit (b : Ledger α) (a : α) (n : ℤ) : Ledger α := credit b a (-n)

def transfer (b : Ledger α) (source target : α) (n : ℤ) : Ledger α :=
  credit (debit b source n) target n

def NonNeg (b : Ledger α) : Prop := ∀ a, 0 ≤ b a

def total [Fintype α] (b : Ledger α) : ℤ := ∑ a, b a

/-- The changes an execution may make: transfers that are covered, and closing
an account whose holdings were paid out. What is undone does not count. -/
inductive Moves : Ledger α → Ledger α → Prop
  | refl (b : Ledger α) : Moves b b
  | transfer {b c : Ledger α} {source target : α} {n : ℤ} :
    Moves b c → 0 ≤ n → n ≤ c source → Moves b (transfer c source target n)
  | close {b c : Ledger α} {source target : α} :
    Moves b c → Moves b (Function.update (credit c target (c source)) source 0)

@[simp] theorem credit_self (b : Ledger α) (a : α) (n : ℤ) : credit b a n a = b a + n := by
  simp [credit]

@[simp] theorem credit_of_ne {b} {a c : α} (h : c ≠ a) (n : ℤ) : credit b a n c = b c := by
  simp [credit, h]

@[simp] theorem debit_self (b : Ledger α) (a : α) (n : ℤ) : debit b a n a = b a - n := by
  simp [debit, sub_eq_add_neg]

@[simp] theorem debit_of_ne {b} {a c : α} (h : c ≠ a) (n : ℤ) : debit b a n c = b c := by
  simp [debit, h]

section

variable (b : Ledger α) (a : α)
include b a

theorem credit_credit (m n : ℤ) : credit (credit b a m) a n = credit b a (m + n) := by
  simp [credit, add_assoc]

theorem credit_eq_add (n : ℤ) : credit b a n = b + Pi.single a n := by
  funext c
  by_cases hc : c = a
  · subst c
    simp
  · simp [hc]

theorem total_credit [Fintype α] (n : ℤ) : total (credit b a n) = total b + n := by
  rw [credit_eq_add]
  simp [total, Finset.sum_add_distrib]

theorem total_debit [Fintype α] (n : ℤ) : total (debit b a n) = total b - n := by
  rw [debit, total_credit, sub_eq_add_neg]

end

variable {b : Ledger α} {a : α} {n : ℤ}

theorem NonNeg.credit (h : NonNeg b) (ha : 0 ≤ b a + n) : NonNeg (credit b a n) := by
  intro c
  by_cases hc : c = a
  · subst c
    rw [credit_self]
    exact ha
  rw [credit_of_ne hc]
  exact h c

theorem nonNeg_credit_iff (h : NonNeg b) : NonNeg (credit b a n) ↔ 0 ≤ b a + n := by
  refine ⟨fun hc => ?_, fun ha => h.credit ha⟩
  have ha := hc a
  rw [credit_self] at ha
  exact ha

theorem NonNeg.credit_of_nonneg (h : NonNeg b) (a : α) (hn : 0 ≤ n) : NonNeg (Balances.credit b a n) :=
  h.credit (add_nonneg (h a) hn)

theorem NonNeg.debit (h : NonNeg b) (ha : n ≤ b a) : NonNeg (debit b a n) :=
  h.credit (by linarith)

theorem Moves.nonNeg {c} (hm : Moves b c) (h : NonNeg b) : NonNeg c := by
  induction hm with
  | refl => exact h
  | transfer _ hn hle ih => exact (ih.debit hle).credit_of_nonneg _ hn
  | @close c source target _ ih =>
    intro a
    by_cases ha : a = source
    · subst a
      rw [Function.update_self]
    rw [Function.update_of_ne ha]
    exact ih.credit_of_nonneg target (ih source) a

/-- Two debits leave nobody in debt exactly when each payer covers its own part
and a payer of both parts covers the sum. -/
theorem nonNeg_debit_debit (h : NonNeg b) {c : α} {m : ℤ} (hma : m ≤ b a) (hnc : n ≤ b c) :
    NonNeg (debit (debit b a m) c n) ↔ ¬ (a = c ∧ b c < m + n) := by
  by_cases hac : a = c
  · subst c
    constructor
    · rintro hd ⟨_, hlt⟩
      have ha := hd a
      rw [debit_self, debit_self] at ha
      linarith
    intro hlt
    apply (h.debit hma).debit
    rw [debit_self]
    have hle := not_lt.mp (fun hl => hlt ⟨rfl, hl⟩)
    linarith
  refine ⟨fun _ hc => hac hc.1, fun _ => (h.debit hma).debit ?_⟩
  rw [debit_of_ne (Ne.symm hac)]
  exact hnc

end Geth.Lib.Balances
