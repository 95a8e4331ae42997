import Geth.Vm.Termination
import Geth.State.Ledger

namespace Geth.Vm.Transfers

open Lib.BigEndian Lib.Balances Common.Basic State.Journal State.Revert State.Snapshots State.Ledger
open Machine Calls Effects Executions Frames
open SstoreGas (Placed)

variable {w : Prop} {env : Env} {run : Run} {evm : Evm} {caller : ContractRef} {addr : Address}
  {input : Bytes} {gas : UInt64} {value : ℤ} {r : Ran} (db : StateDB)

def paid (env : Env) (db : StateDB) (caller addr : Address) (value : ℤ) : StateDB :=
  let db := db.snapshot.2
  let db := if db.exist env.crypto env.backend addr then db
    else db.createAccount env.crypto env.backend addr
  transfer env db caller addr value

/-- The code of the callee, which is not run when it is empty. -/
def callee (run : Run) (caller : ContractRef) (addr : Address) (input : Bytes) (gas : UInt64)
    (value : ℤ) (evm : Evm) (code : Bytes) : Except Stop Ran :=
  if code = [] then .ok ⟨[], none, gas, evm⟩
  else run evm (newContract caller addr value gas code input) false

/-- What a call does: it is refused, it ends at once because there is nothing to call or to
move, or the value is moved and the callee runs. -/
theorem call_cases (h : call run env evm caller addr input gas value = .ok r) :
    (r.evm = evm ∧ (r.err = none → env.noRecursion ∧ 0 < evm.depth)) ∨
    (r.err = none ∧ value = 0 ∧ r.evm = { evm with db := evm.db.snapshot.2 }) ∨
    ((value ≠ 0 → canTransfer env evm.db caller.address value = true) ∧ ∃ r₀,
      executing env { evm with db := paid env evm.db caller.address addr value } addr input gas
        (callee run caller addr input gas value) = .ok r₀ ∧
      finish env evm.db.snapshot.1 r₀ = .ok r) := by
  rw [call] at h
  cases hrefuse : refusal env evm (decide (0 < evm.depth)) caller.address addr with
  | some err =>
    rw [hrefuse] at h
    cases h
    refine .inl ⟨rfl, fun hnone => ?_⟩
    dsimp only at hnone
    subst hnone
    rw [refusal] at hrefuse
    split at hrefuse
    · assumption
    split at hrefuse
    · cases hrefuse
    split at hrefuse
    · cases hrefuse
    · cases hrefuse
  | none =>
    rw [hrefuse] at h
    dsimp only at h
    split at h
    next =>
      cases h
      exact .inl ⟨rfl, fun hnone => absurd hnone (by simp)⟩
    next hcover =>
      split at h
      next hping =>
        cases h
        exact .inr (.inl ⟨rfl, hping.2.2.2, rfl⟩)
      next =>
        obtain ⟨r₀, hrun, hfinish⟩ := bind_eq_ok.mp h
        refine .inr (.inr ⟨fun hvalue => ?_, r₀, hrun, hfinish⟩)
        by_contra hnot
        exact hcover ⟨hvalue, by simpa using hnot⟩

theorem finish_succeeded {snapshot : ℕ} {r₀ : Ran} (h : finish env snapshot r₀ = .ok r)
    (hnone : r.err = none) : r = r₀ := by
  rw [finish] at h
  cases hr : r₀.err with
  | none =>
    rw [hr] at h
    exact (Except.ok.inj h).symm
  | some err =>
    rw [hr] at h
    obtain ⟨db, -, h⟩ := bind_eq_ok.mp h
    cases h
    cases hnone

theorem ledger_transfer (sender recipient : Address) (amount : ℤ) :
    ledger env.crypto env.backend (Calls.transfer env db sender recipient amount) =
      Lib.Balances.transfer (ledger env.crypto env.backend db) sender recipient amount := by
  rw [Calls.transfer, ledger_addBalance, ledger_subBalance]
  rfl

theorem ledger_paid (caller addr : Address) (value : ℤ) :
    ledger env.crypto env.backend (paid env db caller addr value) =
      Lib.Balances.transfer (ledger env.crypto env.backend db) caller addr value := by
  rw [paid, ledger_transfer]
  split
  · exact congrArg (Lib.Balances.transfer · caller addr value) (ledger_fields rfl rfl)
  rw [ledger_createAccount]
  exact congrArg (Lib.Balances.transfer · caller addr value) (ledger_fields rfl rfl)

section

variable (hC : AddressesDistinct env.crypto)
include hC

theorem extends_paid (db : StateDB) (caller addr : Address) (value : ℤ) :
    Extends env.crypto env.backend db.snapshot.2 (paid env db caller addr value) := by
  have hpaid : ∀ db : StateDB, Extends env.crypto env.backend db
      (Calls.transfer env db caller addr value) := fun db =>
    (extends_subBalance hC value).trans (extends_addBalance hC value)
  rw [paid]
  split
  · exact hpaid _
  · exact (extends_createAccount hC).trans (hpaid _)

theorem finish_failed {r₀ : Ran} (hext : Extends env.crypto env.backend evm.db.snapshot.2 r₀.evm.db)
    (h : finish env evm.db.snapshot.1 r₀ = .ok r) (herr : r.err ≠ none) :
    Same env.crypto env.backend r.evm.db evm.db := by
  rw [finish] at h
  cases hr : r₀.err with
  | none =>
    rw [hr] at h
    cases h
    exact absurd hr herr
  | some err =>
    obtain ⟨db, hdb, hsame⟩ := (hext.after evm.db (After.start evm.db)).revert_self hC
    have hrevert : r₀.evm.db.revertToSnapshot env.crypto env.backend evm.db.snapshot.1 = .ok db := hdb
    rw [hr] at h
    dsimp only at h
    rw [hrevert] at h
    cases h
    exact hsame

theorem call_failed {limit : ℕ} (hruns : Runs w env run limit) (hgas : gas.toNat < limit)
    (hp : Placed evm.db.accessList) (h : call run env evm caller addr input gas value = .ok r)
    (herr : r.err ≠ none) :
    ledger env.crypto env.backend r.evm.db = ledger env.crypto env.backend evm.db := by
  rcases call_cases h with ⟨hevm, -⟩ | ⟨hnone, -⟩ | ⟨-, r₀, hrun, hfinish⟩
  · rw [hevm]
  · exact absurd hnone herr
  have hstart := extends_paid hC evm.db caller.address addr value
  have hplaced := hstart.placed hp
  have hexec := @executing_spec w env evm.readOnly
    { evm with db := paid env evm.db caller.address addr value } gas hC hplaced addr input
    (callee run caller addr input gas value) addr (fun evm' code hp' hflag => by
      rw [callee]
      split
      · exact ⟨Nat.le_refl _, .refl evm'⟩
      · exact @runs_contract w env evm gas run limit hruns hgas _ rfl evm' hp' hflag)
  rw [hrun] at hexec
  exact ledger_same (finish_failed hC (hstart.trans hexec.2.extended) hfinish herr)

end

end Geth.Vm.Transfers
