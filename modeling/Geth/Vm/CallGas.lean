import Geth.Vm.Termination

namespace Geth.Vm.CallGas

open Lib.BigEndian Common.Basic State.Journal State.Revert Machine GasTable Metering Interpreter UInt64 Except
open Termination (sampleEnv sampleEvm)

inductive CallKind
  | call
  | callCode
  | delegateCall
  | staticCall
  deriving DecidableEq

namespace CallKind

def gasFunc : CallKind → GasFunc
  | call => gasCallEIP2929
  | callCode => gasCallCodeEIP2929
  | delegateCall => gasDelegateCallEIP2929
  | staticCall => gasStaticCallEIP2929

/-- The exact charges for an account that is created and for a value that is moved. -/
def charges (kind : CallKind) (env : Env) (evm : Evm) (stack : List Word) : ℕ :=
  match kind with
  | call => (if isNewAccount env evm stack then 25000 else 0) + if back stack 2 ≠ 0 then 9000 else 0
  | callCode => if back stack 2 ≠ 0 then 9000 else 0
  | delegateCall => 0
  | staticCall => 0

end CallKind

/-- The exact fee for the memory up to a size, less what is paid for already. -/
def expansion (memory : Memory) (memorySize : UInt64) : ℕ :=
  fee (max (memory.store.length / 32) ((memorySize.toNat + 31) / 32)) - fee (memory.store.length / 32)

def surcharge (evm : Evm) (stack : List Word) : ℕ :=
  if evm.db.accessList.containsAddress (back stack 1).bytes20 then 0 else 2500

section

variable {m : Memory} {n c : UInt64}

theorem memoryGasCost_exact (hm : Sized m) (hc : (memoryGasCost m n).1 = .ok c) :
    c.toNat = expansion m n ∧ c.toNat < 2 ^ 56 := by
  rw [expansion]
  obtain ⟨rfl, -, hle⟩ | ⟨hlt, hw, -, hdiff, -⟩ := memoryGasCost_cases hm hc
  · rw [max_eq_left hle]
    simp
  have hsmall := fee_lt hw
  rw [max_eq_right hlt.le]
  omega

end

section

def share (rest : ℕ) : ℕ := rest - rest / 64

variable {availableGas base gas : UInt64} {callCost : Word}

theorem callGas_exact (hbase : base.toNat ≤ availableGas.toNat)
    (h : callGas true availableGas base callCost = .ok gas) :
    gas.toNat = min callCost.toNat (share (availableGas.toNat - base.toNat)) := by
  rw [callGas_eq h, UInt64.toNat_sub_of_le _ _ (le_iff_toNat_le.mpr hbase), share]

end

section

variable {env : Env} {evm : Evm} {scope : Scope} {n cost : UInt64} {m : Metered}

theorem callVariant_exact (hE : env.rules.isEIP150 = true) (hm : Sized scope.memory)
    {due} (hdue : (due env evm scope.stack).toNat < 2 ^ 16)
    (h : callVariant due env evm scope n = .ok m) (hcost : m.cost = .ok cost) :
    let base := (due env evm scope.stack).toNat + expansion scope.memory n
    cost.toNat = base + m.evm.callGasTemp.toNat ∧ cost.toNat + 2 ^ 57 < 2 ^ 64 ∧
      (base ≤ scope.contract.gas.toNat → m.evm.callGasTemp.toNat =
          min (back scope.stack 0).toNat (share (scope.contract.gas.toNat - base))) := by
  rw [callVariant] at h
  dsimp only at h
  cases hfee : (memoryGasCost scope.memory n).1 with
  | error e =>
    rw [hfee] at h
    cases h
    cases hcost
  | ok memoryFee =>
    obtain ⟨hexact, hsmall⟩ := memoryGasCost_exact hm hfee
    have hplus : ((ok memoryFee : Except VmError UInt64) >>= plus (due env evm scope.stack)) =
      plus (due env evm scope.stack) memoryFee := rfl
    rw [hfee, hplus] at h
    cases hbase : plus (due env evm scope.stack) memoryFee with
    | error e =>
      rw [hbase] at h
      cases h
      cases hcost
    | ok base =>
      have hsum := plus_eq_ok hbase
      rw [hbase, hE] at h
      dsimp only at h
      cases hgas : callGas true scope.contract.gas base (back scope.stack 0) with
      | error e =>
        rw [hgas] at h
        cases h
        cases hcost
      | ok temp =>
        rw [hgas] at h
        cases h
        have htotal := plus_eq_ok hcost
        have htemp := callGas_spec hgas
        dsimp only
        refine ⟨by omega, by omega, fun hle => ?_⟩
        rw [← hexact, ← hsum] at hle ⊢
        exact callGas_exact hle hgas

/-- The machine while the old calculator runs: the account is on the access list. -/
def accessed (evm : Evm) (stack : List Word) : Evm :=
  { evm with db := (accessAddress evm.db (back stack 1).bytes20).2 }

theorem getStateObject_accessAddress (db : StateDB) (addr a : Address) :
    ((accessAddress db addr).2.getStateObject env.crypto env.backend a).1 =
      (db.getStateObject env.crypto env.backend a).1 := by
  have hfields : (accessAddress db addr).2.stateObjects = db.stateObjects ∧
      (accessAddress db addr).2.trie = db.trie := by
    simp only [accessAddress, StateDB.addAddressToAccessList]
    split
    · exact ⟨rfl, rfl⟩
    · split <;> exact ⟨rfl, rfl⟩
  have hlookup : lookup env.crypto env.backend (accessAddress db addr).2 a =
      lookup env.crypto env.backend db a :=
    lookup_congr (congrFun hfields.1 a) hfields.2
  change Option.filter _ (StateDB.getDeletedStateObject _ _ _ _).1 =
    Option.filter _ (StateDB.getDeletedStateObject _ _ _ _).1
  rw [getDeletedStateObject_fst, getDeletedStateObject_fst, hlookup]

theorem isNewAccount_accessed (stack : List Word) :
    isNewAccount env (accessed evm stack) stack = isNewAccount env evm stack := by
  simp only [isNewAccount, StateDB.isEmpty, StateDB.exist, accessed, getStateObject_accessAddress]

theorem coldCost_toNat : coldCost.toNat = 2500 := by decide

/-- The wrapper takes the surcharge from the gas and adds it to the cost, which does not
wrap around. -/
theorem makeCallVariant_exact (hE : env.rules.isEIP150 = true) (hm : Sized scope.memory) {due}
    (hdue : (due env (accessed evm scope.stack) scope.stack).toNat < 2 ^ 16)
    (h : makeCallVariantGasCallEIP2929 (callVariant due) env evm scope n = .ok m)
    (hcost : m.cost = .ok cost) :
    let base := (due env (accessed evm scope.stack) scope.stack).toNat + expansion scope.memory n
    let cold := surcharge evm scope.stack
    cost.toNat = base + cold + m.evm.callGasTemp.toNat ∧ (base + cold ≤ scope.contract.gas.toNat →
        m.evm.callGasTemp.toNat =
          min (back scope.stack 0).toNat (share (scope.contract.gas.toNat - base - cold))) := by
  rw [makeCallVariantGasCallEIP2929] at h
  dsimp only at h
  change (if (evm.db.accessList.containsAddress (back scope.stack 1).bytes20) = true then
      callVariant due env (accessed evm scope.stack) scope n
    else _) = _ at h
  rw [surcharge]
  split at h
  next hwarm =>
    obtain ⟨hsum, -, hshare⟩ := callVariant_exact hE hm hdue h hcost
    rw [if_pos hwarm]
    exact ⟨hsum, hshare⟩
  next hcold =>
    rw [if_neg hcold]
    split at h
    next =>
      cases h
      cases hcost
    next hpaid =>
      obtain ⟨r, hold, hr⟩ := bind_eq_ok.mp h
      cases hgas : r.cost with
      | error e =>
        rw [hgas] at hr
        cases hr
        rw [hgas] at hcost
        cases hcost
      | ok gas =>
        rw [hgas] at hr
        cases hr
        have hcost := ok.inj hcost
        rw [← hcost]
        obtain ⟨hsum, hroom, hshare⟩ := @callVariant_exact env (accessed evm scope.stack)
          { scope with contract := { scope.contract with gas := scope.contract.gas - coldCost } }
          n gas r hE hm due hdue hold hgas
        have hpaid' : coldCost ≤ scope.contract.gas := UInt64.not_lt.mp hpaid
        have hleft := UInt64.toNat_sub_of_le _ _ hpaid'
        have htwo := coldCost_toNat
        rw [htwo] at hleft
        dsimp only at hsum hshare ⊢
        generalize scope.contract.gas - coldCost = left at hshare hleft
        constructor
        · rw [UInt64.toNat_add, htwo]
          omega
        intro hle
        have hrest := hshare (by omega)
        rw [hleft, Nat.sub_right_comm] at hrest
        exact hrest

end

/-- The four call instructions. The cost is the exact sum; when it can be paid, the callee gets
the operand or its share of what is left, and the caller keeps the rest. -/
theorem callGas_sum_exact (kind : CallKind) {env : Env} (hE : env.rules.isEIP150 = true)
    (evm : Evm) (scope : Scope) (hm : Sized scope.memory) (n : UInt64) {m : Metered} {cost : UInt64}
    (h : kind.gasFunc env evm scope n = .ok m) (hcost : m.cost = .ok cost) :
    let base := kind.charges env evm scope.stack + expansion scope.memory n
    let cold := surcharge evm scope.stack
    let r := scope.contract.gas.toNat - base - cold
    let c := m.evm.callGasTemp.toNat
    cost.toNat = base + cold + c ∧ ∀ contract, useGas scope.contract cost = some contract →
        base + cold ≤ scope.contract.gas.toNat ∧ c ≤ r - r / 64 ∧
        ((back scope.stack 0).toNat ≤ r - r / 64 → c = (back scope.stack 0).toNat) ∧
        r / 64 ≤ contract.gas.toNat := by
  have hkind : ∃ due : Env → Evm → List Word → UInt64,
      kind.gasFunc = makeCallVariantGasCallEIP2929 (callVariant due) ∧
      (due env (accessed evm scope.stack) scope.stack).toNat = kind.charges env evm scope.stack ∧
      kind.charges env evm scope.stack < 2 ^ 16 := by
    cases kind with
    | call =>
      refine ⟨_, rfl, ?_, ?_⟩
      · rw [isNewAccount_accessed, CallKind.charges]
        split <;> split <;> rfl
      rw [CallKind.charges]
      split <;> split <;> norm_num
    | callCode =>
      refine ⟨_, rfl, ?_, ?_⟩
      · rw [CallKind.charges]
        split <;> rfl
      rw [CallKind.charges]
      split <;> norm_num
    | delegateCall => exact ⟨_, rfl, rfl, by norm_num [CallKind.charges]⟩
    | staticCall => exact ⟨_, rfl, rfl, by norm_num [CallKind.charges]⟩
  obtain ⟨due, hfunc, hdue, hsmall⟩ := hkind
  rw [hfunc] at h
  obtain ⟨hsum, hshare⟩ := makeCallVariant_exact hE hm (by rw [hdue]; exact hsmall) h hcost
  rw [hdue] at hsum hshare
  refine ⟨hsum, fun contract hpay => ?_⟩
  rw [useGas] at hpay
  split at hpay
  next => cases hpay
  next hless =>
    cases hpay
    have hle : cost ≤ scope.contract.gas := UInt64.not_lt.mp hless
    have hleN := le_iff_toNat_le.mp hle
    have htemp := hshare (by omega)
    rw [UInt64.toNat_sub_of_le _ _ hle, hsum]
    rw [share] at htemp
    refine ⟨by omega, by omega, fun hop => ?_, by omega⟩
    rw [htemp, min_eq_left hop]

/-- A call of a cold, empty account with a value, which asks for more gas than there is. -/
def sampleScope : Scope where
  pc := 0
  stack := [0xffffffffff, 0xaa, 1, 0, 32, 0, 0]
  memory := Memory.new
  contract := ⟨zeros 20, zeros 20, [], [], 100000, 0⟩

theorem callGas_sum_exact_sample :
    ∃ m, gasCallEIP2929 sampleEnv sampleEvm sampleScope 32 = .ok m ∧ m.cost = .ok 99008 ∧
      (99008 : ℕ) = 25000 + 9000 + 3 + 2500 + m.evm.callGasTemp.toNat := by
  obtain ⟨m, hm, htest⟩ := exists_ok_of_any (x := gasCallEIP2929 sampleEnv sampleEvm sampleScope 32)
    (p := fun m => m.cost.toOption == some 99008) (by decide +kernel)
  have hcost : m.cost = .ok 99008 := by
    cases hc : m.cost with
    | error e => simp [hc, Except.toOption] at htest
    | ok c => simpa [hc, Except.toOption] using htest
  have hexact := (callGas_sum_exact .call rfl sampleEvm sampleScope Sized.new 32 hm hcost).1
  have hbase : CallKind.charges .call sampleEnv sampleEvm sampleScope.stack = 25000 + 9000 ∧
      expansion sampleScope.memory 32 = 3 ∧ surcharge sampleEvm sampleScope.stack = 2500 := by
    decide +kernel
  rw [hbase.1, hbase.2.1, hbase.2.2] at hexact
  exact ⟨m, hm, hcost, hexact⟩

end Geth.Vm.CallGas
