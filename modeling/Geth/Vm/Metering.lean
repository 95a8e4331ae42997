import Geth.Vm.Effects
import Geth.Vm.SstoreMetering

namespace Geth.Vm.Metering

open Lib.BigEndian Common.Basic State.Journal State.Revert Machine GasTable Calls
open Effects UInt64 Nat Except
open SstoreGas (Placed Schedule Prepared RefundCall SstoreError Refused sstoreCost gasSStore_spec
  applyCalls_spec readOriginal_spec prepared_getState value committed)
open SstoreMetering (Fair fair_of_mem cost_toNat)

section

def fee (words : ℕ) : ℕ := words * 3 + words * words / 512

theorem fee_mono {v w : ℕ} (h : v ≤ w) : fee v ≤ fee w := by
  have hsquare : v * v / 512 ≤ w * w / 512 := Nat.div_le_div_right (Nat.mul_le_mul h h)
  rw [fee, fee]
  omega

theorem fee_lt {w : ℕ} (h : w < 2 ^ 32) : fee w < 2 ^ 56 := by
  have hsquare : w * w / 512 ≤ 2 ^ 32 * 2 ^ 32 / 512 :=
    Nat.div_le_div_right (Nat.mul_le_mul h.le h.le)
  rw [fee]
  omega

/-- Memory that was paid for: whole words, and the fee that was noted is theirs. -/
structure Sized (m : Memory) : Prop where
  words : ∃ w < 2 ^ 32, m.store.length = 32 * w ∧ m.lastGasCost.toNat = fee w

theorem Sized.new : Sized Memory.new := ⟨0, by norm_num, rfl, rfl⟩

theorem Sized.congr {m m'} (h : Sized m) (hlen : m'.store.length = m.store.length)
    (hcost : m'.lastGasCost = m.lastGasCost) : Sized m' := by
  obtain ⟨w, hw, hl, hc⟩ := h.words
  exact ⟨w, hw, hlen.trans hl, by rw [hcost]; exact hc⟩

theorem Sized.length_lt {m} (h : Sized m) : m.store.length < 2 ^ 37 := by
  obtain ⟨w, hw, hl, _⟩ := h.words
  omega

def grown (m : Memory) (memorySize : UInt64) : Memory :=
  if 0 < memorySize then m.resize memorySize else m

theorem grown_zero (m : Memory) : grown m 0 = m := if_neg (by decide)

theorem length_grown (m : Memory) (n : UInt64) : (grown m n).store.length = max m.store.length n.toNat := by
  rw [grown]
  split
  · rw [Memory.resize, List.length_append, List.length_replicate]
    omega
  next h =>
    have hzero : n.toNat = 0 := by
      rw [lt_iff_toNat_lt] at h
      exact Nat.eq_zero_of_not_pos h
    omega

theorem lastGasCost_grown (m : Memory) (n : UInt64) : (grown m n).lastGasCost = m.lastGasCost := by
  rw [grown]
  split <;> rfl

theorem totalFee_toNat {words} (h : words.toNat < 2 ^ 32) : (totalFee words).toNat = fee words.toNat := by
  have hlt := fee_lt h
  have hsquare : words.toNat * words.toNat < 2 ^ 64 :=
    lt_of_lt_of_eq (mul_lt_mul'' h h) (by norm_num)
  rw [fee] at hlt ⊢
  rw [totalFee, UInt64.toNat_add, UInt64.toNat_mul, UInt64.toNat_div, UInt64.toNat_mul]
  change (words.toNat * 3 % 2 ^ 64 + words.toNat * words.toNat % 2 ^ 64 / 512) % 2 ^ 64 = _
  rw [mod_eq_of_lt hsquare]
  omega

theorem toWordSize_toNat {n} (hn : n.toNat ≤ 0x1FFFFFFFE0) :
    (toWordSize n).toNat = (n.toNat + 31) / 32 := by
  have hsmall : ¬ 0xFFFFFFFFFFFFFFFF - 31 < n := by
    rw [lt_iff_toNat_lt]
    have hbound : (0xFFFFFFFFFFFFFFFF - 31 : UInt64).toNat = 2 ^ 64 - 32 := by decide
    omega
  rw [toWordSize, if_neg hsmall, UInt64.toNat_div, UInt64.toNat_add]
  change (n.toNat + 31) % 2 ^ 64 / 32 = _
  omega

variable {m : Memory} {n c : UInt64}

/-- Nothing is due for memory that is there, and the difference of the fees for more of it. -/
theorem memoryGasCost_cases (hm : Sized m) (hc : (memoryGasCost m n).1 = .ok c) :
    let v := m.store.length / 32
    let w := (n.toNat + 31) / 32
    c = 0 ∧ (memoryGasCost m n).2 = m ∧ w ≤ v ∨
      v < w ∧ w < 2 ^ 32 ∧ fee v ≤ fee w ∧ c.toNat = fee w - fee v ∧
        (memoryGasCost m n).2.store = m.store ∧ (memoryGasCost m n).2.lastGasCost.toNat = fee w := by
  obtain ⟨v, hv, hlen, hcost⟩ := hm.words
  have hold : m.store.length / 32 = v := by omega
  rw [hold]
  rw [memoryGasCost] at hc ⊢
  by_cases hzero : n = 0
  · rw [if_pos hzero] at hc ⊢
    cases hc
    exact .inl ⟨rfl, rfl, by simp [hzero]⟩
  rw [if_neg hzero] at hc ⊢
  by_cases hbig : 0x1FFFFFFFE0 < n
  · rw [if_pos hbig] at hc
    cases hc
  rw [if_neg hbig] at hc ⊢
  rw [lt_iff_toNat_lt] at hbig
  have hwords := toWordSize_toNat (Nat.le_of_not_lt hbig)
  have hmax : (0x1FFFFFFFE0 : UInt64).toNat = 0x1FFFFFFFE0 := rfl
  set w := (n.toNat + 31) / 32 with hw
  have hlt : w < 2 ^ 32 := by omega
  have hsize : (toWordSize n * 32).toNat = w * 32 := by
    rw [UInt64.toNat_mul, hwords]
    change w * 32 % 2 ^ 64 = _
    omega
  dsimp only at hc ⊢
  rw [hsize] at hc ⊢
  by_cases hgrow : m.store.length < w * 32
  · rw [if_pos hgrow] at hc ⊢
    cases hc
    have hfee : (totalFee (toWordSize n)).toNat = fee w := by
      rw [totalFee_toNat (by omega), hwords]
    have hmono : fee v ≤ fee w := fee_mono (by omega)
    have hle : m.lastGasCost ≤ totalFee (toWordSize n) := by
      rw [le_iff_toNat_le, hfee, hcost]
      exact hmono
    refine .inr ⟨by omega, hlt, hmono, ?_, rfl, hfee⟩
    rw [UInt64.toNat_sub_of_le _ _ hle, hfee, hcost]
  rw [if_neg hgrow] at hc ⊢
  cases hc
  exact .inl ⟨rfl, rfl, by omega⟩

theorem memoryGasCost_spec (hm : Sized m) (hn : 32 ∣ n.toNat) (hc : (memoryGasCost m n).1 = .ok c) :
    c.toNat < 2 ^ 56 ∧ Sized (grown (memoryGasCost m n).2 n) := by
  obtain ⟨v, hv, hlen, hcost⟩ := hm.words
  obtain ⟨rfl, hsame, hle⟩ | ⟨hlt, hw, -, hdiff, hstore, hfee⟩ := memoryGasCost_cases hm hc
  · rw [hsame]
    refine ⟨by norm_num, hm.congr ?_ (lastGasCost_grown m n)⟩
    rw [length_grown]
    omega
  have hsmall := fee_lt hw
  refine ⟨by omega, _, hw, ?_, ?_⟩
  · rw [length_grown, hstore]
    omega
  · rw [lastGasCost_grown, hfee]

end

theorem plus_eq_ok {x y c} (h : plus x y = .ok c) : c.toNat = x.toNat + y.toNat := by
  rw [plus, safeAdd] at h
  by_cases hlt : x + y < x
  · rw [if_pos hlt] at h
    cases h
  rw [if_neg hlt] at h
  cases h
  rw [lt_iff_toNat_lt, UInt64.toNat_add] at hlt
  rw [UInt64.toNat_add]
  have hx := x.toNat_lt
  have hy := y.toNat_lt
  omega

section

def isCall (op : UInt8) : Bool := decide (op ∈ [0xF1, 0xF2, 0xF4, 0xFA])

def isValued (op : UInt8) : Bool := decide (op ∈ [0xF1, 0xF2])

def usesMemory (op : UInt8) : Bool :=
  decide (op ∈ [0x20, 0x37, 0x39, 0x3C, 0x3E, 0x51, 0x52, 0x53, 0xA0, 0xA1, 0xA2, 0xA3, 0xA4, 0xF0, 0xF1, 0xF2,
    0xF3, 0xF4, 0xF5, 0xFA, 0xFD])

def isWrite (op : UInt8) : Bool :=
  decide (op ∈ [0x55, 0xA0, 0xA1, 0xA2, 0xA3, 0xA4, 0xF0, 0xF5, 0xFF])

/-- The gas that a callee gets beyond what the contract has left. -/
def extra (op : UInt8) (evm : Evm) (stack : List Word) : ℕ :=
  if isCall op then
    evm.callGasTemp.toNat + if isValued op ∧ back stack 2 ≠ 0 then callStipend.toNat else 0
  else 0

end

/-- What the interpreter needs of a gas function: it pays for the memory and for
the gas of the callee. -/
def Meters (w : Prop) (env : Env) (op : UInt8) (f : GasFunc) : Prop :=
  ∀ evm scope n, Placed evm.db.accessList → Sized scope.memory → 32 ∣ n.toNat →
    (usesMemory op = false → n = 0) → (isWrite op = true → ¬ Quiet w env evm.readOnly evm.db) →
    Settles (Quiet w env evm.readOnly evm.db) (Fit env evm.db scope.contract.address)
      (fun m => Keeps w env evm.readOnly evm m.evm ∧ ∀ cost, m.cost = .ok cost →
        Sized (grown m.memory n) ∧ extra op m.evm scope.stack ≤ cost.toNat)
      (f env evm scope n)

section

variable {w : Prop} {env : Env} {op : UInt8}

theorem extra_of_not_call (h : isCall op = false) (evm : Evm) (stack : List Word) : extra op evm stack = 0 := by
  rw [extra, h]
  rfl

section

variable (hcall : isCall op = false)
include hcall

theorem meters_withMemory
    (f : List Word → UInt64 → Except VmError UInt64) : Meters w env op (withMemory f) := by
  intro evm scope n _ hm hn _ _
  refine ⟨.refl evm, fun cost hcost => ?_⟩
  obtain ⟨gas, hgas, _⟩ := bind_eq_ok.mp hcost
  rw [extra_of_not_call hcall]
  exact ⟨(memoryGasCost_spec hm hn hgas).2, zero_le _⟩

theorem meters_pureMemory : Meters w env op pureMemoryGascost :=
  meters_withMemory hcall _

theorem meters_perWord (stackpos : ℕ) (rate : UInt64) : Meters w env op (perWord stackpos rate) :=
  meters_withMemory hcall _

section

variable (hmemory : usesMemory op = false)
include hmemory

theorem meters_light {f}
    (hf : ∀ evm scope n, Placed evm.db.accessList → (isWrite op = true → ¬ Quiet w env evm.readOnly evm.db) →
      Settles (Quiet w env evm.readOnly evm.db) (Fit env evm.db scope.contract.address)
        (fun m => Keeps w env evm.readOnly evm m.evm ∧ m.memory = scope.memory) (f env evm scope n)) :
    Meters w env op f := by
  intro evm scope n hp hm _ hzero hwrite
  refine (hf evm scope n hp hwrite).mono (fun m hkeeps => ⟨hkeeps.1, fun cost _ => ?_⟩) id id
  rw [hzero hmemory, grown_zero, hkeeps.2, extra_of_not_call hcall]
  exact ⟨hm, zero_le _⟩

theorem meters_costing {f} (hf : ∀ evm scope, Extends env.crypto env.backend evm.db (f env evm scope).2 ∧
      Unmoved env.crypto env.backend evm.db (f env evm scope).2) : Meters w env op (costing f) :=
  meters_light hcall hmemory fun evm scope _ _ _ =>
    ⟨.db (hf evm scope).1 fun _ => (hf evm scope).2, rfl⟩

theorem meters_gasExp (expByte : UInt64) : Meters w env op (gasExp expByte) :=
  meters_costing hcall hmemory fun evm _ => ⟨.refl evm.db, .refl evm.db⟩

end

end

variable (hC : AddressesDistinct env.crypto)
include hC

theorem accessAddress_spec (db : StateDB) (addr : Address) :
    Extends env.crypto env.backend db (accessAddress db addr).2 ∧
      Unmoved env.crypto env.backend db (accessAddress db addr).2 := by
  rw [accessAddress]
  split
  · exact ⟨.refl db, .refl db⟩
  · exact ⟨extends_addAddress hC db addr, unmoved_addAddress db addr⟩

section

variable (hcall : isCall op = false)
include hcall

theorem meters_accountCheck (hmemory : usesMemory op = false) : Meters w env op gasEip2929AccountCheck :=
  meters_costing hcall hmemory fun evm _ => accessAddress_spec hC evm.db _

theorem meters_gasSLoad (hmemory : usesMemory op = false) : Meters w env op gasSLoadEIP2929 := by
  refine meters_light hcall hmemory fun evm scope n hp _ => ?_
  rw [gasSLoadEIP2929]
  split
  · exact ⟨.refl evm, rfl⟩
  obtain ⟨db, hdb, hext, hunm⟩ := addSlot_ok hC hp scope.contract.address (back scope.stack 0).bytes32
  rw [hdb]
  exact ⟨.db hext fun _ => hunm, rfl⟩

theorem meters_extCodeCopy : Meters w env op gasExtCodeCopyEIP2929 := by
  intro evm scope n hp hm hn hzero hwrite
  have hold : Meters w env op gasExtCodeCopy := meters_perWord hcall 3 3
  rw [gasExtCodeCopyEIP2929]
  refine (hold evm scope n hp hm hn hzero hwrite).bind ?_
  rintro ⟨cost, evm', memory⟩ ⟨hkeeps, hcost⟩
  cases cost with
  | error e => exact ⟨hkeeps, hcost⟩
  | ok gas =>
    have hspec := accessAddress_spec hC evm'.db (back scope.stack 0).bytes20
    refine ⟨hkeeps.trans (.db hspec.1 fun _ => hspec.2), fun cost' _ => ?_⟩
    obtain ⟨hsized, _⟩ := hcost gas rfl
    rw [extra_of_not_call hcall]
    exact ⟨hsized, zero_le _⟩

omit hcall in
theorem extends_addRefund (db : StateDB) (gas : UInt64) :
    Extends env.crypto env.backend db (db.addRefund gas) ∧
      Unmoved env.crypto env.backend db (db.addRefund gas) :=
  ⟨.of_reversible hC (reversible_addRefund db gas) ⟨rfl, rfl⟩, .of_fields rfl rfl rfl rfl⟩

theorem meters_gasSelfdestruct (hmemory : usesMemory op = false) : Meters w env op gasSelfdestruct := by
  refine meters_costing hcall hmemory fun evm scope => ?_
  dsimp only
  split
  · exact ⟨.refl _, .refl _⟩
  · exact extends_addRefund hC evm.db 24000

theorem meters_makeSelfdestruct (hmemory : usesMemory op = false)
    (refundsEnabled : Bool) : Meters w env op (makeSelfdestructGasFn refundsEnabled) := by
  refine meters_costing hcall hmemory fun evm scope => ?_
  have haccess := accessAddress_spec hC evm.db (back scope.stack 0).bytes20
  dsimp only
  split
  · have hrefund := extends_addRefund hC (accessAddress evm.db (back scope.stack 0).bytes20).2 24000
    exact ⟨haccess.1.trans hrefund.1, haccess.2.trans hrefund.2⟩
  · exact haccess

end

end

section

variable {w : Prop} {env : Env} {op : UInt8} (hC : AddressesDistinct env.crypto)
include hC

theorem extends_prepared {db db'} (h : Prepared env.crypto env.backend db db') :
    Extends env.crypto env.backend db db' :=
  ⟨fun _ h₀ => h₀.reversible hC h.reversible, fun _ => h.placed, h.slots.trie, h.listed⟩

section

variable (hcall : isCall op = false) (hmemory : usesMemory op = false) (hwrite : isWrite op = true)
include hcall hmemory hwrite

/-- The gas of a write. It is never asked for in a machine that is quiet. -/
theorem meters_meteredBy {R : Schedule} (hR : R.cold ≠ none → usesAccessList env.rules = true) :
    Meters w env op (meteredBy R) := by
  refine meters_light hcall hmemory fun evm scope n hp hnot => ?_
  have hloud := hnot hwrite
  rw [meteredBy]
  obtain ⟨e, hrefused, hgas, herr⟩ | ⟨_, herr⟩ | ⟨db, hok, _, hprep, _⟩ := gasSStore_spec hC hp R
    scope.contract.gas scope.contract.address (back scope.stack 0).bytes32 (back scope.stack 1).bytes32
  · rw [herr]
    cases hrefused with
    | sentry _ => exact ⟨.refl evm, rfl⟩
    | addressNotPresent hnone hcold =>
      refine ⟨hloud, fun hfit => ?_⟩
      rw [hfit.2 (hR hcold)] at hnone
      cases hnone
    | outOfGas _ => exact (hgas rfl).elim
  · rw [herr]
    exact ⟨hloud, fun _ => rfl⟩
  rw [hok]
  exact ⟨.db (extends_prepared hC hprep) fun hq => (hloud hq).elim, rfl⟩

theorem meters_gasSStore : Meters w env op gasSStore := by
  refine meters_light hcall hmemory fun evm scope n hp hnot => ?_
  have hloud := hnot hwrite
  set address := scope.contract.address
  set slot := (back scope.stack 0).bytes32
  have hread := prepared_getState (B := env.backend) hC hp address slot
  have hcurrent : (evm.db.getState env.crypto env.backend address slot).1 =
      value env.crypto env.backend evm.db address slot := rfl
  -- every change is one that a write makes
  have hdone {db : StateDB} (cost : UInt64) (h : Extends env.crypto env.backend evm.db db) :
      Settles (Quiet w env evm.readOnly evm.db) (Fit env evm.db scope.contract.address)
        (fun m : Metered => Keeps w env evm.readOnly evm m.evm ∧ m.memory = scope.memory)
        (.ok ⟨.ok cost, { evm with db }, scope.memory⟩) :=
    ⟨.db h fun hq => (hloud hq).elim, rfl⟩
  have hloaded := extends_prepared hC hread
  rw [GasTable.gasSStore]
  dsimp only
  split
  · split
    · exact hdone _ hloaded
    split
    · exact hdone _ (hloaded.trans (extends_addRefund hC _ 15000).1)
    · exact hdone _ hloaded
  obtain ⟨db, hdb, hprep, _, _⟩ := readOriginal_spec hC hread.placed address slot
    (back scope.stack 1).bytes32
  rw [hread.slots.value, hread.slots.committed] at hdb
  rw [hcurrent, hdb]
  obtain ⟨_, herr⟩ | ⟨db', hok, _, hslots, hrev, haccess⟩ := applyCalls_spec hC (sstoreCost eip1283
      (if value env.crypto env.backend evm.db address slot = (back scope.stack 1).bytes32 then
        value env.crypto env.backend evm.db address slot
      else committed env.crypto env.backend evm.db address slot)
      (value env.crypto env.backend evm.db address slot) (back scope.stack 1).bytes32).2 db
  · rw [herr]
    exact ⟨hloud, fun _ => rfl⟩
  rw [hok]
  refine hdone _ (hloaded.trans ((extends_prepared hC hprep).trans ?_))
  exact .of_reversible hC hrev ⟨hslots.trie, haccess⟩

end

end

section

variable {w : Prop} {env : Env} {op : UInt8}

variable {availableGas base gas : UInt64} {callCost : Word}

section

variable (h : callGas true availableGas base callCost = .ok gas)
include h

theorem callGas_eq : gas.toNat =
    min callCost.toNat ((availableGas - base).toNat - (availableGas - base).toNat / 64) := by
  set available := availableGas - base with havailable
  have hshare : (available - available / 64).toNat = available.toNat - available.toNat / 64 := by
    have hle : available / 64 ≤ available := by
      rw [le_iff_toNat_le, UInt64.toNat_div]
      exact div_le_self _ _
    rw [UInt64.toNat_sub_of_le _ _ hle, UInt64.toNat_div]
    rfl
  have hlt := (available - available / 64).toNat_lt
  rw [callGas, ← havailable] at h
  rw [← hshare]
  by_cases hfits : callCost.toNat < 2 ^ 64
  · have hword : callCost.uint64.toNat = callCost.toNat := toNat_ofNat_of_lt' hfits
    have hisUint : callCost.isUint64 = true := decide_eq_true hfits
    simp only [hisUint, true_and, Bool.true_eq_false, false_or, if_true] at h
    split at h
    next hless =>
      cases h
      rw [UInt64.lt_iff_toNat_lt, hword] at hless
      exact (min_eq_right hless.le).symm
    next hmore =>
      cases h
      rw [UInt64.lt_iff_toNat_lt, hword] at hmore
      rw [hword]
      exact (min_eq_left (Nat.le_of_not_lt hmore)).symm
  have hisUint : callCost.isUint64 = false := decide_eq_false hfits
  simp only [hisUint, true_and, true_or, if_true] at h
  cases h
  exact (min_eq_right (by omega)).symm

theorem callGas_spec : gas.toNat ≤ 2 ^ 64 - 2 ^ 58 := by
  have hlt := (availableGas - base).toNat_lt
  rw [callGas_eq h]
  omega

end

variable {due : Env → Evm → List Word → UInt64}

/-- The common part of the gas functions of calls: the callee's gas is paid
for, with the stipend out of what a value costs, and the cost is not close to
an overflow. -/
theorem callVariant_spec (hE : env.rules.isEIP150 = true) (hcall : isCall op = true)
    (hdue : ∀ evm stack, (if isValued op ∧ back stack 2 ≠ 0 then callStipend.toNat else 0) ≤
      (due env evm stack).toNat ∧ (due env evm stack).toNat < 2 ^ 16)
    (evm : Evm) (scope : Scope) (n : UInt64) (hm : Sized scope.memory) (hn : 32 ∣ n.toNat) :
    ∃ m, callVariant due env evm scope n = .ok m ∧ m.evm.db = evm.db ∧ Keeps w env evm.readOnly evm m.evm ∧
      ∀ cost, m.cost = .ok cost → Sized (grown m.memory n) ∧
        extra op m.evm scope.stack ≤ cost.toNat ∧ cost.toNat + 2 ^ 57 < 2 ^ 64 := by
  rw [callVariant]
  dsimp only
  cases hfee : (memoryGasCost scope.memory n).1 with
  | error e => exact ⟨_, rfl, rfl, .refl evm, fun _ h => by cases h⟩
  | ok fee =>
    obtain ⟨hsmall, hsized⟩ := memoryGasCost_spec hm hn hfee
    have hbind : (ok fee >>= plus (due env evm scope.stack)) = plus (due env evm scope.stack) fee := rfl
    rw [hbind]
    cases hbase : plus (due env evm scope.stack) fee with
    | error e => exact ⟨_, rfl, rfl, .refl evm, fun _ h => by cases h⟩
    | ok base =>
      have hsum := plus_eq_ok hbase
      obtain ⟨hlow, hhigh⟩ := hdue evm scope.stack
      dsimp only
      rw [hE]
      cases hgas : callGas true scope.contract.gas base (back scope.stack 0) with
      | error e => exact ⟨_, rfl, rfl, ⟨rfl, rfl, .refl _, fun _ => .refl _⟩, fun _ h => by cases h⟩
      | ok temp =>
        refine ⟨_, rfl, rfl, ⟨rfl, rfl, .refl _, fun _ => .refl _⟩, fun cost hcost => ?_⟩
        have htotal := plus_eq_ok hcost
        have htemp := callGas_spec hgas
        refine ⟨hsized, ?_, ?_⟩
        · rw [extra, if_pos hcall]
          change temp.toNat + _ ≤ _
          omega
        · omega

/-- What the gas function of a call asks for apart from memory and the callee's gas. -/
def Due (env : Env) (op : UInt8) (due : Env → Evm → List Word → UInt64) : Prop :=
  ∀ evm stack, (if isValued op ∧ back stack 2 ≠ 0 then callStipend.toNat else 0) ≤
    (due env evm stack).toNat ∧ (due env evm stack).toNat < 2 ^ 16

theorem due_zero (h : isValued op = false) : Due env op fun _ _ _ => 0 := by
  intro evm stack
  rw [h]
  exact ⟨le_rfl, Nat.two_pow_pos 16⟩

theorem due_value : Due env op fun _ _ stack => if back stack 2 ≠ 0 then callValueTransferGas else 0 := by
  intro evm stack
  dsimp only
  by_cases hv : back stack 2 ≠ 0
  · rw [if_pos hv]
    refine ⟨?_, by decide⟩
    split <;> decide
  rw [if_neg hv, if_neg fun h => hv h.2]
  exact ⟨le_rfl, by decide⟩

theorem due_call : Due env op fun env evm stack =>
    (if isNewAccount env evm stack then callNewAccountGas else 0) +
      if back stack 2 ≠ 0 then callValueTransferGas else 0 := by
  intro evm stack
  dsimp only
  by_cases hv : back stack 2 ≠ 0
  · rw [if_pos hv]
    constructor
    · split <;> split <;> decide
    · split <;> decide
  rw [if_neg hv, if_neg fun h => hv h.2]
  refine ⟨zero_le _, ?_⟩
  split <;> decide

theorem meters_callVariant (hE : env.rules.isEIP150 = true) (hcall : isCall op = true)
    (hdue : Due env op due) : Meters w env op (callVariant due) := by
  intro evm scope n _ hm hn _ _
  obtain ⟨m, hok, _, hkeeps, hcost⟩ := callVariant_spec hE hcall hdue evm scope n hm hn
  rw [hok]
  exact ⟨hkeeps, fun cost h => ⟨(hcost cost h).1, (hcost cost h).2.1⟩⟩

theorem meters_callEIP2929 (hC : AddressesDistinct env.crypto) (hE : env.rules.isEIP150 = true)
    (hcall : isCall op = true) (hdue : Due env op due) :
    Meters w env op (makeCallVariantGasCallEIP2929 (callVariant due)) := by
  intro evm scope n _ hm hn _ _
  have haccess := accessAddress_spec hC evm.db (back scope.stack 1).bytes20
  rw [makeCallVariantGasCallEIP2929]
  dsimp only
  set db := (accessAddress evm.db (back scope.stack 1).bytes20).2
  have hfirst : Keeps w env evm.readOnly evm { evm with db } := .db haccess.1 fun _ => haccess.2
  split
  · obtain ⟨m, hok, _, hkeeps, hcost⟩ := callVariant_spec hE hcall hdue { evm with db } scope n hm hn
    rw [hok]
    exact ⟨hfirst.trans hkeeps, fun cost h => ⟨(hcost cost h).1, (hcost cost h).2.1⟩⟩
  split
  · exact ⟨hfirst, fun _ h => by cases h⟩
  obtain ⟨⟨gas, evm', memory⟩, hok, _, hkeeps, hcost⟩ := callVariant_spec hE hcall hdue { evm with db }
    { scope with contract := { scope.contract with gas := scope.contract.gas - coldCost } } n hm hn
  rw [hok]
  cases gas with
  | error e => exact ⟨hfirst.trans hkeeps, fun _ h => by cases h⟩
  | ok gas =>
    refine ⟨hfirst.trans hkeeps, fun cost h => ?_⟩
    have hcost' : cost = gas + coldCost := (ok.inj h).symm
    obtain ⟨hsized, hextra, hfar⟩ := hcost gas rfl
    have hcold : coldCost.toNat = 2500 := by decide
    have hsum : cost.toNat = gas.toNat + 2500 := by
      rw [hcost', UInt64.toNat_add, hcold]
      omega
    refine ⟨hsized, hextra.trans ?_⟩
    rw [hsum]
    exact le_add_right _ _

theorem callVariant_db {evm : Evm} {scope : Scope} {n : UInt64} {m : Metered}
    (h : callVariant due env evm scope n = .ok m) : m.evm.db = evm.db := by
  rw [callVariant] at h
  dsimp only at h
  split at h
  · cases h
    rfl
  · split at h <;> cases h <;> rfl

theorem listed_accessAddress (s : StateDB) (a : Address) :
    (accessAddress s a).2.accessList.containsAddress a = true := by
  rw [accessAddress]
  split
  · assumption
  · exact listed_addAddress s a

/-- The gas function of a call from Berlin on puts the callee on the access list. -/
theorem listed_callEIP2929 {evm : Evm} {scope : Scope} {n : UInt64} {m : Metered}
    (h : makeCallVariantGasCallEIP2929 (callVariant due) env evm scope n = .ok m) :
    m.evm.db.accessList.containsAddress (back scope.stack 1).bytes20 = true := by
  have haccess := listed_accessAddress evm.db (back scope.stack 1).bytes20
  rw [makeCallVariantGasCallEIP2929] at h
  dsimp only at h
  split at h
  · rw [callVariant_db h]
    exact haccess
  split at h
  · cases h
    exact haccess
  obtain ⟨m', hm', h⟩ := bind_eq_ok.mp h
  have hdb := callVariant_db hm'
  split at h <;> cases h <;> rw [hdb] <;> exact haccess

end

def Charges (env : Env) (f : GasFunc) : Prop :=
  ∀ evm scope n m cost, Placed evm.db.accessList → f env evm scope n = .ok m → m.cost = .ok cost →
    0 < cost.toNat

section

variable {w : Prop} {env : Env} {R : Schedule}

theorem charges_gasExp {expByte} (h : expByte.toNat ≤ 50) : Charges env (gasExp expByte) := by
  intro evm scope n m cost _ hm hcost
  cases hm
  cases hcost
  have hle : byteLen (back scope.stack 1).toNat ≤ 32 := byteLen_le (back scope.stack 1).isLt
  have hlen : (UInt64.ofNat (byteLen (back scope.stack 1).toNat)).toNat = byteLen (back scope.stack 1).toNat :=
    toNat_ofNat_of_lt' (lt_of_le_of_lt hle (by decide))
  have hmul := mul_le_mul hle h
  rw [UInt64.toNat_add, UInt64.toNat_mul, hlen]
  change 0 < (byteLen (back scope.stack 1).toNat * expByte.toNat % 2 ^ 64 + 10) % 2 ^ 64
  omega

theorem charges_makeGasLog (topics : UInt64) : Charges env (makeGasLog topics) := by
  intro evm scope n m cost _ hm hcost
  cases hm
  obtain ⟨fee, _, hcost⟩ := bind_eq_ok.mp hcost
  obtain ⟨size, _, hcost⟩ := bind_eq_ok.mp hcost
  obtain ⟨gas, hgas, hcost⟩ := bind_eq_ok.mp hcost
  obtain ⟨gas', hgas', hcost⟩ := bind_eq_ok.mp hcost
  obtain ⟨data, _, hcost⟩ := bind_eq_ok.mp hcost
  have h₁ := plus_eq_ok hgas
  have h₂ := plus_eq_ok hgas'
  have h₃ := plus_eq_ok hcost
  have hbase : (375 : UInt64).toNat = 375 := rfl
  omega

theorem charges_gasSLoad : Charges env gasSLoadEIP2929 := by
  intro evm scope n m cost _ hm hcost
  rw [gasSLoadEIP2929] at hm
  split at hm
  · cases hm
    cases hcost
    decide
  obtain ⟨db, _, hm⟩ := bind_eq_ok.mp hm
  cases hm
  cases hcost
  decide

theorem sstoreCost_pos (hR : 0 < R.read.toNat ∧ 0 < R.set.toNat ∧ 0 < R.reset.toNat)
    (o c v : Hash) : 0 < (sstoreCost R o c v).1.toNat := by
  rw [sstoreCost]
  split
  · exact hR.1
  split
  · split
    · exact hR.2.1
    · exact hR.2.2
  · exact hR.1

variable (hC : AddressesDistinct env.crypto)
include hC

theorem charges_meteredBy (hfair : Fair R)
    (hR : 0 < R.read.toNat ∧ 0 < R.set.toNat ∧ 0 < R.reset.toNat) : Charges env (meteredBy R) := by
  intro evm scope n m cost hp hm hcost
  rw [meteredBy] at hm
  obtain ⟨e, _, _, herr⟩ | ⟨_, herr⟩ | ⟨db, hok, _, _, _⟩ := gasSStore_spec hC hp R
    scope.contract.gas scope.contract.address (back scope.stack 0).bytes32 (back scope.stack 1).bytes32
  · rw [herr] at hm
    cases e <;> cases hm
    cases hcost
  · rw [herr] at hm
    cases hm
  rw [hok] at hm
  cases hm
  cases hcost
  rw [cost_toNat hfair]
  exact Nat.add_pos_right _ (sstoreCost_pos hR _ _ _)

omit hC in
theorem charges_gasSStore : Charges env gasSStore := by
  intro evm scope n m cost _ hm hcost
  rw [gasSStore] at hm
  dsimp only at hm
  split at hm
  · split at hm
    · cases hm
      cases hcost
      decide
    · split at hm <;> cases hm <;> cases hcost <;> decide
  split at hm
  · cases hm
    cases hcost
    exact sstoreCost_pos ⟨by decide, by decide, by decide⟩ _ _ _
  · cases hm

end

end Geth.Vm.Metering
