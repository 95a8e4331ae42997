import Geth.Vm.Machine

namespace Geth.Vm.GasTable

open Lib.BigEndian Common.Basic State.Journal
open SstoreGas (Schedule SstoreError RefundCall sstoreCost eip2200 withAccessList
  sstoreClearsScheduleRefundEIP2200 sstoreClearsScheduleRefundEIP3529 coldSloadCostEIP2929
  warmStorageReadCostEIP2929)
open Machine

section

def calcMemSize64WithUint (off : Word) (length64 : UInt64) : Option UInt64 :=
  if length64 = 0 then some 0
  else match off.uint64WithOverflow with
    | none => none
    | some offset64 => safeAdd offset64 length64

def calcMemSize64 (off l : Word) : Option UInt64 :=
  if l.isUint64 then calcMemSize64WithUint off l.uint64 else none

def back (stack : List Word) (n : ℕ) : Word := stack.getD n 0

def memorySha3 : MemorySizeFunc := fun stack => calcMemSize64 (back stack 0) (back stack 1)
def memoryCallDataCopy : MemorySizeFunc := fun stack => calcMemSize64 (back stack 0) (back stack 2)
def memoryReturnDataCopy : MemorySizeFunc := memoryCallDataCopy
def memoryCodeCopy : MemorySizeFunc := memoryCallDataCopy
def memoryExtCodeCopy : MemorySizeFunc := fun stack => calcMemSize64 (back stack 1) (back stack 3)
def memoryMLoad : MemorySizeFunc := fun stack => calcMemSize64WithUint (back stack 0) 32
def memoryMStore8 : MemorySizeFunc := fun stack => calcMemSize64WithUint (back stack 0) 1
def memoryMStore : MemorySizeFunc := memoryMLoad
def memoryCreate : MemorySizeFunc := fun stack => calcMemSize64 (back stack 1) (back stack 2)
def memoryCreate2 : MemorySizeFunc := memoryCreate
def memoryReturn : MemorySizeFunc := memorySha3
def memoryRevert : MemorySizeFunc := memorySha3
def memoryLog : MemorySizeFunc := memorySha3

/-- The larger one of the areas for the input and for the output. -/
def memoryBoth (inOffset : ℕ) : MemorySizeFunc := fun stack =>
  match calcMemSize64 (back stack (inOffset + 2)) (back stack (inOffset + 3)) with
  | none => none
  | some x =>
    match calcMemSize64 (back stack inOffset) (back stack (inOffset + 1)) with
    | none => none
    | some y => some (if y < x then x else y)

def memoryCall : MemorySizeFunc := memoryBoth 3
def memoryDelegateCall : MemorySizeFunc := memoryBoth 2
def memoryStaticCall : MemorySizeFunc := memoryBoth 2

end

section

/-- The fee for all of the memory. Below the bound nothing overflows. -/
def totalFee (words : UInt64) : UInt64 := words * 3 + words * words / 512

def memoryGasCost (mem : Memory) (newMemSize : UInt64) : Except VmError UInt64 × Memory :=
  if newMemSize = 0 then (.ok 0, mem)
  else if 0x1FFFFFFFE0 < newMemSize then (.error .gasUintOverflow, mem)
  else
    let newMemSizeWords := toWordSize newMemSize
    if mem.store.length < (newMemSizeWords * 32).toNat then
      let newTotalFee := totalFee newMemSizeWords
      (.ok (newTotalFee - mem.lastGasCost), { mem with lastGasCost := newTotalFee })
    else (.ok 0, mem)

def plus (gas : UInt64) (extra : UInt64) : Except VmError UInt64 :=
  match safeAdd gas extra with
  | some sum => .ok sum
  | none => .error .gasUintOverflow

def times (x y : UInt64) : Except VmError UInt64 :=
  match safeMul x y with
  | some product => .ok product
  | none => .error .gasUintOverflow

def requestedSize (size : Word) : Except VmError UInt64 :=
  match size.uint64WithOverflow with
  | some n => .ok n
  | none => .error .gasUintOverflow

def wordFee (size : Word) (rate : UInt64) : Except VmError UInt64 := do
  let n ← requestedSize size
  times (toWordSize n) rate

def withMemory (extra : List Word → UInt64 → Except VmError UInt64) : GasFunc := fun _ evm scope memorySize =>
  let (fee, memory) := memoryGasCost scope.memory memorySize
  .ok ⟨fee >>= extra scope.stack, evm, memory⟩

def pureMemoryGascost : GasFunc := withMemory fun _ gas => .ok gas

def gasReturn : GasFunc := pureMemoryGascost
def gasRevert : GasFunc := pureMemoryGascost
def gasMLoad : GasFunc := pureMemoryGascost
def gasMStore8 : GasFunc := pureMemoryGascost
def gasMStore : GasFunc := pureMemoryGascost
def gasCreate : GasFunc := pureMemoryGascost

def perWord (stackpos : ℕ) (rate : UInt64) : GasFunc := withMemory fun stack gas => do
  let fee ← wordFee (back stack stackpos) rate
  plus gas fee

def memoryCopierGas (stackpos : ℕ) : GasFunc := perWord stackpos 3

def gasCallDataCopy : GasFunc := memoryCopierGas 2
def gasCodeCopy : GasFunc := memoryCopierGas 2
def gasExtCodeCopy : GasFunc := memoryCopierGas 3
def gasReturnDataCopy : GasFunc := memoryCopierGas 2
def gasSha3 : GasFunc := perWord 1 6
def gasCreate2 : GasFunc := perWord 2 6

def makeGasLog (n : UInt64) : GasFunc := withMemory fun stack gas => do
  let size ← requestedSize (back stack 1)
  let gas ← plus gas 375
  let gas ← plus gas (n * 375)
  let memorySizeGas ← times size 8
  plus gas memorySizeGas

end

section

def costing (f : Env → Evm → Scope → UInt64 × StateDB) : GasFunc := fun env evm scope _ =>
  .ok ⟨.ok (f env evm scope).1, { evm with db := (f env evm scope).2 }, scope.memory⟩

def gasExp (expByte : UInt64) : GasFunc := costing fun _ evm scope =>
  (UInt64.ofNat (byteLen (back scope.stack 1).toNat) * expByte + 10, evm.db)

def gasExpFrontier : GasFunc := gasExp 10
def gasExpEIP158 : GasFunc := gasExp 50

def coldAccountAccessCostEIP2929 : UInt64 := 2600

def accessAddress (db : StateDB) (addr : Address) : Bool × StateDB :=
  (db.accessList.containsAddress addr,
    if db.accessList.containsAddress addr then db else db.addAddressToAccessList addr)

def coldCost : UInt64 := coldAccountAccessCostEIP2929 - warmStorageReadCostEIP2929

def gasEip2929AccountCheck : GasFunc := costing fun _ evm scope =>
  let (warm, db) := accessAddress evm.db (back scope.stack 0).bytes20
  (if warm then 0 else coldCost, db)

def gasSLoadEIP2929 : GasFunc := fun _ evm scope _ =>
  let slot := (back scope.stack 0).bytes32
  if (evm.db.accessList.contains scope.contract.address slot).2 then
    .ok ⟨.ok warmStorageReadCostEIP2929, evm, scope.memory⟩
  else do
    let db ← (evm.db.addSlotToAccessList scope.contract.address slot).mapError .panic
    return ⟨.ok coldSloadCostEIP2929, { evm with db }, scope.memory⟩

def gasExtCodeCopyEIP2929 : GasFunc := fun env evm scope memorySize => do
  let r ← gasExtCodeCopy env evm scope memorySize
  match r.cost with
  | .error _ => return r
  | .ok gas =>
    let (warm, db) := accessAddress r.evm.db (back scope.stack 0).bytes20
    return { r with cost := if warm then .ok gas else plus gas coldCost, evm := { r.evm with db } }

end

section

def gasSelfdestruct : GasFunc := costing fun env evm scope =>
  let address := (back scope.stack 0).bytes20
  let self := scope.contract.address
  let gas : UInt64 :=
    if env.rules.isEIP150 then
      5000 +
        if env.rules.isEIP158 then
          if evm.db.isEmpty env.crypto env.backend address ∧ evm.db.getBalance env.crypto env.backend self ≠ 0 then
            25000
          else 0
        else if evm.db.exist env.crypto env.backend address then 0 else 25000
    else 0
  (gas, if evm.db.hasSuicided env.crypto env.backend self then evm.db else evm.db.addRefund 24000)

def makeSelfdestructGasFn (refundsEnabled : Bool) : GasFunc := costing fun env evm scope =>
  let address := (back scope.stack 0).bytes20
  let self := scope.contract.address
  let (warm, db) := accessAddress evm.db address
  let gas : UInt64 := (if warm then 0 else coldAccountAccessCostEIP2929) +
    if db.isEmpty env.crypto env.backend address ∧ db.getBalance env.crypto env.backend self ≠ 0 then 25000
    else 0
  (gas, if refundsEnabled ∧ db.hasSuicided env.crypto env.backend self = false then db.addRefund 24000 else db)

def gasSelfdestructEIP2929 : GasFunc := makeSelfdestructGasFn true
def gasSelfdestructEIP3529 : GasFunc := makeSelfdestructGasFn false

end

section

/-- The constants of the net metering that came first. -/
def eip1283 : Schedule where
  read := 200
  set := 20000
  reset := 5000
  clearing := 15000
  cold := none

def meteredBy (R : Schedule) : GasFunc := fun env evm scope _ =>
  match SstoreGas.gasSStore R env.crypto env.backend scope.contract.gas scope.contract.address
      (back scope.stack 0).bytes32 (back scope.stack 1).bytes32 evm.db with
  | .ok (cost, _, db) => .ok ⟨.ok cost, { evm with db }, scope.memory⟩
  | .error .sentry => .ok ⟨.error .outOfGas, evm, scope.memory⟩
  | .error e => .error (.sstore e)

def gasSStoreEIP2200 : GasFunc := meteredBy eip2200
def gasSStoreEIP2929 : GasFunc := meteredBy (withAccessList sstoreClearsScheduleRefundEIP2200)
def gasSStoreEIP3529 : GasFunc := meteredBy (withAccessList sstoreClearsScheduleRefundEIP3529)

/-- The metering before that of EIP-2200, by the present value or, in
Constantinople alone, by the committed one too. -/
def gasSStore : GasFunc := fun env evm scope _ =>
  let address := scope.contract.address
  let slot := (back scope.stack 0).bytes32
  let y := back scope.stack 1
  let (current, db) := evm.db.getState env.crypto env.backend address slot
  if env.rules.isPetersburg ∨ env.rules.isConstantinople = false then
    if current = zeros 32 ∧ y ≠ 0 then .ok ⟨.ok 20000, { evm with db }, scope.memory⟩
    else if current ≠ zeros 32 ∧ y = 0 then
      .ok ⟨.ok 5000, { evm with db := db.addRefund 15000 }, scope.memory⟩
    else .ok ⟨.ok 5000, { evm with db }, scope.memory⟩
  else
    let (original, db) := if current = y.bytes32 then (current, db)
      else db.getCommittedState env.crypto env.backend address slot
    let (cost, calls) := sstoreCost eip1283 original current y.bytes32
    match calls.foldlM RefundCall.apply db with
    | .ok db => .ok ⟨.ok cost, { evm with db }, scope.memory⟩
    | .error p => .error (.sstore (.panic p))

end

section

/-- What is given to a call. The gas left after `base` may wrap around. -/
def callGas (isEip150 : Bool) (availableGas base : UInt64) (callCost : Word) : Except VmError UInt64 :=
  let available := availableGas - base
  let gas := available - available / 64
  if isEip150 ∧ (callCost.isUint64 = false ∨ gas < callCost.uint64) then .ok gas
  else if callCost.isUint64 then .ok callCost.uint64
  else .error .gasUintOverflow

/-- The rest of the gas functions of calls: the memory and the gas for the call
are added to what is due so far. The latter is noted in the machine. -/
def callVariant (due : Env → Evm → List Word → UInt64) : GasFunc := fun env evm scope memorySize =>
  let (fee, memory) := memoryGasCost scope.memory memorySize
  let base := fee >>= plus (due env evm scope.stack)
  match base with
  | .error e => .ok ⟨.error e, evm, memory⟩
  | .ok gas =>
    match callGas env.rules.isEIP150 scope.contract.gas gas (back scope.stack 0) with
    | .error e => .ok ⟨.error e, { evm with callGasTemp := 0 }, memory⟩
    | .ok callGasTemp => .ok ⟨plus gas callGasTemp, { evm with callGasTemp }, memory⟩

def callValueTransferGas : UInt64 := 9000
def callNewAccountGas : UInt64 := 25000

def isNewAccount (env : Env) (evm : Evm) (stack : List Word) : Bool :=
  let address := (back stack 1).bytes20
  if env.rules.isEIP158 then
    decide (back stack 2 ≠ 0) && evm.db.isEmpty env.crypto env.backend address
  else !evm.db.exist env.crypto env.backend address

def gasCall : GasFunc := callVariant fun env evm stack =>
  (if isNewAccount env evm stack then callNewAccountGas else 0) +
    if back stack 2 ≠ 0 then callValueTransferGas else 0

def gasCallCode : GasFunc := callVariant fun _ _ stack =>
  if back stack 2 ≠ 0 then callValueTransferGas else 0

def gasDelegateCall : GasFunc := callVariant fun _ _ _ => 0

def gasStaticCall : GasFunc := callVariant fun _ _ _ => 0

/-- The surcharge of a cold account is taken from the gas while the old
calculator runs. Its sum with the cost is one of 64 bits. -/
def makeCallVariantGasCallEIP2929 (oldCalculator : GasFunc) : GasFunc := fun env evm scope memorySize =>
  let (warm, db) := accessAddress evm.db (back scope.stack 1).bytes20
  let evm := { evm with db }
  if warm then oldCalculator env evm scope memorySize
  else if scope.contract.gas < coldCost then .ok ⟨.error .outOfGas, evm, scope.memory⟩
  else do
    let contract := { scope.contract with gas := scope.contract.gas - coldCost }
    let r ← oldCalculator env evm { scope with contract } memorySize
    match r.cost with
    | .error _ => return r
    | .ok gas => return { r with cost := .ok (gas + coldCost) }

def gasCallEIP2929 : GasFunc := makeCallVariantGasCallEIP2929 gasCall
def gasDelegateCallEIP2929 : GasFunc := makeCallVariantGasCallEIP2929 gasDelegateCall
def gasStaticCallEIP2929 : GasFunc := makeCallVariantGasCallEIP2929 gasStaticCall
def gasCallCodeEIP2929 : GasFunc := makeCallVariantGasCallEIP2929 gasCallCode

end

end Geth.Vm.GasTable
