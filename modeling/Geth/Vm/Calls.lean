import Geth.Vm.GasTable
import Geth.Vm.Instructions

namespace Geth.Vm.Calls

open Lib.BigEndian Common.Basic Types.Receipts State.Account State.Journal Machine Instructions

/-- A caller: an account, or a contract that is running. -/
inductive ContractRef where
  | account (address : Address)
  | contract (contract : Contract)

def ContractRef.address : ContractRef → Address
  | .account a => a
  | .contract c => c.address

def newContract (caller : ContractRef) (object : Address) (value : ℤ) (gas : UInt64)
    (code input : Bytes) : Contract where
  callerAddress := caller.address
  address := object
  code := code
  input := input
  gas := gas
  value := value

def canTransfer (env : Env) (db : StateDB) (addr : Address) (amount : ℤ) : Bool :=
  decide (amount ≤ db.getBalance env.crypto env.backend addr)

def transfer (env : Env) (db : StateDB) (sender recipient : Address) (amount : ℤ) : StateDB :=
  (db.subBalance env.crypto env.backend sender amount).addBalance env.crypto env.backend recipient amount

def runPrecompiledContract (p : PrecompiledContract) (evm : Evm) (input : Bytes) (suppliedGas : UInt64) : Ran :=
  if suppliedGas < p.requiredGas input then ⟨[], some .outOfGas, 0, evm⟩
  else ⟨(p.run input).1, (p.run input).2, suppliedGas - p.requiredGas input, evm⟩

def callCreateDepth : ℕ := 1024

def refusal (env : Env) (evm : Evm) (validate : Bool) (caller addr : Address) : Option (Option VmError) :=
  if env.noRecursion ∧ 0 < evm.depth then some none
  else if callCreateDepth < evm.depth then some (some .depth)
  else if validate ∧ env.extraValidator.any fun v =>
      v.isAddressDenied caller .checkFrom || v.isAddressDenied addr .checkTo then some (some .addressDenied)
  else none

/-- A precompiled contract is run, or else the code of the address. -/
def executing (env : Env) (evm : Evm) (addr : Address) (input : Bytes) (gas : UInt64)
    (runCode : Evm → Bytes → Except Stop Ran) : Except Stop Ran :=
  match env.precompile addr with
  | some p => .ok (runPrecompiledContract p evm input gas)
  | none =>
    let (code, db) := evm.db.getCode env.crypto env.backend addr
    runCode { evm with db } code

/-- After an error the state is the one of the snapshot. Only a revert leaves gas. -/
def finish (env : Env) (snapshot : ℕ) (r : Ran) : Except Stop Ran :=
  match r.err with
  | none => .ok r
  | some err => do
    let db ← (r.evm.db.revertToSnapshot env.crypto env.backend snapshot).mapError .panic
    return { r with
             gas := if err = .executionReverted then r.gas else 0
             evm := { r.evm with db } }

def call (run : Run) (env : Env) (evm : Evm) (caller : ContractRef) (addr : Address) (input : Bytes)
    (gas : UInt64) (value : ℤ) : Except Stop Ran :=
  match refusal env evm (decide (0 < evm.depth)) caller.address addr with
  | some err => .ok ⟨[], err, gas, evm⟩
  | none =>
    if value ≠ 0 ∧ canTransfer env evm.db caller.address value = false then
      .ok ⟨[], some .insufficientBalance, gas, evm⟩
    else
      let (snapshot, db) := evm.db.snapshot
      let known := db.exist env.crypto env.backend addr
      if known = false ∧ (env.precompile addr).isNone ∧ env.rules.isEIP158 ∧ value = 0 then
        .ok ⟨[], none, gas, { evm with db }⟩
      else do
        let db := if known then db else db.createAccount env.crypto env.backend addr
        let db := transfer env db caller.address addr value
        let r ← executing env { evm with db } addr input gas fun evm code =>
          if code = [] then .ok ⟨[], none, gas, evm⟩
          else run evm (newContract caller addr value gas code input) false
        finish env snapshot r

def callCode (run : Run) (env : Env) (evm : Evm) (caller : ContractRef) (addr : Address) (input : Bytes)
    (gas : UInt64) (value : ℤ) : Except Stop Ran :=
  match refusal env evm true caller.address addr with
  | some err => .ok ⟨[], err, gas, evm⟩
  | none =>
    if canTransfer env evm.db caller.address value = false then
      .ok ⟨[], some .insufficientBalance, gas, evm⟩
    else do
      let (snapshot, db) := evm.db.snapshot
      let r ← executing env { evm with db } addr input gas fun evm code =>
        run evm (newContract caller caller.address value gas code input) false
      finish env snapshot r

/-- Caller and value are those of the caller, which has to be a contract. -/
def asDelegate (caller : ContractRef) (gas : UInt64) (code input : Bytes) : Except Stop Contract :=
  match caller with
  | .account _ => .error (.panic .explicit)
  | .contract parent =>
    .ok { newContract caller caller.address 0 gas code input with
          callerAddress := parent.callerAddress
          value := parent.value }

def delegateCall (run : Run) (env : Env) (evm : Evm) (caller : ContractRef) (addr : Address)
    (input : Bytes) (gas : UInt64) : Except Stop Ran :=
  match refusal env evm true caller.address addr with
  | some err => .ok ⟨[], err, gas, evm⟩
  | none => do
    let (snapshot, db) := evm.db.snapshot
    let r ← executing env { evm with db } addr input gas fun evm code => do
      let contract ← asDelegate caller gas code input
      run evm contract false
    finish env snapshot r

def staticCall (run : Run) (env : Env) (evm : Evm) (caller : ContractRef) (addr : Address)
    (input : Bytes) (gas : UInt64) : Except Stop Ran :=
  match refusal env evm true caller.address addr with
  | some err => .ok ⟨[], err, gas, evm⟩
  | none => do
    let (snapshot, db) := evm.db.snapshot
    -- an amount of zero touches the account
    let db := db.addBalance env.crypto env.backend addr 0
    let r ← executing env { evm with db } addr input gas fun evm code =>
      run evm (newContract caller addr 0 gas code input) true
    finish env snapshot r

section

def maxCodeSize : ℕ := 24576

def createDataGas : UInt64 := 200

/-- The code that a creation returned is checked, paid for and stored. -/
def deposit (env : Env) (address : Address) (r : Ran) : Ran :=
  match r.err with
  | some _ => r
  | none =>
    if env.rules.isEIP158 ∧ maxCodeSize < r.ret.length then { r with err := some .maxCodeSizeExceeded }
    else if r.ret.head? = some 0xEF ∧ env.rules.isLondon then { r with err := some .invalidCode }
    else
      let fee := UInt64.ofNat r.ret.length * createDataGas
      if r.gas < fee then { r with err := some .codeStoreOutOfGas }
      else
        { r with
          gas := r.gas - fee
          evm := { r.evm with db := r.evm.db.setCode env.crypto env.backend address r.ret } }

def collides (env : Env) (db : StateDB) (address : Address) : Bool :=
  let contractHash := db.getCodeHash env.crypto env.backend address
  decide (db.getNonce env.crypto env.backend address ≠ 0) ||
    decide (contractHash ≠ zeros 32 ∧ contractHash ≠ emptyCodeHash env.crypto)

def create (run : Run) (env : Env) (evm : Evm) (caller : ContractRef) (code : Bytes) (gas : UInt64)
    (value : ℤ) (address : Address) : Except Stop Ran :=
  let fail (err : VmError) : Except Stop Ran := .ok ⟨[], some err, gas, evm⟩
  if callCreateDepth < evm.depth then fail .depth
  else if env.canCreate.any fun f => !f evm.db caller.address then fail .unauthorizedDeveloper
  else if canTransfer env evm.db caller.address value = false then fail .insufficientBalance
  else
    let nonce := evm.db.getNonce env.crypto env.backend caller.address
    if nonce + 1 < nonce then fail .nonceUintOverflow
    else
      let db := evm.db.setNonce env.crypto env.backend caller.address (nonce + 1)
      let db := if env.rules.isBerlin then db.addAddressToAccessList address else db
      if collides env db address then .ok ⟨[], some .contractAddressCollision, 0, { evm with db }⟩
      else
        let (snapshot, db) := db.snapshot
        let db := db.createAccount env.crypto env.backend address
        let db := if env.rules.isEIP158 then db.setNonce env.crypto env.backend address 1 else db
        let db := transfer env db caller.address address value
        if env.noRecursion ∧ 0 < evm.depth then .ok ⟨[], none, gas, { evm with db }⟩
        else do
          let r ← run { evm with db } (newContract caller address value gas code []) false
          let r := deposit env address r
          if r.err = some .codeStoreOutOfGas ∧ env.rules.isHomestead = false then return r
          else finish env snapshot r

def createFor (run : Run) (env : Env) (evm : Evm) (caller : ContractRef) (code : Bytes) (gas : UInt64)
    (value : ℤ) : Address × Except Stop Ran :=
  let address := createAddress env.crypto caller.address
    (evm.db.getNonce env.crypto env.backend caller.address)
  (address, create run env evm caller code gas value address)

def createAddress2 (C : Crypto) (b : Address) (salt : Hash) (inithash : Bytes) : Address :=
  copyInto 20 ((C.keccak256 ([0xFF] ++ b.toList ++ salt.toList ++ inithash)).toList.drop 12)

def create2 (run : Run) (env : Env) (evm : Evm) (caller : ContractRef) (code : Bytes) (gas : UInt64)
    (endowment : ℤ) (salt : Word) : Address × Except Stop Ran :=
  let address := createAddress2 env.crypto caller.address salt.bytes32 (env.crypto.keccak256 code).toList
  (address, create run env evm caller code gas endowment address)

end

section

def callStipend : UInt64 := 2300

/-- The result of a call goes to the stack and into the memory, its gas back
to the contract. -/
def afterCall (scope : Scope) (rest : List Word) (retOffset retSize : Word) (r : Ran) :
    Except Stop Executed := do
  let memory ← if r.err = none ∨ r.err = some .executionReverted then
      scope.memory.set retOffset.uint64 retSize.uint64 r.ret
    else .ok scope.memory
  return ⟨r.ret, none, r.evm,
    { scope with
      stack := (if r.err = none then 1 else 0) :: rest
      memory := memory
      contract := { scope.contract with gas := scope.contract.gas + r.gas } }⟩

/-- The calls with a value, which adds a stipend to the gas. -/
def calling (f : Run → Env → Evm → ContractRef → Address → Bytes → UInt64 → ℤ → Except Stop Ran) :
    ExecutionFunc := fun run env evm scope =>
  match scope.stack with
  | _ :: addr :: value :: inOffset :: inSize :: retOffset :: retSize :: rest => do
    let args ← scope.memory.getPtr inOffset.uint64 inSize.uint64
    let gas := if value ≠ 0 then evm.callGasTemp + callStipend else evm.callGasTemp
    let r ← f run env evm (.contract scope.contract) addr.bytes20 args gas value.toNat
    afterCall scope rest retOffset retSize r
  | _ => underflow

def opCall : ExecutionFunc := calling call
def opCallCode : ExecutionFunc := calling callCode

def callingPlain (f : Run → Env → Evm → ContractRef → Address → Bytes → UInt64 → Except Stop Ran) :
    ExecutionFunc := fun run env evm scope =>
  match scope.stack with
  | _ :: addr :: inOffset :: inSize :: retOffset :: retSize :: rest => do
    let args ← scope.memory.getPtr inOffset.uint64 inSize.uint64
    let r ← f run env evm (.contract scope.contract) addr.bytes20 args evm.callGasTemp
    afterCall scope rest retOffset retSize r
  | _ => underflow

def opDelegateCall : ExecutionFunc := callingPlain delegateCall
def opStaticCall : ExecutionFunc := callingPlain staticCall

def afterCreate (scope : Scope) (rest : List Word) (failed : Bool) (addr : Address) (r : Ran) : Executed :=
  ⟨if r.err = some .executionReverted then r.ret else [], none, r.evm,
    { scope with
      stack := (if failed then 0 else Word.setBytes addr.toList) :: rest
      contract := { scope.contract with gas := scope.contract.gas + r.gas } }⟩

/-- Before Homestead code that could not be paid for is not a failure. -/
def opCreate : ExecutionFunc := fun run env evm scope =>
  match scope.stack with
  | value :: offset :: size :: rest => do
    let input ← scope.memory.getPtr offset.uint64 size.uint64
    let gas := if env.rules.isEIP150 then scope.contract.gas - scope.contract.gas / 64
      else scope.contract.gas
    let scope := { scope with contract := { scope.contract with gas := scope.contract.gas - gas } }
    let (addr, created) := createFor run env evm (.contract scope.contract) input gas value.toNat
    let r ← created
    let failed := if r.err = some .codeStoreOutOfGas then env.rules.isHomestead else r.err.isSome
    return afterCreate scope rest failed addr r
  | _ => underflow

def opCreate2 : ExecutionFunc := fun run env evm scope =>
  match scope.stack with
  | endowment :: offset :: size :: salt :: rest => do
    let input ← scope.memory.getPtr offset.uint64 size.uint64
    let gas := scope.contract.gas - scope.contract.gas / 64
    let scope := { scope with contract := { scope.contract with gas := scope.contract.gas - gas } }
    let (addr, created) := create2 run env evm (.contract scope.contract) input gas endowment.toNat salt
    let r ← created
    return afterCreate scope rest r.err.isSome addr r
  | _ => underflow

end

end Geth.Vm.Calls
