import Geth.Core.Evm
import Geth.Vm.SstoreGas

namespace Geth.Vm.Machine

open Lib.BigEndian Common.Basic State.Account State.Journal
open Core.Evm (EvmExtraValidator)
open SstoreGas (SstoreError)

abbrev Word := BitVec 256

namespace Word

def bytes20 (w : Word) : Address := ofNat 20 w.toNat

def bytes32 (w : Word) : Hash := ofNat 32 w.toNat

def setBytes (b : Bytes) : Word := BitVec.ofNat 256 (beNat b)

def fromBig (i : ℤ) : Word := BitVec.ofInt 256 i

def isUint64 (w : Word) : Bool := decide (w.toNat < 2 ^ 64)

def uint64 (w : Word) : UInt64 := UInt64.ofNat w.toNat

def uint64WithOverflow (w : Word) : Option UInt64 := if w.isUint64 then some w.uint64 else none

def ofUint64 (n : UInt64) : Word := BitVec.ofNat 256 n.toNat

end Word

inductive VmError where
  | outOfGas | codeStoreOutOfGas | depth | insufficientBalance | contractAddressCollision
  | executionReverted | maxCodeSizeExceeded | invalidJump | writeProtection | returnDataOutOfBounds
  | gasUintOverflow | invalidCode | unauthorizedDeveloper | nonceUintOverflow | addressDenied
  | stackUnderflow (stackLen required : ℕ)
  | stackOverflow (stackLen limit : ℕ)
  | invalidOpCode (op : UInt8)
  | precompileFailed
  deriving DecidableEq

/-- Why the interpreter does not return: the recursion was cut off, or the code
panics. The panics of `SSTORE` and of the validator are kept apart. -/
inductive Stop where
  | noReturn
  | panic (p : Panic)
  | sstore (e : SstoreError)
  | validator (p : Panic)
  deriving DecidableEq

structure Memory where
  store : Bytes
  lastGasCost : UInt64

namespace Memory

def new : Memory := ⟨[], 0⟩

def overwrite (store : Bytes) (offset : ℕ) (value : Bytes) : Bytes :=
  store.take offset ++ value ++ store.drop (offset + value.length)

/-- The sum of offset and size is one of 64 bits. -/
def set (m : Memory) (offset size : UInt64) (value : Bytes) : Except Stop Memory :=
  if size = 0 then .ok m
  else if m.store.length < (offset + size).toNat then .error (.panic .explicit)
  else if offset + size < offset then .error (.panic .sliceBounds)
  else .ok { m with store := overwrite m.store offset.toNat (value.take size.toNat) }

def set32 (m : Memory) (offset : UInt64) (val : Word) : Except Stop Memory :=
  if m.store.length < (offset + 32).toNat then .error (.panic .explicit)
  else if offset + 32 < offset then .error (.panic .sliceBounds)
  else .ok { m with store := overwrite m.store offset.toNat (beBytes 32 val.toNat) }

def setByte (m : Memory) (offset : UInt64) (val : UInt8) : Except Stop Memory :=
  if m.store.length ≤ offset.toNat then .error (.panic .indexRange)
  else .ok { m with store := overwrite m.store offset.toNat [val] }

def resize (m : Memory) (size : UInt64) : Memory :=
  { m with store := m.store ++ List.replicate (size.toNat - m.store.length) 0 }

/-- `GetPtr` and `GetCopy`. Offset and size are signed numbers here. -/
def getPtr (m : Memory) (offset size : UInt64) : Except Stop Bytes :=
  if size = 0 then .ok []
  else if (offset.toInt64.toInt : ℤ) < m.store.length then
    if 0 ≤ offset.toInt64.toInt ∧ 0 ≤ size.toInt64.toInt ∧
        offset.toInt64.toInt + size.toInt64.toInt ≤ m.store.length then
      .ok ((m.store.drop offset.toNat).take size.toNat)
    else .error (.panic .sliceBounds)
  else .ok []

end Memory

/-- The part of some data from `start` on, padded with zeros. -/
def getData (data : Bytes) (start size : UInt64) : Bytes :=
  let part := (data.drop start.toNat).take size.toNat
  part ++ List.replicate (size.toNat - part.length) 0

structure Contract where
  callerAddress : Address
  address : Address
  code : Bytes
  input : Bytes
  gas : UInt64
  value : ℤ

namespace Contract

def getOp (c : Contract) (n : UInt64) : UInt8 := (c.code[n.toNat]?).getD 0

/-- Whether a position holds an instruction and not the data of a push. `skip`
is how much data is left of the push before. -/
def isCode : Bytes → (skip pos : ℕ) → Bool
  | [], _, _ => true
  | _ :: _, 0, 0 => true
  | op :: code, 0, pos + 1 =>
    isCode code (if 0x60 ≤ op.toNat ∧ op.toNat ≤ 0x7F then op.toNat - 0x5F else 0) pos
  | _ :: _, _ + 1, 0 => false
  | _ :: code, skip + 1, pos + 1 => isCode code skip pos

def validJumpdest (c : Contract) (dest : Word) : Bool :=
  decide (dest.toNat < c.code.length) && decide (c.code[dest.toNat]? = some 0x5B) &&
    isCode c.code 0 dest.toNat

end Contract

structure Rules where
  isHomestead : Bool
  isEIP150 : Bool
  isEIP158 : Bool
  isByzantium : Bool
  isConstantinople : Bool
  isPetersburg : Bool
  isIstanbul : Bool
  isBerlin : Bool
  isLondon : Bool

structure PrecompiledContract where
  requiredGas : Bytes → UInt64
  run : Bytes → Bytes × Option VmError

/-- What does not change while a transaction runs. -/
structure Env where
  crypto : Crypto
  backend : Backend
  rules : Rules
  canCreate : Option (StateDB → Address → Bool)
  extraValidator : Option EvmExtraValidator
  getHash : UInt64 → Hash
  coinbase : Address
  gasLimit : UInt64
  blockNumber : ℤ
  time : ℤ
  difficulty : ℤ
  baseFee : ℤ
  origin : Address
  gasPrice : ℤ
  chainID : ℤ
  noRecursion : Bool
  enablePreimageRecording : Bool
  precompile : Address → Option PrecompiledContract

/-- The machine with its interpreter. -/
structure Evm where
  db : StateDB
  depth : ℕ
  readOnly : Bool
  returnData : Bytes
  callGasTemp : UInt64

/-- A call in progress. The top of the stack comes first. -/
structure Scope where
  pc : UInt64
  stack : List Word
  memory : Memory
  contract : Contract

structure Ran where
  ret : Bytes
  err : Option VmError
  gas : UInt64
  evm : Evm

/-- `Run` with the contract, its input and whether it is read-only. -/
abbrev Run := Evm → Contract → (readOnly : Bool) → Except Stop Ran

structure Executed where
  res : Bytes
  err : Option VmError
  evm : Evm
  scope : Scope

abbrev ExecutionFunc := Run → Env → Evm → Scope → Except Stop Executed

/-- What a gas function leaves: the cost, and the memory with the fee noted. -/
structure Metered where
  cost : Except VmError UInt64
  evm : Evm
  memory : Memory

abbrev GasFunc := Env → Evm → Scope → (memorySize : UInt64) → Except Stop Metered

/-- `none` is an overflow of 64 bits. -/
abbrev MemorySizeFunc := List Word → Option UInt64

structure Operation where
  execute : ExecutionFunc
  constantGas : UInt64 := 0
  dynamicGas : Option GasFunc := none
  minStack : ℕ
  maxStack : ℕ
  memorySize : Option MemorySizeFunc := none
  halts : Bool := false
  jumps : Bool := false
  writes : Bool := false
  reverts : Bool := false
  returns : Bool := false

/-- The operations by their codes; of two with one code the first counts. -/
abbrev JumpTable := List (UInt8 × Operation)

def safeAdd (x y : UInt64) : Option UInt64 := if x + y < x then none else some (x + y)

def safeMul (x y : UInt64) : Option UInt64 :=
  if x.toNat * y.toNat < 2 ^ 64 then some (x * y) else none

def toWordSize (size : UInt64) : UInt64 :=
  if 0xFFFFFFFFFFFFFFFF - 31 < size then 0xFFFFFFFFFFFFFFFF / 32 + 1 else (size + 31) / 32

end Geth.Vm.Machine
