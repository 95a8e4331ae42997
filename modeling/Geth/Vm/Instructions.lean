import Geth.Vm.Machine

namespace Geth.Vm.Instructions

open Lib.BigEndian Types.Receipts Machine

section

def div (x y : Word) : Word := x / y

def sdiv (x y : Word) : Word := x.sdiv y

def mod (x y : Word) : Word := if y = 0 then 0 else x % y

def smod (x y : Word) : Word := if y = 0 then 0 else x.srem y

/-- By repeated squaring, from the highest bit of the exponent on. -/
def exp (base exponent : Word) : Word :=
  (List.range 256).reverse.foldl (fun r i => if exponent.getLsbD i then r * r * base else r * r) 1

def extendSign (back num : Word) : Word :=
  if 31 ≤ back.toNat then num else (num.setWidth (8 * back.toNat + 8)).signExtend 256

def ofBool (b : Bool) : Word := if b then 1 else 0

def byte (th val : Word) : Word :=
  if th.toNat < 32 then (val >>> (8 * (31 - th.toNat))) &&& 0xFF else 0

def addmod (x y z : Word) : Word := if z = 0 then 0 else BitVec.ofNat 256 ((x.toNat + y.toNat) % z.toNat)

def mulmod (x y z : Word) : Word := if z = 0 then 0 else BitVec.ofNat 256 (x.toNat * y.toNat % z.toNat)

def shl (shift value : Word) : Word := if shift.toNat < 256 then value <<< shift.toNat else 0

def shr (shift value : Word) : Word := if shift.toNat < 256 then value >>> shift.toNat else 0

def sar (shift value : Word) : Word :=
  if 256 < shift.toNat then if value.msb then BitVec.allOnes 256 else 0
  else value.sshiftRight shift.toNat

end

/-- A missing operand is an index out of range. -/
def underflow : Except Stop Executed := .error (.panic .indexRange)

def next (evm : Evm) (scope : Scope) (stack : List Word) : Except Stop Executed :=
  .ok ⟨[], none, evm, { scope with stack }⟩

/-- The word on top becomes one computed from it and the machine. -/
def replacing (f : Env → Evm → Scope → Word → Word) : ExecutionFunc := fun _ env evm scope =>
  match scope.stack with
  | x :: rest => next evm scope (f env evm scope x :: rest)
  | _ => underflow

def unary (f : Word → Word) : ExecutionFunc := replacing fun _ _ _ => f

def binary (f : Word → Word → Word) : ExecutionFunc := fun _ _ evm scope =>
  match scope.stack with
  | x :: y :: rest => next evm scope (f x y :: rest)
  | _ => underflow

def ternary (f : Word → Word → Word → Word) : ExecutionFunc := fun _ _ evm scope =>
  match scope.stack with
  | x :: y :: z :: rest => next evm scope (f x y z :: rest)
  | _ => underflow

def pushing (f : Env → Evm → Scope → Word) : ExecutionFunc := fun _ env evm scope =>
  next evm scope (f env evm scope :: scope.stack)

def opAdd : ExecutionFunc := binary (· + ·)
def opSub : ExecutionFunc := binary (· - ·)
def opMul : ExecutionFunc := binary (· * ·)
def opDiv : ExecutionFunc := binary div
def opSdiv : ExecutionFunc := binary sdiv
def opMod : ExecutionFunc := binary mod
def opSmod : ExecutionFunc := binary smod
def opExp : ExecutionFunc := binary exp
def opSignExtend : ExecutionFunc := binary extendSign
def opNot : ExecutionFunc := unary (~~~ ·)
def opLt : ExecutionFunc := binary fun x y => ofBool (x.ult y)
def opGt : ExecutionFunc := binary fun x y => ofBool (y.ult x)
def opSlt : ExecutionFunc := binary fun x y => ofBool (x.slt y)
def opSgt : ExecutionFunc := binary fun x y => ofBool (y.slt x)
def opEq : ExecutionFunc := binary fun x y => ofBool (x == y)
def opIszero : ExecutionFunc := unary fun x => ofBool (x == 0)
def opAnd : ExecutionFunc := binary (· &&& ·)
def opOr : ExecutionFunc := binary (· ||| ·)
def opXor : ExecutionFunc := binary (· ^^^ ·)
def opByte : ExecutionFunc := binary byte
def opAddmod : ExecutionFunc := ternary addmod
def opMulmod : ExecutionFunc := ternary mulmod
def opSHL : ExecutionFunc := binary shl
def opSHR : ExecutionFunc := binary shr
def opSAR : ExecutionFunc := binary sar

def opSha3 : ExecutionFunc := fun _ env evm scope =>
  match scope.stack with
  | offset :: size :: rest => do
    let data ← scope.memory.getPtr offset.uint64 size.uint64
    let hash := env.crypto.keccak256 data
    let db := if env.enablePreimageRecording then evm.db.addPreimage hash data else evm.db
    next { evm with db } scope (Word.setBytes hash.toList :: rest)
  | _ => underflow

section

def opAddress : ExecutionFunc := pushing fun _ _ scope => Word.setBytes scope.contract.address.toList

def opBalance : ExecutionFunc := replacing fun env evm _ x =>
  Word.fromBig (evm.db.getBalance env.crypto env.backend x.bytes20)

def opSelfBalance : ExecutionFunc := pushing fun env evm scope =>
  Word.fromBig (evm.db.getBalance env.crypto env.backend scope.contract.address)

def opOrigin : ExecutionFunc := pushing fun env _ _ => Word.setBytes env.origin.toList
def opCaller : ExecutionFunc := pushing fun _ _ scope => Word.setBytes scope.contract.callerAddress.toList
def opCallValue : ExecutionFunc := pushing fun _ _ scope => Word.fromBig scope.contract.value

def opCallDataLoad : ExecutionFunc := replacing fun _ _ scope x =>
  match x.uint64WithOverflow with
  | some offset => Word.setBytes (getData scope.contract.input offset 32)
  | none => 0

def opCallDataSize : ExecutionFunc := pushing fun _ _ scope =>
  Word.ofUint64 (UInt64.ofNat scope.contract.input.length)

def opReturnDataSize : ExecutionFunc := pushing fun _ evm _ =>
  Word.ofUint64 (UInt64.ofNat evm.returnData.length)

def opCodeSize : ExecutionFunc := pushing fun _ _ scope =>
  Word.ofUint64 (UInt64.ofNat scope.contract.code.length)

def opGasprice : ExecutionFunc := pushing fun env _ _ => Word.fromBig env.gasPrice

def opExtCodeHash : ExecutionFunc := replacing fun env evm _ x =>
  if evm.db.isEmpty env.crypto env.backend x.bytes20 then 0
  else Word.setBytes (evm.db.getCodeHash env.crypto env.backend x.bytes20).toList

def opBlockhash : ExecutionFunc := replacing fun env _ _ num =>
  match num.uint64WithOverflow with
  | none => 0
  | some num64 =>
    let upper := UInt64.ofNat env.blockNumber.natAbs
    let lower := if upper < 257 then 0 else upper - 256
    if lower ≤ num64 ∧ num64 < upper then Word.setBytes (env.getHash num64).toList else 0

def opCoinbase : ExecutionFunc := pushing fun env _ _ => Word.setBytes env.coinbase.toList
def opTimestamp : ExecutionFunc := pushing fun env _ _ => Word.fromBig env.time
def opNumber : ExecutionFunc := pushing fun env _ _ => Word.fromBig env.blockNumber
def opDifficulty : ExecutionFunc := pushing fun env _ _ => Word.fromBig env.difficulty
def opGasLimit : ExecutionFunc := pushing fun env _ _ => Word.ofUint64 env.gasLimit
def opChainID : ExecutionFunc := pushing fun env _ _ => Word.fromBig env.chainID
def opBaseFee : ExecutionFunc := pushing fun env _ _ => Word.fromBig env.baseFee
def opPc : ExecutionFunc := pushing fun _ _ scope => Word.ofUint64 scope.pc
def opGas : ExecutionFunc := pushing fun _ _ scope => Word.ofUint64 scope.contract.gas

def opMsize : ExecutionFunc := pushing fun _ _ scope =>
  Word.ofUint64 (UInt64.ofNat scope.memory.store.length)

def opExtCodeSize : ExecutionFunc := replacing fun env evm _ x =>
  Word.ofUint64 (UInt64.ofNat (evm.db.getCode env.crypto env.backend x.bytes20).1.length)

end

section

/-- An offset beyond 64 bits is the largest one. -/
def offset64 (w : Word) : UInt64 := w.uint64WithOverflow.getD 0xFFFFFFFFFFFFFFFF

def copying (data : Scope → Bytes) : ExecutionFunc := fun _ _ evm scope =>
  match scope.stack with
  | memOffset :: dataOffset :: length :: rest => do
    let memory ← scope.memory.set memOffset.uint64 length.uint64
      (getData (data scope) (offset64 dataOffset) length.uint64)
    next evm { scope with memory } rest
  | _ => underflow

def opCallDataCopy : ExecutionFunc := copying fun scope => scope.contract.input
def opCodeCopy : ExecutionFunc := copying fun scope => scope.contract.code

def opExtCodeCopy : ExecutionFunc := fun _ env evm scope =>
  match scope.stack with
  | a :: memOffset :: codeOffset :: length :: rest => do
    let (code, db) := evm.db.getCode env.crypto env.backend a.bytes20
    let memory ← scope.memory.set memOffset.uint64 length.uint64
      (getData code (offset64 codeOffset) length.uint64)
    next { evm with db } { scope with memory } rest
  | _ => underflow

/-- The return data must reach as far as the part that is asked for. -/
def opReturnDataCopy : ExecutionFunc := fun _ _ evm scope =>
  match scope.stack with
  | memOffset :: dataOffset :: length :: rest =>
    let fail : Except Stop Executed :=
      .ok ⟨[], some .returnDataOutOfBounds, evm, { scope with stack := rest }⟩
    let stop := dataOffset + length
    if dataOffset.isUint64 = false then fail
    else if stop.isUint64 = false ∨ evm.returnData.length < stop.toNat then fail
    else if stop.toNat < dataOffset.toNat then .error (.panic .sliceBounds)
    else do
      let memory ← scope.memory.set memOffset.uint64 length.uint64
        ((evm.returnData.take stop.toNat).drop dataOffset.toNat)
      next evm { scope with memory } rest
  | _ => underflow

end

section

def opPop : ExecutionFunc := fun _ _ evm scope =>
  match scope.stack with
  | _ :: rest => next evm scope rest
  | _ => underflow

def opMload : ExecutionFunc := fun _ _ evm scope =>
  match scope.stack with
  | v :: rest => do
    let data ← scope.memory.getPtr v.uint64 32
    next evm scope (Word.setBytes data :: rest)
  | _ => underflow

def opMstore : ExecutionFunc := fun _ _ evm scope =>
  match scope.stack with
  | mStart :: val :: rest => do
    let memory ← scope.memory.set32 mStart.uint64 val
    next evm { scope with memory } rest
  | _ => underflow

def opMstore8 : ExecutionFunc := fun _ _ evm scope =>
  match scope.stack with
  | off :: val :: rest => do
    let memory ← scope.memory.setByte off.uint64 (UInt8.ofNat val.toNat)
    next evm { scope with memory } rest
  | _ => underflow

def opSload : ExecutionFunc := fun _ env evm scope =>
  match scope.stack with
  | loc :: rest =>
    let (val, db) := evm.db.getState env.crypto env.backend scope.contract.address loc.bytes32
    next { evm with db } scope (Word.setBytes val.toList :: rest)
  | _ => underflow

def opSstore : ExecutionFunc := fun _ env evm scope =>
  match scope.stack with
  | loc :: val :: rest =>
    next { evm with
           db := evm.db.setState env.crypto env.backend scope.contract.address loc.bytes32 val.bytes32 }
      scope rest
  | _ => underflow

/-- The rest of a jump: the destination has to be one. -/
def jumpTo (evm : Evm) (scope : Scope) (pos : Word) (rest : List Word) : Except Stop Executed :=
  if scope.contract.validJumpdest pos then next evm { scope with pc := pos.uint64 } rest
  else .ok ⟨[], some .invalidJump, evm, { scope with stack := rest }⟩

def opJump : ExecutionFunc := fun _ _ evm scope =>
  match scope.stack with
  | pos :: rest => jumpTo evm scope pos rest
  | _ => underflow

def opJumpi : ExecutionFunc := fun _ _ evm scope =>
  match scope.stack with
  | pos :: cond :: rest =>
    if cond ≠ 0 then jumpTo evm scope pos rest else next evm { scope with pc := scope.pc + 1 } rest
  | _ => underflow

def opJumpdest : ExecutionFunc := fun _ _ evm scope => next evm scope scope.stack

def opStop : ExecutionFunc := fun _ _ evm scope => next evm scope scope.stack

def opReturn : ExecutionFunc := fun _ _ evm scope =>
  match scope.stack with
  | offset :: size :: rest => do
    let ret ← scope.memory.getPtr offset.uint64 size.uint64
    return ⟨ret, none, evm, { scope with stack := rest }⟩
  | _ => underflow

def opRevert : ExecutionFunc := opReturn

def opPush1 : ExecutionFunc := fun _ _ evm scope =>
  let integer := (scope.contract.code[(scope.pc + 1).toNat]?).getD 0
  next evm { scope with pc := scope.pc + 1 } (BitVec.ofNat 256 integer.toNat :: scope.stack)

def makePush (size : UInt64) (pushByteSize : ℕ) : ExecutionFunc := fun _ _ evm scope =>
  let part := (scope.contract.code.drop (scope.pc + 1).toNat).take pushByteSize
  next evm { scope with pc := scope.pc + size }
    (Word.setBytes (part ++ List.replicate (pushByteSize - part.length) 0) :: scope.stack)

def makeDup (size : ℕ) : ExecutionFunc := fun _ _ evm scope =>
  match scope.stack[size - 1]? with
  | some x => next evm scope (x :: scope.stack)
  | none => underflow

def makeSwap (size : ℕ) : ExecutionFunc := fun _ _ evm scope =>
  match scope.stack[0]?, scope.stack[size]? with
  | some x, some y => next evm scope ((scope.stack.set size x).set 0 y)
  | _, _ => underflow

end

section

def opSuicide : ExecutionFunc := fun _ env evm scope =>
  match scope.stack with
  | beneficiary :: rest =>
    let balance := evm.db.getBalance env.crypto env.backend scope.contract.address
    let db := evm.db.addBalance env.crypto env.backend beneficiary.bytes20 balance
    next { evm with db := (db.suicide env.crypto env.backend scope.contract.address).2 } scope rest
  | _ => underflow

def logDenied (env : Env) (evLog : Log) : Except Stop Bool :=
  match env.extraValidator with
  | none => .ok false
  | some v => (v.isLogDenied evLog).mapError .validator

def makeLog (size : ℕ) : ExecutionFunc := fun _ env evm scope =>
  match scope.stack with
  | mStart :: mSize :: rest =>
    if rest.length < size then underflow
    else do
      let d ← scope.memory.getPtr mStart.uint64 mSize.uint64
      let evLog : Log :=
        { address := scope.contract.address
          topics := (rest.take size).map Word.bytes32
          data := d
          blockNumber := UInt64.ofNat env.blockNumber.natAbs
          txHash := zeros 32
          txIndex := 0
          blockHash := zeros 32
          index := 0 }
      if ← logDenied env evLog then
        return ⟨[], some .addressDenied, evm, { scope with stack := rest.drop size }⟩
      else next { evm with db := evm.db.addLog evLog } scope (rest.drop size)
  | _ => underflow

end

end Geth.Vm.Instructions
