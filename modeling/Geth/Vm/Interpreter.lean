import Geth.Vm.JumpTable

namespace Geth.Vm.Interpreter

open Machine GasTable JumpTable

def useGas (contract : Contract) (gas : UInt64) : Option Contract :=
  if contract.gas < gas then none else some { contract with gas := contract.gas - gas }

/-- The operation at the counter, if stack and write protection allow it. -/
def validate (table : JumpTable) (env : Env) (evm : Evm) (scope : Scope) : Except VmError Operation :=
  let op := scope.contract.getOp scope.pc
  match table.lookup op with
  | none => .error (.invalidOpCode op)
  | some operation =>
    if scope.stack.length < operation.minStack then
      .error (.stackUnderflow scope.stack.length operation.minStack)
    else if operation.maxStack < scope.stack.length then
      .error (.stackOverflow scope.stack.length operation.maxStack)
    else if (evm.readOnly && env.rules.isByzantium) ∧
        (operation.writes ∨ (op = OpCode.call ∧ back scope.stack 2 ≠ 0)) then
      .error .writeProtection
    else .ok operation

def requiredMemory (operation : Operation) (stack : List Word) : Except VmError UInt64 :=
  match operation.memorySize with
  | none => .ok 0
  | some f =>
    match f stack with
    | none => .error .gasUintOverflow
    | some memSize =>
      match safeMul (toWordSize memSize) 32 with
      | none => .error .gasUintOverflow
      | some size => .ok size

def meter (operation : Operation) (env : Env) (evm : Evm) (scope : Scope) (memorySize : UInt64) :
    Except Stop Metered :=
  match operation.dynamicGas with
  | none => .ok ⟨.ok 0, evm, scope.memory⟩
  | some f => f env evm scope memorySize

/-- A step ends the run or leads to the next one. -/
inductive Outcome where
  | finished (r : Ran)
  | going (evm : Evm) (scope : Scope)

def failing (err : VmError) (evm : Evm) (gas : UInt64) : Except Stop Outcome :=
  .ok (.finished ⟨[], some err, gas, evm⟩)

def conclude (operation : Operation) (r : Executed) : Outcome :=
  let evm := if operation.returns then { r.evm with returnData := r.res } else r.evm
  match r.err with
  | some err => .finished ⟨[], some err, r.scope.contract.gas, evm⟩
  | none =>
    if operation.reverts then .finished ⟨r.res, some .executionReverted, r.scope.contract.gas, evm⟩
    else if operation.halts then .finished ⟨r.res, none, r.scope.contract.gas, evm⟩
    else .going evm { r.scope with pc := if operation.jumps then r.scope.pc else r.scope.pc + 1 }

def perform (run : Run) (env : Env) (operation : Operation) (evm : Evm) (scope : Scope) :
    Except Stop Outcome :=
  match useGas scope.contract operation.constantGas with
  | none => failing .outOfGas evm scope.contract.gas
  | some contract =>
    match requiredMemory operation scope.stack with
    | .error err => failing err evm contract.gas
    | .ok memorySize => do
      let m ← meter operation env evm { scope with contract } memorySize
      match m.cost with
      | .error _ => failing .outOfGas m.evm contract.gas
      | .ok cost =>
        match useGas contract cost with
        | none => failing .outOfGas m.evm contract.gas
        | some contract => do
          let memory := if 0 < memorySize then m.memory.resize memorySize else m.memory
          let r ← operation.execute run env m.evm { scope with contract, memory }
          return conclude operation r

def step (table : JumpTable) (run : Run) (env : Env) (evm : Evm) (scope : Scope) : Except Stop Outcome :=
  match validate table env evm scope with
  | .error err => failing err evm scope.contract.gas
  | .ok operation => perform run env operation evm scope

/-- Without code nothing is executed. -/
def runCode (loop : Evm → Scope → Except Stop Ran) (evm : Evm) (contract : Contract) : Except Stop Ran :=
  if contract.code = [] then .ok ⟨[], none, contract.gas, evm⟩ else loop evm ⟨0, [], Memory.new, contract⟩

/-- What `Run` does around the loop. Depth and flag are put back at the end. -/
def enter (loop : Evm → Scope → Except Stop Ran) : Run := fun evm contract readOnly => do
  let inner := { evm with
    depth := evm.depth + 1
    readOnly := evm.readOnly || readOnly
    returnData := [] }
  let r ← runCode loop inner contract
  return { r with
           evm := { r.evm with
                    depth := r.evm.depth - 1
                    readOnly := if readOnly && !evm.readOnly then false else r.evm.readOnly } }

/-- The loop, cut off after so many steps. Calls that a step makes are cut off
in the same way. -/
def loop (table : JumpTable) (env : Env) : ℕ → Evm → Scope → Except Stop Ran
  | 0, _, _ => .error .noReturn
  | fuel + 1, evm, scope => do
    match ← step table (enter (loop table env fuel)) env evm scope with
    | .finished r => return r
    | .going evm scope => loop table env fuel evm scope

/-- The interpreter's `Run`. No run has more steps than it has gas. -/
def interpreterRun (env : Env) : Run := fun evm contract readOnly =>
  enter (loop (instructionSet env.rules) env (contract.gas.toNat + 1)) evm contract readOnly

end Geth.Vm.Interpreter
