import Geth.Vm.Calls

namespace Geth.Vm.JumpTable

open Machine Instructions GasTable Calls

section

def gasQuickStep : UInt64 := 2
def gasFastestStep : UInt64 := 3
def gasFastStep : UInt64 := 5
def gasMidStep : UInt64 := 8
def gasSlowStep : UInt64 := 10
def gasExtStep : UInt64 := 20

end

def maxStack (pops pushes : ℕ) : ℕ := 1024 + pops - pushes

def fixed (execute : ExecutionFunc) (constantGas : UInt64) (pops pushes : ℕ) : Operation where
  execute := execute
  constantGas := constantGas
  minStack := pops
  maxStack := maxStack pops pushes

def memorial (execute : ExecutionFunc) (constantGas : UInt64) (dynamicGas : GasFunc) (pops pushes : ℕ)
    (memorySize : MemorySizeFunc) : Operation where
  execute := execute
  constantGas := constantGas
  dynamicGas := some dynamicGas
  minStack := pops
  maxStack := maxStack pops pushes
  memorySize := some memorySize

/-- A call, which leaves return data. -/
def messaging (execute : ExecutionFunc) (constantGas : UInt64) (dynamicGas : GasFunc) (pops : ℕ)
    (memorySize : MemorySizeFunc) : Operation :=
  { memorial execute constantGas dynamicGas pops 1 memorySize with returns := true }

def creating (execute : ExecutionFunc) (constantGas : UInt64) (dynamicGas : GasFunc) (pops : ℕ)
    (memorySize : MemorySizeFunc) : Operation :=
  { messaging execute constantGas dynamicGas pops memorySize with writes := true }

namespace OpCode

def exp : UInt8 := 0x0A
def balance : UInt8 := 0x31
def extCodeSize : UInt8 := 0x3B
def extCodeCopy : UInt8 := 0x3C
def extCodeHash : UInt8 := 0x3F
def sload : UInt8 := 0x54
def sstore : UInt8 := 0x55
def create : UInt8 := 0xF0
def call : UInt8 := 0xF1
def callCode : UInt8 := 0xF2
def delegateCall : UInt8 := 0xF4
def create2 : UInt8 := 0xF5
def staticCall : UInt8 := 0xFA
def selfdestruct : UInt8 := 0xFF

end OpCode

section

def arithmetic : JumpTable :=
  [(0x00, { fixed opStop 0 0 0 with halts := true }),
    (0x01, fixed opAdd gasFastestStep 2 1), (0x02, fixed opMul gasFastStep 2 1),
    (0x03, fixed opSub gasFastestStep 2 1), (0x04, fixed opDiv gasFastStep 2 1),
    (0x05, fixed opSdiv gasFastStep 2 1), (0x06, fixed opMod gasFastStep 2 1),
    (0x07, fixed opSmod gasFastStep 2 1), (0x08, fixed opAddmod gasMidStep 3 1),
    (0x09, fixed opMulmod gasMidStep 3 1),
    (OpCode.exp, { fixed opExp 0 2 1 with dynamicGas := some gasExpFrontier }),
    (0x0B, fixed opSignExtend gasFastStep 2 1)]

def comparison : JumpTable :=
  [(0x10, fixed opLt gasFastestStep 2 1), (0x11, fixed opGt gasFastestStep 2 1),
    (0x12, fixed opSlt gasFastestStep 2 1), (0x13, fixed opSgt gasFastestStep 2 1),
    (0x14, fixed opEq gasFastestStep 2 1), (0x15, fixed opIszero gasFastestStep 1 1),
    (0x16, fixed opAnd gasFastestStep 2 1), (0x17, fixed opOr gasFastestStep 2 1),
    (0x18, fixed opXor gasFastestStep 2 1), (0x19, fixed opNot gasFastestStep 1 1),
    (0x1A, fixed opByte gasFastestStep 2 1), (0x20, memorial opSha3 30 gasSha3 2 1 memorySha3)]

def closure : JumpTable :=
  [(0x30, fixed opAddress gasQuickStep 0 1), (OpCode.balance, fixed opBalance 20 1 1),
    (0x32, fixed opOrigin gasQuickStep 0 1), (0x33, fixed opCaller gasQuickStep 0 1),
    (0x34, fixed opCallValue gasQuickStep 0 1), (0x35, fixed opCallDataLoad gasFastestStep 1 1),
    (0x36, fixed opCallDataSize gasQuickStep 0 1),
    (0x37, memorial opCallDataCopy gasFastestStep gasCallDataCopy 3 0 memoryCallDataCopy),
    (0x38, fixed opCodeSize gasQuickStep 0 1),
    (0x39, memorial opCodeCopy gasFastestStep gasCodeCopy 3 0 memoryCodeCopy),
    (0x3A, fixed opGasprice gasQuickStep 0 1), (OpCode.extCodeSize, fixed opExtCodeSize 20 1 1),
    (OpCode.extCodeCopy, memorial opExtCodeCopy 20 gasExtCodeCopy 4 0 memoryExtCodeCopy)]

def block : JumpTable :=
  [(0x40, fixed opBlockhash gasExtStep 1 1), (0x41, fixed opCoinbase gasQuickStep 0 1),
    (0x42, fixed opTimestamp gasQuickStep 0 1), (0x43, fixed opNumber gasQuickStep 0 1),
    (0x44, fixed opDifficulty gasQuickStep 0 1), (0x45, fixed opGasLimit gasQuickStep 0 1)]

def flow : JumpTable :=
  [(0x50, fixed opPop gasQuickStep 1 0),
    (0x51, memorial opMload gasFastestStep gasMLoad 1 1 memoryMLoad),
    (0x52, memorial opMstore gasFastestStep gasMStore 2 0 memoryMStore),
    (0x53, memorial opMstore8 gasFastestStep gasMStore8 2 0 memoryMStore8),
    (OpCode.sload, fixed opSload 50 1 1),
    (OpCode.sstore, { fixed opSstore 0 2 0 with dynamicGas := some gasSStore, writes := true }),
    (0x56, { fixed opJump gasMidStep 1 0 with jumps := true }),
    (0x57, { fixed opJumpi gasSlowStep 2 0 with jumps := true }),
    (0x58, fixed opPc gasQuickStep 0 1), (0x59, fixed opMsize gasQuickStep 0 1),
    (0x5A, fixed opGas gasQuickStep 0 1), (0x5B, fixed opJumpdest 1 0 0)]

def pushes : JumpTable :=
  (0x60, fixed opPush1 gasFastestStep 0 1) ::
    (List.range' 2 31).map fun n =>
      (UInt8.ofNat (0x5F + n), fixed (makePush (UInt64.ofNat n) n) gasFastestStep 0 1)

def dups : JumpTable :=
  (List.range' 1 16).map fun n => (UInt8.ofNat (0x7F + n), fixed (makeDup n) gasFastestStep n (n + 1))

def swaps : JumpTable :=
  (List.range' 1 16).map fun n =>
    (UInt8.ofNat (0x8F + n), fixed (makeSwap n) gasFastestStep (n + 1) (n + 1))

def logs : JumpTable :=
  (List.range 5).map fun n =>
    (UInt8.ofNat (0xA0 + n),
      { memorial (makeLog n) 0 (makeGasLog (UInt64.ofNat n)) (n + 2) 0 memoryLog with writes := true })

def system : JumpTable :=
  [(OpCode.create, creating opCreate 32000 gasCreate 3 memoryCreate),
    (OpCode.call, messaging opCall 40 gasCall 7 memoryCall),
    (OpCode.callCode, messaging opCallCode 40 gasCallCode 7 memoryCall),
    (0xF3, { memorial opReturn 0 gasReturn 2 0 memoryReturn with halts := true }),
    (OpCode.selfdestruct,
      { fixed opSuicide 0 1 0 with dynamicGas := some gasSelfdestruct, halts := true, writes := true })]

def newFrontierInstructionSet : JumpTable :=
  arithmetic ++ comparison ++ closure ++ block ++ flow ++ pushes ++ dups ++ swaps ++ logs ++ system

end

/-- The operation of a code is changed, if there is one. -/
def modify (op : UInt8) (f : Operation → Operation) (jt : JumpTable) : JumpTable :=
  jt.map fun e => if e.1 = op then (e.1, f e.2) else e

def setConstantGas (op : UInt8) (gas : UInt64) : JumpTable → JumpTable :=
  modify op fun o => { o with constantGas := gas }

def setDynamicGas (op : UInt8) (gas : GasFunc) : JumpTable → JumpTable :=
  modify op fun o => { o with dynamicGas := some gas }

section

def newHomesteadInstructionSet : JumpTable :=
  (OpCode.delegateCall, messaging opDelegateCall 40 gasDelegateCall 6 memoryDelegateCall) ::
    newFrontierInstructionSet

def newTangerineWhistleInstructionSet : JumpTable :=
  setConstantGas OpCode.delegateCall 700 (setConstantGas OpCode.callCode 700
    (setConstantGas OpCode.call 700 (setConstantGas OpCode.extCodeCopy 700
      (setConstantGas OpCode.sload 200 (setConstantGas OpCode.extCodeSize 700
        (setConstantGas OpCode.balance 400 newHomesteadInstructionSet))))))

def newSpuriousDragonInstructionSet : JumpTable :=
  setDynamicGas OpCode.exp gasExpEIP158 newTangerineWhistleInstructionSet

def newByzantiumInstructionSet : JumpTable :=
  (OpCode.staticCall, messaging opStaticCall 700 gasStaticCall 6 memoryStaticCall) ::
  (0x3D, fixed opReturnDataSize gasQuickStep 0 1) ::
  (0x3E, memorial opReturnDataCopy gasFastestStep gasReturnDataCopy 3 0 memoryReturnDataCopy) ::
  (0xFD, { memorial opRevert 0 gasRevert 2 0 memoryRevert with reverts := true, returns := true }) ::
    newSpuriousDragonInstructionSet

def newConstantinopleInstructionSet : JumpTable :=
  (0x1B, fixed opSHL gasFastestStep 2 1) :: (0x1C, fixed opSHR gasFastestStep 2 1) ::
  (0x1D, fixed opSAR gasFastestStep 2 1) :: (OpCode.extCodeHash, fixed opExtCodeHash 400 1 1) ::
  (OpCode.create2, creating opCreate2 32000 gasCreate2 4 memoryCreate2) ::
    newByzantiumInstructionSet

def enable1884 (jt : JumpTable) : JumpTable :=
  (0x47, fixed opSelfBalance gasFastStep 0 1) ::
    setConstantGas OpCode.extCodeHash 700 (setConstantGas OpCode.balance 700
      (setConstantGas OpCode.sload 800 jt))

def enable1344 (jt : JumpTable) : JumpTable := (0x46, fixed opChainID gasQuickStep 0 1) :: jt

def enable2200 (jt : JumpTable) : JumpTable :=
  setDynamicGas OpCode.sstore gasSStoreEIP2200 (setConstantGas OpCode.sload 800 jt)

/-- A warm access at a fixed cost, with a surcharge for a cold one. -/
def chargeAccess (op : UInt8) (gas : GasFunc) (jt : JumpTable) : JumpTable :=
  setDynamicGas op gas (setConstantGas op SstoreGas.warmStorageReadCostEIP2929 jt)

def enable2929 (jt : JumpTable) : JumpTable :=
  setDynamicGas OpCode.selfdestruct gasSelfdestructEIP2929 (setConstantGas OpCode.selfdestruct 5000
    (chargeAccess OpCode.delegateCall gasDelegateCallEIP2929
      (chargeAccess OpCode.staticCall gasStaticCallEIP2929
        (chargeAccess OpCode.callCode gasCallCodeEIP2929
          (chargeAccess OpCode.call gasCallEIP2929
            (chargeAccess OpCode.balance gasEip2929AccountCheck
              (chargeAccess OpCode.extCodeHash gasEip2929AccountCheck
                (chargeAccess OpCode.extCodeSize gasEip2929AccountCheck
                  (chargeAccess OpCode.extCodeCopy gasExtCodeCopyEIP2929
                    (setDynamicGas OpCode.sload gasSLoadEIP2929 (setConstantGas OpCode.sload 0
                      (setDynamicGas OpCode.sstore gasSStoreEIP2929 jt))))))))))))

def enable3529 (jt : JumpTable) : JumpTable :=
  setDynamicGas OpCode.selfdestruct gasSelfdestructEIP3529
    (setDynamicGas OpCode.sstore gasSStoreEIP3529 jt)

def enable3198 (jt : JumpTable) : JumpTable := (0x48, fixed opBaseFee gasQuickStep 0 1) :: jt

def newIstanbulInstructionSet : JumpTable :=
  enable2200 (enable1884 (enable1344 newConstantinopleInstructionSet))

def newBerlinInstructionSet : JumpTable := enable2929 newIstanbulInstructionSet

def newLondonInstructionSet : JumpTable := enable3198 (enable3529 newBerlinInstructionSet)

end

def instructionSet (rules : Rules) : JumpTable :=
  if rules.isLondon then newLondonInstructionSet
  else if rules.isBerlin then newBerlinInstructionSet
  else if rules.isIstanbul then newIstanbulInstructionSet
  else if rules.isConstantinople then newConstantinopleInstructionSet
  else if rules.isByzantium then newByzantiumInstructionSet
  else if rules.isEIP158 then newSpuriousDragonInstructionSet
  else if rules.isEIP150 then newTangerineWhistleInstructionSet
  else if rules.isHomestead then newHomesteadInstructionSet
  else newFrontierInstructionSet

end Geth.Vm.JumpTable
