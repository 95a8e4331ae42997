import Geth.Congress.VerifySeal
import Geth.Core.TransitionDb
import Geth.Lib.Programs

namespace Geth.Congress.SystemCalls

open Lib.BigEndian Lib.Programs Common.Basic Params.Config Types.Block Types.Signature
open Types.TxData Types.Signing Rlp.Encode Core.Evm Core.TransitionDb SnapshotApply
open VerifySeal

inductive SysError where
  | consensus (e : Error)
  | vm (e : VmError)
  | abi
  | errInvalidValidatorsLength | errInvalidExtraValidators | errInvalidSysGovCount
  | errUnknownAncestor | stateUnavailable
  | signTxFnNotSet | signTx | sender (e : TxError) | invalidSender
  | encoding (e : EncodeError) | dataMismatch (id : Int)
  | panicked (p : Panic)
  deriving DecidableEq

def maxValidators : ℕ := 21

def validatorsContractAddr : Address := hexToAddress 0xf000
def punishContractAddr : Address := hexToAddress 0xf001
def proposalAddr : Address := hexToAddress 0xf002
def sysGovContractAddr : Address := hexToAddress 0xf003
def validatorsV1ContractAddr : Address := hexToAddress 0xf005
def punishV1ContractAddr : Address := hexToAddress 0xf006
def rewardPoolContractAddr : Address := hexToAddress 0xf007
def sysGovToAddr : Address := hexToAddress 0xffff

def getValidatorAddr (number : BigPtr) (config : ChainConfig) : Address :=
  if config.isRedCoast number then validatorsV1ContractAddr else validatorsContractAddr

def getPunishAddr (number : BigPtr) (config : ChainConfig) : Address :=
  if config.isRedCoast number then punishV1ContractAddr else punishContractAddr

structure Proposal where
  id : Int
  action : Int
  source : Address
  target : Address
  value : Int
  data : Bytes
  deriving DecidableEq

def Proposal.toValue (p : Proposal) : Value :=
  .list [.bigInt (some p.id), .bigInt (some p.action), .array p.source.toList, .array p.target.toList,
    .bigInt (some p.value), .bytes p.data]

inductive ContractName where
  | validators | punish | proposal | governance
  deriving DecidableEq

inductive Method where
  | initializeValidators (validators : List Address)
  | initializePunish
  | distributeBlockReward (addr : List Address) (gass : List UInt64)
  | getTopValidators
  | updateActiveValidatorSet (vals : List Address) (epoch : UInt64)
  | punish (val : Address)
  | decreaseMissedBlocksCounter (epoch : UInt64)
  | getPassedProposalCount
  | getPassedProposalByIndex (idx : UInt32)
  | finishProposalById (id : Int)
  deriving DecidableEq

structure Abi where
  pack : ContractName → Method → Except SysError Bytes
  unpackValidators : Bytes → Except SysError (List Address)
  unpackCount : Bytes → Except SysError UInt32
  unpackProposal : Bytes → Except SysError Proposal

/-- What the state database does besides balances, nonces and logs. -/
structure StateOps (ω : Type) where
  finalise : (deleteEmpty : Bool) → World ω → World ω
  intermediateRoot : (deleteEmpty : Bool) → World ω → Hash × World ω
  erase : Address → World ω → Bool × World ω
  newAccessList : ω → ω

/-- The consensus engine with the chain it reads and the machine it runs. The
configuration is that of the chain, with the default for a missing epoch. -/
structure Posa (ω : Type) where
  chainConfig : ChainConfig
  config : CongressConfig
  config_eq : ∃ conf, chainConfig.congress = some conf ∧ config = engineConfig conf
  abi : Abi
  validator : Address
  signTxFn : Option (Address → Transaction → BigPtr → Except SysError Transaction)
  stateFn : Hash → Except SysError (World ω)
  getHeader : Hash → UInt64 → Option Header
  snapshot : UInt64 → Hash → Except Error Snapshot
  getHash : Header → UInt64 → Hash
  isDeveloper : World ω → Address → Bool
  interpreter : Interpreter ω
  ops : StateOps ω

variable {ω : Type}

/-- A step of the engine on the state of a block. -/
abbrev Sys (ω α : Type) := Program SysError (World ω) α

def World.setBalance (w : World ω) (a : Address) (n : ℤ) : World ω :=
  { w with balance := Function.update w.balance a n }

namespace Posa

variable (c : Posa ω)

def signer : Signer := latestSignerForChainID c.chainConfig.chainID

def adminFeeMode : Bool := c.config.feeReceiver.isSome

def canCreate (state : World ω) (addr : Address) (height : Int) : Bool :=
  if c.chainConfig.isRedCoast (some height) && c.config.enableDevVerification then
    c.isDeveloper state addr
  else true

/-- The coinbase is taken from the header. A nil number or difficulty is
dereferenced. -/
def newEVMBlockContext (header : Header) : Except SysError (BlockContext ω) :=
  match header.number, header.difficulty with
  | some number, some difficulty => .ok {
      getHash := c.getHash header
      coinbase := header.coinbase
      gasLimit := header.gasLimit
      blockNumber := number
      time := header.time
      difficulty := difficulty
      baseFee := header.baseFee.map Int.toNat
      canCreate := some c.canCreate
      extraValidator := none }
  | _, _ => .error (.panicked .nilPointer)

def prepareState (thash : Hash) (ti : ℕ) : Sys ω Unit :=
  modify fun w => { w with thash := thash, txIndex := ti, rest := c.ops.newAccessList w.rest }

def executeMsg (header : Header) (sender target : Address) (value : ℕ) (gas : UInt64) (data : Bytes) :
    Sys ω Bytes := do
  let context ← ofExcept (c.newEVMBlockContext header)
  let env : Env ω := ⟨c.chainConfig, false, context, ⟨sender, 0⟩⟩
  let r := c.interpreter.call env sender target data gas value (← get)
  set (c.ops.finalise true r.state)
  match r.err with
  | none => return r.ret
  | some e => throw (.vm e)

def callContract (header : Header) (caller : Address) (name : ContractName) (addr : Address)
    (value : ℕ) (method : Method) : Sys ω Bytes := do
  let data ← ofExcept (c.abi.pack name method)
  c.executeMsg header caller addr value maxUint64 data

def initializeSystemContracts (header : Header) : Sys ω Unit := do
  let snap ← ofExcept ((c.snapshot 0 header.parentHash).mapError .consensus)
  let genesisValidators := snap.sorted
  if genesisValidators.length = 0 ∨ maxValidators < genesisValidators.length then
    throw .errInvalidValidatorsLength
  else do
    let _ ← c.callContract header header.coinbase .validators validatorsContractAddr 0
      (.initializeValidators genesisValidators)
    let _ ← c.callContract header header.coinbase .punish punishContractAddr 0 .initializePunish
    let _ ← c.callContract header header.coinbase .proposal proposalAddr 0
      (.initializeValidators genesisValidators)
    return ()

def punishValidator (val : Address) (header : Header) : Sys ω Unit := do
  let _ ← c.callContract header header.coinbase .punish (getPunishAddr header.number c.chainConfig) 0
    (.punish val)
  return ()

def tryPunishValidator (header : Header) : Sys ω Unit := do
  let number ← ofExcept ((numberU64 header).mapError .consensus)
  let snap ← ofExcept ((c.snapshot (number - 1) header.parentHash).mapError .consensus)
  let validators := snap.sorted
  if validators.length = 0 then throw (.panicked .divideByZero)
  else
    let outTurnValidator := validators.getD (number % UInt64.ofNat validators.length).toNat (zeros 20)
    if SignedRecently snap.recents outTurnValidator then return ()
    else c.punishValidator outTurnValidator header

def getTopValidators (header : Header) : Except SysError (List Address) := do
  let number ← (numberU64 header).mapError .consensus
  match c.getHeader header.parentHash (number - 1) with
  | none => .error .errUnknownAncestor
  | some parent => do
    let statedb ← c.stateFn parent.root
    let call := c.callContract parent header.coinbase .validators
      (getValidatorAddr parent.number c.chainConfig) 0 .getTopValidators
    match call statedb with
    | .error e _ => .error e
    | .ok result _ => do
      let validators ← c.abi.unpackValidators result
      return validators.mergeSort

def updateValidators (vals : List Address) (header : Header) : Sys ω Unit := do
  let _ ← c.callContract header header.coinbase .validators (getValidatorAddr header.number c.chainConfig)
    0 (.updateActiveValidatorSet vals c.config.epoch)
  return ()

def decreaseMissedBlocksCounter (header : Header) : Sys ω Unit := do
  let _ ← c.callContract header header.coinbase .punish (getPunishAddr header.number c.chainConfig) 0
    (.decreaseMissedBlocksCounter c.config.epoch)
  return ()

def doSomethingAtEpoch (header : Header) : Sys ω (List Address) := do
  let newSortedValidators ← ofExcept (c.getTopValidators header)
  c.updateValidators newSortedValidators header
  c.decreaseMissedBlocksCounter header
  return newSortedValidators

def getPassedProposalCount (header : Header) : Sys ω UInt32 := do
  let result ← c.callContract header header.coinbase .governance sysGovContractAddr 0
    .getPassedProposalCount
  ofExcept (c.abi.unpackCount result)

def getPassedProposalByIndex (header : Header) (idx : UInt32) : Sys ω Proposal := do
  let result ← c.callContract header header.coinbase .governance sysGovContractAddr 0
    (.getPassedProposalByIndex idx)
  ofExcept (c.abi.unpackProposal result)

def finishProposalById (header : Header) (id : Int) : Sys ω Unit := do
  let data ← ofExcept (c.abi.pack .governance (.finishProposalById id))
  c.prepareState (zeros 32) 0
  let _ ← c.executeMsg header header.coinbase sysGovContractAddr 0 maxUint64 data
  return ()

end Posa

/-- The recipients of a block's transactions with their fees at the offered
price. The product wraps. -/
def offeredFees (txs : List Transaction) : List (Address × UInt64) :=
  txs.map fun tx => (tx.toAddr.getD (zeros 20), tx.gas * bigUint64 tx.gasPrice)

def scaleFees (collected : UInt64) (gass : List UInt64) : List UInt64 :=
  let totalGasSum := gass.foldl (fun sum gas => sum + gas) 0
  if collected < totalGasSum then
    let percentDifference := (totalGasSum - collected).toFloat / totalGasSum.toFloat * 100
    gass.map fun gas => gas - (gas.toFloat * (percentDifference / 100)).toUInt64
  else gass

namespace Posa

variable (c : Posa ω)

/-- Move the collected fees to the receiver, to the reward pool or through the
sealer to the validators contract. -/
def trySendBlockReward (header : Header) (addr : List Address) (gass : List UInt64) : Sys ω Unit := do
  let fee := (← get).balance feeRecoder
  let payOut (receiver : Address) : Sys ω Unit :=
    modify fun w => World.setBalance (w.addBalance receiver fee) feeRecoder 0
  if fee ≤ 0 then return ()
  else match c.config.feeReceiver with
    | some receiver => payOut receiver
    | none =>
      if c.chainConfig.isRewardPool header.number then payOut rewardPoolContractAddr
      else do
        payOut header.coinbase
        let _ ← c.callContract header header.coinbase .validators
          (getValidatorAddr header.number c.chainConfig) fee.toNat (.distributeBlockReward addr gass)
        return ()

end Posa

end Geth.Congress.SystemCalls
