import Geth.Lib.Balances
import Geth.Types.Receipts
import Geth.Types.Signing

namespace Geth.Core.Evm

open Lib.BigEndian Lib.Balances Common.Basic Params.Config Types.Signature Types.TxData
open Types.Receipts Types.Signing

/-- What the transition reads and writes of the state database. Everything else
is `rest`. An account that does not exist has the code hash of empty code. -/
structure World (ω : Type) where
  balance : Ledger Address
  nonce : Address → UInt64
  codeHash : Address → Hash
  refund : UInt64
  thash : Hash
  txIndex : Nat
  logs : Hash → List Log
  rest : ω

variable {ω : Type} (w : World ω)

def World.addBalance (w : World ω) (a : Address) (n : ℤ) : World ω :=
  { w with balance := credit w.balance a n }

/-- Balances are unbounded, and nothing is checked here. -/
def World.subBalance (w : World ω) (a : Address) (n : ℤ) : World ω :=
  { w with balance := debit w.balance a n }

def World.setNonce (w : World ω) (a : Address) (n : UInt64) : World ω :=
  { w with nonce := Function.update w.nonce a n }

def World.getLogs (w : World ω) (txHash blockHash : Hash) : List Log :=
  (w.logs txHash).map (Log.atBlock blockHash)

def canTransfer (w : World ω) (a : Address) (n : ℤ) : Bool := decide (n ≤ w.balance a)

inductive AddressCheckType where
  | checkNone | checkFrom | checkTo | checkBothInAny | other (n : Int)
  deriving DecidableEq

/-- Refuses addresses and logs to a running contract. The check of a log can panic. -/
structure EvmExtraValidator where
  isAddressDenied : Address → AddressCheckType → Bool
  isLogDenied : Log → Except Panic Bool

structure BlockContext (ω : Type) where
  getHash : UInt64 → Hash
  coinbase : Address
  gasLimit : UInt64
  blockNumber : Int
  time : UInt64
  difficulty : Int
  baseFee : Option ℕ
  canCreate : Option (World ω → Address → Int → Bool)
  extraValidator : Option EvmExtraValidator

structure TxContext where
  origin : Address
  gasPrice : ℕ

/-- The configuration of a virtual machine. -/
structure Env (ω : Type) where
  chainConfig : ChainConfig
  noBaseFee : Bool
  context : BlockContext ω
  txContext : TxContext

namespace Env

variable (env : Env ω)

def isHomestead : Bool := env.chainConfig.isHomestead (some env.context.blockNumber)
def isIstanbul : Bool := env.chainConfig.isIstanbul (some env.context.blockNumber)
def isBerlin : Bool := env.chainConfig.isBerlin (some env.context.blockNumber)
def isLondon : Bool := env.chainConfig.isLondon (some env.context.blockNumber)

end Env

inductive VmError where
  | outOfGas | codeStoreOutOfGas | depth | insufficientBalance | contractAddressCollision
  | executionReverted | maxCodeSizeExceeded | invalidJump | writeProtection
  | returnDataOutOfBounds | gasUintOverflow | invalidCode | unauthorizedDeveloper
  | nonceUintOverflow | stackUnderflow | stackOverflow | invalidOpCode | addressDenied
  deriving DecidableEq, Repr

/-- The outcome of a call. Gas is used up or returned, never made. -/
structure CallResult (ω : Type) (supplied : UInt64) where
  ret : Bytes
  leftOverGas : UInt64
  left_le : leftOverGas ≤ supplied
  err : Option VmError
  state : World ω

/-- The bytecode interpreter, and the part of the state only it reads. -/
structure Interpreter (ω : Type) where
  call : Env ω → (caller addr : Address) → (input : Bytes) → (gas : UInt64) → (value : ℕ) →
    World ω → CallResult ω gas
  create : Env ω → (caller : Address) → (code : Bytes) → (gas : UInt64) → (value : ℕ) →
    World ω → CallResult ω gas
  prepareAccessList : Env ω → (sender : Address) → (dest : Option Address) → AccessList → ω → ω

/-- The interpreter only transfers what `canTransfer` allows, and pays out what
a destroyed contract held. -/
structure Interpreter.Covered (I : Interpreter ω) : Prop where
  call : ∀ env caller addr input gas value w,
    Moves w.balance (I.call env caller addr input gas value w).state.balance
  create : ∀ env caller code gas value w,
    Moves w.balance (I.create env caller code gas value w).state.balance

def effectivePrice : Option ℕ → (gasTipCap gasFeeCap : ℕ) → ℕ
  | none, _, cap => cap
  | some baseFee, tip, cap => min (tip + baseFee) cap

/-- A message for a block with the given base fee. Whoever builds one prices it
at what is paid under that base fee. -/
structure Message (baseFee : Option ℕ) where
  sender : Address
  toAddr : Option Address
  nonce : UInt64
  value : ℕ
  gas : UInt64
  gasPrice : ℕ
  gasFeeCap : ℕ
  gasTipCap : ℕ
  price_eq : gasPrice = effectivePrice baseFee gasTipCap gasFeeCap
  data : Bytes
  accessList : AccessList
  isFake : Bool

/-- Amounts of a decoded transaction are not negative, so nothing is cut off
here. -/
def asMessage (C : Crypto) (s : Signer) (baseFee : Option ℕ) (tx : Transaction) :
    Except TxError (Message baseFee) := do
  let sender ← s.sender C tx
  return {
    sender := sender
    toAddr := tx.toAddr
    nonce := tx.nonce
    value := tx.value.toNat
    gas := tx.gas
    gasPrice := effectivePrice baseFee tx.gasTipCap.toNat tx.gasFeeCap.toNat
    gasFeeCap := tx.gasFeeCap.toNat
    gasTipCap := tx.gasTipCap.toNat
    price_eq := rfl
    data := tx.data.data
    accessList := tx.accesses
    isFake := false }

@[simp] theorem addBalance_balance (a : Address) (n : ℤ) :
    (w.addBalance a n).balance = credit w.balance a n := rfl

@[simp] theorem subBalance_balance (a : Address) (n : ℤ) :
    (w.subBalance a n).balance = debit w.balance a n := rfl

@[simp] theorem setNonce_balance (a : Address) (n : UInt64) : (w.setNonce a n).balance = w.balance := rfl

theorem effectivePrice_eq {baseFee} {b : ℕ} (h : baseFee = some b) (tip cap : ℕ) :
    (effectivePrice baseFee tip cap : ℤ) = min (tip : ℤ) (cap - b) + baseFee.getD 0 := by
  subst h
  simp only [effectivePrice, Option.getD_some]
  omega

theorem effectivePrice_le (baseFee : Option ℕ) (tip cap : ℕ) : effectivePrice baseFee tip cap ≤ cap := by
  cases baseFee with
  | none => exact le_refl cap
  | some b => exact min_le_right _ _

end Geth.Core.Evm
