import Geth.Core.Evm
import Geth.Lib.Shares

namespace Geth.Core.TransitionDb

open Lib.BigEndian Lib.Balances Lib.Shares Common.Basic Types.MetaTransaction
open Types.TxData Evm UInt64 Nat

inductive TransitionError where
  | nonceTooHigh (address : Address) (tx state : UInt64)
  | nonceTooLow (address : Address) (tx state : UInt64)
  | nonceMax (address : Address) (nonce : UInt64)
  | senderNoEOA (address : Address) (codeHash : Hash)
  | feeCapVeryHigh (address : Address) (bitLen : ℕ)
  | tipVeryHigh (address : Address) (bitLen : ℕ)
  | tipAboveFeeCap (address : Address) (tip feeCap : ℕ)
  | feeCapTooLow (address : Address) (feeCap baseFee : ℕ)
  | metaData (e : MetaError)
  | insufficientFunds (address : Address) (held want : ℤ)
  | insufficientFundsMeta
  | gasLimitReached
  | gasUintOverflow
  | intrinsicGas (held want : UInt64)
  | insufficientFundsForTransfer (address : Address)
  | unauthorizedDeveloper
  | panicked (p : Panic)
  deriving DecidableEq

def txGas : UInt64 := 21000
def txGasContractCreation : UInt64 := 53000
def txDataZeroGas : UInt64 := 4
def txDataNonZeroGasFrontier : UInt64 := 68
def txDataNonZeroGasEIP2028 : UInt64 := 16
def txAccessListAddressGas : UInt64 := 2400
def txAccessListStorageKeyGas : UInt64 := 1900
def refundQuotient : UInt64 := 2
def refundQuotientEIP3529 : UInt64 := 5
def maxUint64 : UInt64 := 0xffffffffffffffff

def feeRecoder : Address := hexToAddress 0xffffffffffffffffffffffffffffffffffffffff

def emptyCodeHash (C : Crypto) : Hash := C.keccak256 []

def storageKeys (al : AccessList) : ℕ := (al.map fun t => t.storageKeys.length).sum

def dataGas (data : Bytes) (gas nonZeroGas : UInt64) : Except TransitionError UInt64 :=
  let nz := UInt64.ofNat (data.countP (· ≠ 0))
  if (maxUint64 - gas) / nonZeroGas < nz then .error .gasUintOverflow
  else
    let gas := gas + nz * nonZeroGas
    let z := UInt64.ofNat data.length - nz
    if (maxUint64 - gas) / txDataZeroGas < z then .error .gasUintOverflow
    else .ok (gas + z * txDataZeroGas)

def intrinsicGas (data : Bytes) (accessList : AccessList)
    (isContractCreation isHomestead isEIP2028 : Bool) : Except TransitionError UInt64 := do
  let gas := if isContractCreation && isHomestead then txGasContractCreation else txGas
  let gas ← if data.length > 0 then
      dataGas data gas (if isEIP2028 then txDataNonZeroGasEIP2028 else txDataNonZeroGasFrontier)
    else .ok gas
  -- a nil list and an empty one cost the same
  return gas + UInt64.ofNat accessList.length * txAccessListAddressGas +
    UInt64.ofNat (storageKeys accessList) * txAccessListStorageKeyGas

def subGas (gp amount : UInt64) : Except TransitionError UInt64 :=
  if gp < amount then .error .gasLimitReached else .ok (gp - amount)

def addGas (gp amount : UInt64) : Except TransitionError UInt64 :=
  if maxUint64 - amount < gp then .error (.panicked .explicit) else .ok (gp + amount)

def deref {α : Type} : Option α → Except TransitionError α
  | some a => .ok a
  | none => .error (.panicked .nilPointer)

variable {ω : Type}

structure StateTransition (ω : Type) where
  gp : UInt64
  gas : UInt64
  initialGas : UInt64
  data : Bytes
  state : World ω
  isMeta : Bool
  feeAddress : Address
  feePercent : UInt64
  realPayload : Bytes

def StateTransition.gasUsed (st : StateTransition ω) : UInt64 := st.initialGas - st.gas

structure ExecutionResult where
  usedGas : UInt64
  err : Option VmError
  returnData : Bytes
  deriving DecidableEq

def ExecutionResult.failed (r : ExecutionResult) : Bool := r.err.isSome

def mgFeeAddrVal (feePercent : UInt64) (amount : ℕ) : ℕ :=
  share big10000.toNat feePercent.toNat amount

def mgSelfVal (feePercent : UInt64) (amount : ℕ) : ℕ :=
  share big10000.toNat (big10000 - feePercent).toNat amount

section

variable (C : Crypto) (I : Interpreter ω) (env : Env ω) (msg : Message env.context.baseFee)

def newStateTransition (gp : UInt64) (state : World ω) : StateTransition ω where
  gp := gp
  gas := 0
  initialGas := 0
  data := msg.data
  state := state
  isMeta := false
  feeAddress := zeros 20
  feePercent := 0
  realPayload := []

def buyGas (st : StateTransition ω) : Except TransitionError (StateTransition ω) := do
  let mgval : ℤ := msg.gas.toNat * msg.gasPrice
  let balanceCheck : ℤ := msg.gas.toNat * msg.gasFeeCap + msg.value
  if st.state.balance msg.sender < balanceCheck then
    .error (.insufficientFunds msg.sender (st.state.balance msg.sender) balanceCheck)
  else
    let gp ← subGas st.gp msg.gas
    return { st with
      gp := gp
      gas := st.gas + msg.gas
      initialGas := msg.gas
      state := st.state.subBalance msg.sender mgval }

def buyGasMeta (st : StateTransition ω) : Except TransitionError (StateTransition ω) := do
  let mgval := msg.gas.toNat * msg.gasPrice
  let feeAddrVal : ℤ := mgFeeAddrVal st.feePercent mgval
  let selfVal : ℤ := mgSelfVal st.feePercent mgval
  -- both payers are checked before either of them pays
  if st.state.balance st.feeAddress < feeAddrVal ∨ st.state.balance msg.sender < selfVal then
    .error .insufficientFundsMeta
  else
    let gp ← subGas st.gp msg.gas
    return { st with
      gp := gp
      gas := st.gas + msg.gas
      initialGas := msg.gas
      state := (st.state.subBalance st.feeAddress feeAddrVal).subBalance msg.sender selfVal }

def checkSender (state : World ω) : Except TransitionError Unit :=
  if msg.isFake then .ok ()
  else
    let stNonce := state.nonce msg.sender
    let codeHash := state.codeHash msg.sender
    if stNonce < msg.nonce then .error (.nonceTooHigh msg.sender msg.nonce stNonce)
    else if msg.nonce < stNonce then .error (.nonceTooLow msg.sender msg.nonce stNonce)
    else if stNonce + 1 < stNonce then .error (.nonceMax msg.sender stNonce)
    else if codeHash ≠ emptyCodeHash C ∧ codeHash ≠ zeros 32 then
      .error (.senderNoEOA msg.sender codeHash)
    else .ok ()

def checkFeeCap : Except TransitionError Unit :=
  if env.isLondon then
    if !env.noBaseFee ∨ 0 < bitLen msg.gasFeeCap ∨ 0 < bitLen msg.gasTipCap then
      if 256 < bitLen msg.gasFeeCap then .error (.feeCapVeryHigh msg.sender (bitLen msg.gasFeeCap))
      else if 256 < bitLen msg.gasTipCap then .error (.tipVeryHigh msg.sender (bitLen msg.gasTipCap))
      else if msg.gasFeeCap < msg.gasTipCap then
        .error (.tipAboveFeeCap msg.sender msg.gasTipCap msg.gasFeeCap)
      else do
        let baseFee ← deref env.context.baseFee
        if msg.gasFeeCap < baseFee then .error (.feeCapTooLow msg.sender msg.gasFeeCap baseFee)
        else .ok ()
    else .ok ()
  else .ok ()

def metaTransactionCheck (st : StateTransition ω) : Except TransitionError (StateTransition ω) :=
  if isMetaTransaction st.data then do
    let metaData ← (decodeMetaData st.data env.context.blockNumber).mapError .metaData
    let chainID ← deref env.chainConfig.chainID
    let addr ← (parseMetaData C metaData msg.nonce msg.gasPrice msg.gas msg.toAddr msg.value
      metaData.payload msg.sender chainID).mapError .metaData
    return { st with
      isMeta := true
      feeAddress := addr
      realPayload := st.data
      data := metaData.payload
      feePercent := metaData.feePercent }
  else .ok st

def preCheck (st : StateTransition ω) : Except TransitionError (StateTransition ω) := do
  checkSender C env msg st.state
  checkFeeCap env msg
  let st ← metaTransactionCheck C env msg st
  if st.isMeta then buyGasMeta env msg st else buyGas env msg st

def refundGas (quotient : UInt64) (st : StateTransition ω) :
    Except TransitionError (StateTransition ω) := do
  let refund := st.gasUsed / quotient
  let refund := if st.state.refund < refund then st.state.refund else refund
  let gas := st.gas + refund
  let remaining := gas.toNat * msg.gasPrice
  let state :=
    if st.isMeta then
      (st.state.addBalance st.feeAddress (mgFeeAddrVal st.feePercent remaining)).addBalance msg.sender
        (mgSelfVal st.feePercent remaining)
    else st.state.addBalance msg.sender remaining
  let gp ← addGas st.gp gas
  return { st with
    gp := gp
    gas := gas
    data := if st.isMeta then st.realPayload else st.data
    state := state }

/-- What the sealer gets for a unit of gas. It is negative when a call without
any price runs on a base fee. -/
def effectiveTip : Except TransitionError ℤ :=
  if env.isLondon then do
    let baseFee ← deref env.context.baseFee
    return min (msg.gasTipCap : ℤ) (msg.gasFeeCap - baseFee)
  else .ok msg.gasPrice

/-- The base fee that is credited besides the tip. -/
def creditedBaseFee : ℕ := if env.isLondon then env.context.baseFee.getD 0 else 0

def payFees (st : StateTransition ω) : Except TransitionError (World ω) := do
  let effectiveTip ← effectiveTip env msg
  let tip := st.gasUsed.toNat * effectiveTip
  if env.chainConfig.congress.isSome then
    let state := st.state.addBalance feeRecoder tip
    if 0 < creditedBaseFee env then
      return state.addBalance feeRecoder (st.gasUsed.toNat * creditedBaseFee env)
    else return state
  else return st.state.addBalance env.context.coinbase tip

def enterState (state : World ω) : World ω :=
  match msg.toAddr with
  | none => state
  | some _ => state.setNonce msg.sender (state.nonce msg.sender + 1)

def run (data : Bytes) (gas : UInt64) (state : World ω) : CallResult ω gas :=
  match msg.toAddr with
  | none => I.create env msg.sender data gas msg.value state
  | some addr => I.call env msg.sender addr data gas msg.value state

/-- The stages of an accepted message: after the purchase of gas, before and
after the interpreter, after the refund, and at the end. -/
structure Transition (ω : Type) where
  checked : StateTransition ω
  ready : World ω
  called : StateTransition ω
  refunded : StateTransition ω
  settled : World ω
  result : ExecutionResult

def withAccessList (state : World ω) : World ω :=
  if env.isBerlin then
    { state with rest := I.prepareAccessList env msg.sender msg.toAddr msg.accessList state.rest }
  else state

def mayCreate (state : World ω) : Bool :=
  match msg.toAddr, env.context.canCreate with
  | none, some canCreate => canCreate state msg.sender env.context.blockNumber
  | _, _ => true

def transitionDb (gp : UInt64) (state : World ω) : Except TransitionError (Transition ω) := do
  let checked ← preCheck C env msg (newStateTransition env msg gp state)
  let gas ← intrinsicGas checked.data msg.accessList msg.toAddr.isNone env.isHomestead env.isIstanbul
  if checked.gas < gas then .error (.intrinsicGas checked.gas gas)
  else if 0 < msg.value ∧ ¬ canTransfer checked.state msg.sender msg.value then
    .error (.insufficientFundsForTransfer msg.sender)
  else
    let accessed := withAccessList I env msg checked.state
    if !mayCreate env msg accessed then .error .unauthorizedDeveloper
    else
      let ready := enterState env msg accessed
      let r := run I env msg checked.data (checked.gas - gas) ready
      let called := { checked with gas := r.leftOverGas, state := r.state }
      let refunded ← refundGas env msg
        (if env.isLondon then refundQuotientEIP3529 else refundQuotient) called
      let settled ← payFees env msg refunded
      return ⟨checked, ready, called, refunded, settled, ⟨refunded.gasUsed, r.err, r.ret⟩⟩

end

section

variable {C : Crypto} {I : Interpreter ω} {env : Env ω} {msg : Message env.context.baseFee}
variable {gp : UInt64} {w : World ω} {st st' : StateTransition ω}

def charge (st : StateTransition ω) (sender : Address) (amount : ℕ) (b : Ledger Address) :
    Ledger Address :=
  if st.isMeta then
    debit (debit b st.feeAddress (mgFeeAddrVal st.feePercent amount)) sender
      (mgSelfVal st.feePercent amount)
  else debit b sender amount

/-- The balances after the payers of a transition got an amount back. -/
def repay (st : StateTransition ω) (sender : Address) (amount : ℕ) (b : Ledger Address) :
    Ledger Address :=
  if st.isMeta then
    credit (credit b st.feeAddress (mgFeeAddrVal st.feePercent amount)) sender
      (mgSelfVal st.feePercent amount)
  else credit b sender amount

def CanPay (env : Env ω) (msg : Message env.context.baseFee) (b : Ledger Address)
    (st : StateTransition ω) : Prop :=
  if st.isMeta then
    mgFeeAddrVal st.feePercent (msg.gas.toNat * msg.gasPrice) ≤ b st.feeAddress ∧
      mgSelfVal st.feePercent (msg.gas.toNat * msg.gasPrice) ≤ b msg.sender
  else msg.gas.toNat * msg.gasFeeCap + msg.value ≤ b msg.sender

structure Bought (env : Env ω) (msg : Message env.context.baseFee) (b : Ledger Address)
    (st : StateTransition ω) : Prop where
  gas : st.gas = msg.gas
  initialGas : st.initialGas = msg.gas
  percent : st.isMeta = true → st.feePercent ≤ big10000
  canPay : CanPay env msg b st
  balance : st.state.balance = charge st msg.sender (msg.gas.toNat * msg.gasPrice) b

theorem decodeMetaData_percent {data} {n : Int} {m}
    (h : decodeMetaData data n = .ok m) : m.feePercent ≤ big10000 := by
  rw [decodeMetaData] at h
  split at h
  · cases h
  obtain ⟨m', _, h⟩ := bind_eq_ok.mp h
  split at h
  · cases h
  rename_i hle
  split at h
  · cases h
  cases h
  exact UInt64.not_lt.mp hle

theorem metaTransactionCheck_eq_ok (h : metaTransactionCheck C env msg st = .ok st')
    (hplain : st.isMeta = false) :
    st'.state = st.state ∧ st'.gp = st.gp ∧ st'.gas = st.gas ∧
      (st'.isMeta = true → st'.feePercent ≤ big10000) := by
  rw [metaTransactionCheck] at h
  split at h
  · obtain ⟨m, hm, h⟩ := bind_eq_ok.mp h
    obtain ⟨id, _, h⟩ := bind_eq_ok.mp h
    obtain ⟨addr, _, h⟩ := bind_eq_ok.mp h
    cases h
    exact ⟨rfl, rfl, rfl, fun _ => decodeMetaData_percent (mapError_eq_ok.mp hm)⟩
  cases h
  refine ⟨rfl, rfl, rfl, fun hm => ?_⟩
  rw [hplain] at hm
  cases hm

theorem buyGas_bought (h : buyGas env msg st = .ok st') (hgas : st.gas = 0)
    (hplain : st.isMeta = false) : Bought env msg st.state.balance st' := by
  rw [buyGas] at h
  split at h
  · cases h
  rename_i hle
  obtain ⟨gp', _, h⟩ := bind_eq_ok.mp h
  cases h
  refine ⟨by simp [hgas], rfl, fun hm => ?_, ?_, ?_⟩
  · rw [hplain] at hm
    cases hm
  · simpa [CanPay, hplain] using hle
  · simp [charge, hplain]

theorem buyGasMeta_bought (h : buyGasMeta env msg st = .ok st') (hgas : st.gas = 0)
    (hmeta : st.isMeta = true) (hp : st.feePercent ≤ big10000) :
    Bought env msg st.state.balance st' := by
  rw [buyGasMeta] at h
  split at h
  · cases h
  rename_i hle
  obtain ⟨gp', _, h⟩ := bind_eq_ok.mp h
  cases h
  refine ⟨by simp [hgas], rfl, fun _ => hp, ?_, ?_⟩
  · simpa [CanPay, hmeta] using hle
  · simp [charge, hmeta]

theorem preCheck_bought (h : preCheck C env msg (newStateTransition env msg gp w) = .ok st) :
    checkFeeCap env msg = .ok () ∧ Bought env msg w.balance st := by
  obtain ⟨_, _, h⟩ := bind_eq_ok.mp h
  obtain ⟨_, hcap, h⟩ := bind_eq_ok.mp h
  obtain ⟨st₁, hmeta, h⟩ := bind_eq_ok.mp h
  obtain ⟨hstate, _, hgas, hp⟩ := metaTransactionCheck_eq_ok hmeta rfl
  have hw : st₁.state.balance = w.balance := by
    rw [hstate]
    rfl
  refine ⟨hcap, ?_⟩
  rw [← hw]
  split at h
  · rename_i hm
    exact buyGasMeta_bought h hgas hm (hp hm)
  rename_i hm
  exact buyGas_bought h hgas (Bool.eq_false_iff.mpr hm)

theorem enterState_balance (w : World ω) : (enterState env msg w).balance = w.balance := by
  rw [enterState]
  split <;> rfl

theorem withAccessList_balance (w : World ω) : (withAccessList I env msg w).balance = w.balance := by
  rw [withAccessList]
  split <;> rfl

theorem run_moves (hI : I.Covered) (data : Bytes) (gas : UInt64) (w : World ω) :
    Moves w.balance (run I env msg data gas w).state.balance := by
  rw [run]
  split
  · apply hI.create
  · apply hI.call

/-- A refund is a part of the used gas, so it does not pass what was bought. -/
theorem refund_le {gas initial q refund : UInt64} (hle : gas ≤ initial)
    (hr : refund ≤ (initial - gas) / q) : gas + refund ≤ initial := by
  rw [le_iff_toNat_le] at hle hr ⊢
  rw [UInt64.toNat_div, UInt64.toNat_sub_of_le _ _ (le_iff_toNat_le.mpr hle)] at hr
  have hdiv := div_le_self (initial.toNat - gas.toNat) q.toNat
  have hlt := initial.toNat_lt
  rw [UInt64.toNat_add, Nat.mod_eq_of_lt (by omega)]
  omega

theorem refundGas_eq_ok {q : UInt64} (h : refundGas env msg q st = .ok st') (hle : st.gas ≤ st.initialGas) :
    st'.gas ≤ st.initialGas ∧ st'.initialGas = st.initialGas ∧
      st'.state.balance = repay st msg.sender (st'.gas.toNat * msg.gasPrice) st.state.balance := by
  obtain ⟨gp', _, h⟩ := bind_eq_ok.mp h
  cases h
  refine ⟨?_, rfl, ?_⟩
  · apply refund_le hle
    split
    · rename_i hlt
      exact UInt64.le_of_lt hlt
    · exact UInt64.le_refl _
  dsimp only
  rw [repay]
  split <;> rfl

theorem deref_eq_ok {α : Type} {p} {a : α} : deref p = .ok a ↔ p = some a := by
  cases p with
  | none => simp [deref]
  | some b => simp [deref]

theorem checkFeeCap_eq_ok {baseFee : ℕ} (h : checkFeeCap env msg = .ok ())
    (hl : env.isLondon = true) (hb : env.context.baseFee = some baseFee)
    (hlt : msg.gasFeeCap < baseFee) : msg.gasFeeCap = 0 ∧ msg.gasTipCap = 0 := by
  rw [checkFeeCap, if_pos hl] at h
  split at h
  · split at h
    · cases h
    split at h
    · cases h
    split at h
    · cases h
    obtain ⟨b, hb', h⟩ := bind_eq_ok.mp h
    rw [deref_eq_ok, hb, Option.some.injEq] at hb'
    rw [← hb', if_pos hlt] at h
    cases h
  rename_i hzero
  have hbits (n : ℕ) : ¬ 0 < bitLen n → n = 0 := by
    intro hn
    by_contra hne
    exact hn (by simp [bitLen, hne])
  exact ⟨hbits _ fun hc => hzero (.inr (.inl hc)), hbits _ fun hc => hzero (.inr (.inr hc))⟩

theorem payFees_congress (h : payFees env msg st = .ok w) (hC : env.chainConfig.congress.isSome = true) :
    w.balance = credit st.state.balance feeRecoder (st.gasUsed.toNat * msg.gasPrice) := by
  obtain ⟨tip, htip, h⟩ := bind_eq_ok.mp h
  rw [if_pos hC] at h
  have hprice : tip + creditedBaseFee env = msg.gasPrice := by
    rw [effectiveTip] at htip
    rw [creditedBaseFee]
    split at htip
    · rename_i hl
      obtain ⟨b, hb, htip⟩ := bind_eq_ok.mp htip
      cases htip
      rw [if_pos hl, msg.price_eq, effectivePrice_eq (deref_eq_ok.mp hb)]
    rename_i hl
    cases htip
    simp [hl]
  split at h
  · cases h
    rw [addBalance_balance, addBalance_balance, credit_credit, ← mul_add, hprice]
  rename_i hzero
  cases h
  have h0 : creditedBaseFee env = 0 := by omega
  rw [h0, cast_zero, add_zero] at hprice
  rw [addBalance_balance, hprice]

theorem payFees_plain (h : payFees env msg st = .ok w) (hC : env.chainConfig.congress.isSome = false) :
    ∃ tip, effectiveTip env msg = .ok tip ∧
      w.balance = credit st.state.balance env.context.coinbase (st.gasUsed.toNat * tip) := by
  obtain ⟨tip, htip, h⟩ := bind_eq_ok.mp h
  rw [if_neg (by simp [hC])] at h
  cases h
  exact ⟨tip, htip, rfl⟩

structure Stages (C : Crypto) (I : Interpreter ω) (env : Env ω) (msg : Message env.context.baseFee)
    (w : World ω) (t : Transition ω) : Prop where
  feeCap : checkFeeCap env msg = .ok ()
  bought : Bought env msg w.balance t.checked
  entered : t.ready.balance = t.checked.state.balance
  ran : ∃ gas ≤ t.checked.gas, let r := run I env msg t.checked.data gas t.ready
    t.called = { t.checked with gas := r.leftOverGas, state := r.state }
  gas_le : t.refunded.gas ≤ msg.gas
  initialGas : t.refunded.initialGas = msg.gas
  refunded : t.refunded.state.balance =
    repay t.checked msg.sender (t.refunded.gas.toNat * msg.gasPrice) t.called.state.balance
  paid : payFees env msg t.refunded = .ok t.settled

variable {t : Transition ω}

theorem transitionDb_parts (h : transitionDb C I env msg gp w = .ok t) :
    preCheck C env msg (newStateTransition env msg gp w) = .ok t.checked ∧
      t.ready = enterState env msg (withAccessList I env msg t.checked.state) ∧
      (∃ gas ≤ t.checked.gas, let r := run I env msg t.checked.data gas t.ready
        t.called = { t.checked with gas := r.leftOverGas, state := r.state }) ∧
      (∃ q, refundGas env msg q t.called = .ok t.refunded) ∧
      payFees env msg t.refunded = .ok t.settled ∧ t.result.usedGas = t.refunded.gasUsed := by
  obtain ⟨checked, hcheck, h⟩ := bind_eq_ok.mp h
  obtain ⟨gas, _, h⟩ := bind_eq_ok.mp h
  split at h
  · cases h
  rename_i hgas
  split at h
  · cases h
  dsimp only at h
  split at h
  · cases h
  obtain ⟨refunded, hrefund, h⟩ := bind_eq_ok.mp h
  obtain ⟨settled, hpay, h⟩ := bind_eq_ok.mp h
  cases h
  have hsub : checked.gas - gas ≤ checked.gas := by
    rw [le_iff_toNat_le, UInt64.toNat_sub_of_le _ _ (UInt64.not_lt.mp hgas)]
    omega
  exact ⟨hcheck, rfl, ⟨_, hsub, rfl⟩, ⟨_, hrefund⟩, hpay, rfl⟩

theorem transitionDb_stages (h : transitionDb C I env msg gp w = .ok t) : Stages C I env msg w t := by
  obtain ⟨hcheck, hready, ⟨gas, hsub, hran⟩, ⟨q, hrefund⟩, hpay, _⟩ := transitionDb_parts h
  obtain ⟨hcap, hb⟩ := preCheck_bought hcheck
  have hcalled : t.called.gas ≤ t.called.initialGas := by
    rw [hran]
    dsimp only
    rw [hb.initialGas, ← hb.gas]
    exact UInt64.le_trans (run I env msg t.checked.data gas t.ready).left_le hsub
  obtain ⟨hle, hinit, hbal⟩ := refundGas_eq_ok hrefund hcalled
  have hinitial : t.called.initialGas = msg.gas := by
    rw [hran]
    exact hb.initialGas
  refine ⟨hcap, hb, ?_, ⟨gas, hsub, hran⟩, hinitial ▸ hle, hinit.trans hinitial, ?_, hpay⟩
  · rw [hready, enterState_balance, withAccessList_balance]
  rw [hbal, hran]
  rfl

end

end Geth.Core.TransitionDb
