import Geth.Core.TransitionDb

namespace Geth.Core.FeeAccounting

open Lib.BigEndian Lib.Balances Lib.Shares Common.Basic Params.Config Types.MetaTransaction Evm
open TransitionDb Int

variable {ω : Type} {C : Crypto} {I : Interpreter ω} {env : Env ω}
variable {msg : Message env.context.baseFee} {gp : UInt64} {w w' : World ω}
variable {st : StateTransition ω} {t : Transition ω} {b : Ledger Address}

/-- The sender of a meta transaction pays its fee as well, and does not hold the
sum of both parts. -/
def PaysTwice (env : Env ω) (msg : Message env.context.baseFee) (b : Ledger Address)
    (st : StateTransition ω) : Prop :=
  st.isMeta = true ∧ st.feeAddress = msg.sender ∧
    b msg.sender < (mgFeeAddrVal st.feePercent (msg.gas.toNat * msg.gasPrice) : ℤ) +
      mgSelfVal st.feePercent (msg.gas.toNat * msg.gasPrice)

/-- A call that offers nothing is charged the base fee at the expense of a
sealer who does not hold it. This takes a machine that ignores the base fee, and
a chain without Congress. -/
def Overdrawn (env : Env ω) (msg : Message env.context.baseFee) (st : StateTransition ω) : Prop :=
  env.isLondon = true ∧ env.chainConfig.congress.isSome = false ∧
    msg.gasFeeCap = 0 ∧ msg.gasTipCap = 0 ∧
    st.state.balance env.context.coinbase < st.gasUsed.toNat * env.context.baseFee.getD 0

theorem bought_nonNeg_iff (hb : NonNeg b) (h : Bought env msg b st) :
    NonNeg st.state.balance ↔ ¬ PaysTwice env msg b st := by
  have hpay := h.canPay
  rw [h.balance, charge, PaysTwice]
  rw [CanPay] at hpay
  by_cases hm : st.isMeta = true
  · rw [if_pos hm] at hpay ⊢
    rw [nonNeg_debit_debit hb hpay.1 hpay.2]
    simp only [hm, true_and]
  rw [if_neg hm] at hpay ⊢
  -- the price is at most the cap, which the sender was checked to hold
  have hprice : msg.gasPrice ≤ msg.gasFeeCap := by
    rw [msg.price_eq]
    exact effectivePrice_le _ _ _
  have hle : ((msg.gas.toNat * msg.gasPrice : ℕ) : ℤ) ≤ b msg.sender := by
    have hmul := Nat.mul_le_mul_left msg.gas.toNat hprice
    push_cast at hpay ⊢
    zify at hmul
    linarith
  exact ⟨fun _ hc => hm hc.1, fun _ => hb.debit hle⟩

theorem repay_nonNeg (hb : NonNeg b) (a : Address) (n : ℕ) : NonNeg (repay st a n b) := by
  rw [repay]
  split
  · apply NonNeg.credit_of_nonneg _ _ (natCast_nonneg _)
    exact hb.credit_of_nonneg _ (natCast_nonneg _)
  · exact hb.credit_of_nonneg _ (natCast_nonneg _)

section

variable (hst : NonNeg st.state.balance) (hcap : checkFeeCap env msg = .ok ())
    (h : payFees env msg st = .ok w')
include hst hcap h

/-- On a chain without Congress the tip is the only credit, and it is negative
exactly when nothing is offered against a base fee. -/
theorem payFees_plain_nonNeg_iff (hC : env.chainConfig.congress.isSome = false) :
    NonNeg w'.balance ↔ ¬ Overdrawn env msg st := by
  obtain ⟨tip, htip, hw⟩ := payFees_plain h hC
  rw [hw, nonNeg_credit_iff hst, Overdrawn]
  have hcoin := hst env.context.coinbase
  have hused := natCast_nonneg st.gasUsed.toNat
  rw [effectiveTip] at htip
  split at htip
  · rename_i hl
    obtain ⟨baseFee, hbase, htip⟩ := bind_eq_ok.mp htip
    cases htip
    rw [deref_eq_ok] at hbase
    have hget : env.context.baseFee.getD 0 = baseFee := by simp [hbase]
    rw [hget]
    by_cases hlt : msg.gasFeeCap < baseFee
    · obtain ⟨hc, ht⟩ := checkFeeCap_eq_ok hcap hl hbase hlt
      have hneg : min (msg.gasTipCap : ℤ) (msg.gasFeeCap - baseFee) = -baseFee := by omega
      rw [hneg]
      simp only [hl, hC, hc, ht, true_and, not_lt]
      constructor <;> intro hle <;> linarith
    have hpos : 0 ≤ min (msg.gasTipCap : ℤ) (msg.gasFeeCap - baseFee) := by omega
    have hmul := mul_nonneg hused hpos
    refine ⟨?_, fun _ => by linarith⟩
    rintro _ ⟨_, _, hc, _, hbal⟩
    obtain rfl : baseFee = 0 := by omega
    rw [Nat.cast_zero, mul_zero] at hbal
    linarith
  rename_i hl
  cases htip
  have hmul := mul_nonneg hused (natCast_nonneg msg.gasPrice)
  exact ⟨fun _ hc => hl hc.1, fun _ => by linarith⟩

theorem payFees_nonNeg_iff : NonNeg w'.balance ↔ ¬ Overdrawn env msg st := by
  by_cases hC : env.chainConfig.congress.isSome = true
  · rw [payFees_congress h hC]
    have hnn : NonNeg (credit st.state.balance feeRecoder (st.gasUsed.toNat * msg.gasPrice)) :=
      hst.credit_of_nonneg _ (mul_nonneg (natCast_nonneg _) (natCast_nonneg _))
    refine ⟨fun _ hc => ?_, fun _ => hnn⟩
    have hnone := hc.2.1
    rw [hC] at hnone
    cases hnone
  · exact payFees_plain_nonNeg_iff hst hcap h (Bool.eq_false_iff.mpr hC)

end

theorem refunded_nonNeg (hI : I.Covered) (h : Stages C I env msg w t)
    (hchecked : NonNeg t.checked.state.balance) : NonNeg t.refunded.state.balance := by
  obtain ⟨gas, _, hran⟩ := h.ran
  rw [h.refunded, hran]
  apply repay_nonNeg
  apply (run_moves hI t.checked.data gas t.ready).nonNeg
  rw [h.entered]
  exact hchecked

/-- An accepted message leaves every balance non-negative, after the purchase of
gas and at the end, exactly when the sender does not pay twice what it only
holds once, and no sealer is overdrawn by a call that offers nothing. -/
theorem transitionDb_nonNeg_iff (hI : I.Covered) (hw : NonNeg w.balance)
    (h : transitionDb C I env msg gp w = .ok t) :
    (NonNeg t.checked.state.balance ∧ NonNeg t.settled.balance) ↔
      ¬ PaysTwice env msg w.balance t.checked ∧ ¬ Overdrawn env msg t.refunded := by
  have hs := transitionDb_stages h
  rw [bought_nonNeg_iff hw hs.bought]
  apply and_congr_right
  intro hpays
  have hchecked := (bought_nonNeg_iff hw hs.bought).mpr hpays
  exact payFees_nonNeg_iff (refunded_nonNeg hI hs hchecked) hs.feeCap hs.paid

/-- An interpreter for accounts without code: nothing runs, and all gas is left. -/
def idle : Interpreter Unit where
  call _ _ _ _ gas _ w := ⟨[], gas, UInt64.le_refl _, none, w⟩
  create _ _ _ gas _ w := ⟨[], gas, UInt64.le_refl _, none, w⟩
  prepareAccessList _ _ _ _ _ := ()

theorem idle_covered : idle.Covered :=
  ⟨fun _ _ _ _ _ _ w => .refl w.balance, fun _ _ _ _ _ w => .refl w.balance⟩

def sampleEnv (gasPrice : ℕ) : Env Unit where
  chainConfig := istanbulConfig (some ⟨3, 200, false, none⟩)
  noBaseFee := false
  context := {
    getHash := fun _ => zeros 32
    coinbase := addressTwo
    gasLimit := 30000000
    blockNumber := 1
    time := 3
    difficulty := 2
    baseFee := none
    canCreate := none
    extraValidator := none }
  txContext := ⟨addressOne, gasPrice⟩

def sampleMessage (gas : UInt64) (gasPrice : ℕ) (data : Bytes) : Message none where
  sender := addressOne
  toAddr := some addressTwo
  nonce := 0
  value := 0
  gas := gas
  gasPrice := gasPrice
  gasFeeCap := gasPrice
  gasTipCap := gasPrice
  price_eq := rfl
  data := data
  accessList := []
  isFake := false

def sampleWorld (one two : ℕ) : World Unit where
  balance := credit (credit 0 addressOne one) addressTwo two
  nonce _ := 0
  codeHash _ := zeros 32
  refund := 0
  thash := zeros 32
  txIndex := 0
  logs _ := []
  rest := ()

theorem sampleWorld_nonNeg (one two : ℕ) : NonNeg (sampleWorld one two).balance := by
  have hzero : NonNeg (0 : Ledger Address) := fun _ => le_refl 0
  apply NonNeg.credit_of_nonneg _ _ (natCast_nonneg two)
  exact hzero.credit_of_nonneg _ (natCast_nonneg one)

/-- Meta data with the payload `1234`, by which the sender pays half of the fee
to itself, and by which the second account pays a ten-thousandth. -/
def selfPaidData : Bytes := (ofNat 93 0x234d6574615472616e73616374696f6e23f84a6482138826a042b1adac081c18a31a69e6639e085d47c04f7de30bfaa984598e7ccf067d76d3a028846c29a0a95fcc3fffac0370916545cae9ad5d427f81e4dfdb8dfc63617fba821234).toList
def sharedData : Bytes := (ofNat 91 0x234d6574615472616e73616374696f6e23f848640125a04aab26ecbd665546add250cef8b22b778b36b7d7c2456060119e91dafe995913a07e63498a38459097fd8eb9f8a50a0f47d3b5010a4778809f24a3760c20b657e7821234).toList

def feeCrypto : Crypto :=
  let selfPaid := hexToHash 0xd2654dd67f1f1895926fe620ca99b1bb006e6d4c4844964c8f2c6141d915a93c
  let shared := hexToHash 0x4b0e2d30a3e0a4bec93ff77f844bb332212f1f8d1ea228b71e5ca4b9f6520ceb
  Crypto.ofTables
    (((ofNat 60 0xf83a808203e8825228942b5ad5c4795c026514f8317c7a215e218dccd6cf80821234947e5f4552091a69125d5dfcb7b8c2659029395bdf8213886401).toList, selfPaid) ::
      ((ofNat 55 0xf68001827530942b5ad5c4795c026514f8317c7a215e218dccd6cf80821234947e5f4552091a69125d5dfcb7b8c2659029395bdf016401).toList, shared) ::
      sampleKeys.map (fun k => (k.1.toList.drop 1, k.2)))
    [((selfPaid, (ofNat 65 0x42b1adac081c18a31a69e6639e085d47c04f7de30bfaa984598e7ccf067d76d328846c29a0a95fcc3fffac0370916545cae9ad5d427f81e4dfdb8dfc63617fba01).toList), pubOne),
      ((shared, (ofNat 65 0x4aab26ecbd665546add250cef8b22b778b36b7d7c2456060119e91dafe9959137e63498a38459097fd8eb9f8a50a0f47d3b5010a4778809f24a3760c20b657e700).toList), pubTwo)]

/-- With the sum of both parts the sender may pay its own fee. -/
theorem transitionDb_nonNeg_selfPaid : ∃ t,
    transitionDb feeCrypto idle (sampleEnv 1000) (sampleMessage 21032 1000 selfPaidData) 30000000
      (sampleWorld 21032000 0) = .ok t ∧
    NonNeg t.checked.state.balance ∧ NonNeg t.settled.balance := by
  obtain ⟨t, ht, hp⟩ := exists_ok_of_any
    (x := transitionDb feeCrypto idle (sampleEnv 1000) (sampleMessage 21032 1000 selfPaidData) 30000000
      (sampleWorld 21032000 0))
    (p := fun t => decide (t.checked.feePercent = 5000)) (by decide +kernel)
  refine ⟨t, ht, (transitionDb_nonNeg_iff idle_covered (sampleWorld_nonNeg _ _) ht).mpr ⟨?_, ?_⟩⟩
  · rintro ⟨_, _, hlt⟩
    rw [of_decide_eq_true hp] at hlt
    revert hlt
    decide +kernel
  rintro ⟨hl, _⟩
  cases hl

/-- With half of the fee it passes both checks, and pays the half it lacks. -/
theorem transitionDb_selfPaid_negative : idle.Covered ∧
    NonNeg (sampleWorld 10516000 0).balance ∧ ∃ t,
    transitionDb feeCrypto idle (sampleEnv 1000) (sampleMessage 21032 1000 selfPaidData) 30000000
      (sampleWorld 10516000 0) = .ok t ∧
    t.checked.state.balance addressOne = -10516000 ∧ t.settled.balance addressOne = -10516000 := by
  refine ⟨idle_covered, sampleWorld_nonNeg _ _, ?_⟩
  obtain ⟨t, ht, hp⟩ := exists_ok_of_any
    (x := transitionDb feeCrypto idle (sampleEnv 1000) (sampleMessage 21032 1000 selfPaidData) 30000000
      (sampleWorld 10516000 0))
    (p := fun t => decide (t.checked.state.balance addressOne = -10516000 ∧
      t.settled.balance addressOne = -10516000)) (by decide +kernel)
  exact ⟨t, ht, of_decide_eq_true hp⟩

/-- What the payers of a transition do not pay, or do not get back, of an
amount. -/
def rounding (st : StateTransition ω) (amount : ℕ) : ℕ :=
  if st.isMeta then loss big10000.toNat st.feePercent.toNat amount else 0

theorem shares_eq (hp : st.feePercent ≤ big10000) (n : ℕ) :
    (mgFeeAddrVal st.feePercent n : ℤ) + mgSelfVal st.feePercent n =
      n - loss big10000.toNat st.feePercent.toNat n := by
  have hadd := share_add_share (d := big10000.toNat) (by decide) (UInt64.le_iff_toNat_le.mp hp) n
  rw [mgFeeAddrVal, mgSelfVal, UInt64.toNat_sub_of_le _ _ hp]
  omega

section

variable (hp : st.isMeta = true → st.feePercent ≤ big10000) (a : Address) (n : ℕ)
include hp a n

theorem total_charge (b : Ledger Address) : total (charge st a n b) = total b - n + rounding st n := by
  rw [charge, rounding]
  split
  · rename_i hm
    have heq := shares_eq (hp hm) n
    rw [total_debit, total_debit]
    linarith
  rw [total_debit]
  simp

theorem total_repay (b : Ledger Address) : total (repay st a n b) = total b + n - rounding st n := by
  rw [repay, rounding]
  split
  · rename_i hm
    have heq := shares_eq (hp hm) n
    rw [total_credit, total_credit]
    linarith
  rw [total_credit]
  simp

end

/-- The supply changes by what the interpreter changes, and by what is rounded
away at the purchase but not at the refund. -/
theorem total_settled (hC : env.chainConfig.congress.isSome = true) (h : Stages C I env msg w t) :
    total t.settled.balance = total w.balance + (total t.called.state.balance - total t.ready.balance) +
      rounding t.checked (msg.gas.toNat * msg.gasPrice) -
      rounding t.checked (t.refunded.gas.toNat * msg.gasPrice) := by
  have hused : t.refunded.gasUsed.toNat + t.refunded.gas.toNat = msg.gas.toNat := by
    have hle := h.gas_le
    rw [StateTransition.gasUsed, h.initialGas, UInt64.toNat_sub_of_le _ _ hle]
    rw [UInt64.le_iff_toNat_le] at hle
    omega
  have hsplit : (t.refunded.gasUsed.toNat * msg.gasPrice : ℤ) +
      (t.refunded.gas.toNat * msg.gasPrice : ℕ) = (msg.gas.toNat * msg.gasPrice : ℕ) := by
    rw [← hused]
    push_cast
    ring
  rw [payFees_congress h.paid hC, total_credit, h.refunded, total_repay h.bought.percent, h.entered,
    h.bought.balance, total_charge h.bought.percent]
  linarith

theorem rounding_eq_iff (st : StateTransition ω) (m n : ℕ) : rounding st m = rounding st n ↔
    (st.isMeta = true → (big10000.toNat ∣ m * st.feePercent.toNat ↔
      big10000.toNat ∣ n * st.feePercent.toNat)) := by
  rw [rounding, rounding]
  by_cases hm : st.isMeta = true
  · rw [if_pos hm, if_pos hm, loss, loss]
    split <;> rename_i h₁ <;> split <;> rename_i h₂ <;> simp [hm, h₁, h₂]
  · simp [hm]

/-- No wei is created or destroyed: the supply only changes as the interpreter
changes it, and what is taken for gas is given back or credited. -/
structure Conserves (w : World ω) (t : Transition ω) : Prop where
  supply : total t.settled.balance =
    total w.balance + (total t.called.state.balance - total t.ready.balance)
  fees : total w.balance - total t.checked.state.balance =
    (total t.refunded.state.balance - total t.called.state.balance) +
      (total t.settled.balance - total t.refunded.state.balance)

/-- Fees are conserved on a Congress chain exactly when a meta transaction is
rounded alike at the purchase and at the refund. -/
theorem transitionDb_conserves_iff (hC : env.chainConfig.congress.isSome = true)
    (h : transitionDb C I env msg gp w = .ok t) :
    Conserves w t ↔ (t.checked.isMeta = true →
      (big10000.toNat ∣ msg.gas.toNat * msg.gasPrice * t.checked.feePercent.toNat ↔
        big10000.toNat ∣ t.refunded.gas.toNat * msg.gasPrice * t.checked.feePercent.toNat)) := by
  have hs := transitionDb_stages h
  have htotal := total_settled hC hs
  have hready : total t.ready.balance = total t.checked.state.balance := by rw [hs.entered]
  rw [← rounding_eq_iff]
  constructor
  · intro hcons
    have hsupply := hcons.supply
    omega
  intro hround
  constructor
  · omega
  · omega

theorem transitionDb_conserves_selfPaid : ∃ t,
    transitionDb feeCrypto idle (sampleEnv 1000) (sampleMessage 21032 1000 selfPaidData) 30000000
      (sampleWorld 21032000 0) = .ok t ∧ Conserves (sampleWorld 21032000 0) t := by
  obtain ⟨t, ht, hp⟩ := exists_ok_of_any
    (x := transitionDb feeCrypto idle (sampleEnv 1000) (sampleMessage 21032 1000 selfPaidData) 30000000
      (sampleWorld 21032000 0))
    (p := fun t => decide (t.checked.feePercent = 5000 ∧ t.refunded.gas = 0)) (by decide +kernel)
  obtain ⟨hpercent, hgas⟩ := of_decide_eq_true hp
  refine ⟨t, ht, (transitionDb_conserves_iff rfl ht).mpr fun _ => ?_⟩
  rw [hpercent, hgas]
  decide +kernel

/-- The purchase is whole, but rounding the refund destroys one wei. -/
theorem transitionDb_loses_wei : ∃ t,
    transitionDb feeCrypto idle (sampleEnv 1) (sampleMessage 30000 1 sharedData) 30000000
      (sampleWorld 100000 100000) = .ok t ∧
    ¬ Conserves (sampleWorld 100000 100000) t ∧
    total t.settled.balance = total (sampleWorld 100000 100000).balance +
      (total t.called.state.balance - total t.ready.balance) - 1 := by
  obtain ⟨t, ht, hp⟩ := exists_ok_of_any
    (x := transitionDb feeCrypto idle (sampleEnv 1) (sampleMessage 30000 1 sharedData) 30000000
      (sampleWorld 100000 100000))
    (p := fun t => decide ( rounding t.checked ((sampleMessage 30000 1 sharedData).gas.toNat * 1) = 0 ∧
      rounding t.checked (t.refunded.gas.toNat * 1) = 1)) (by decide +kernel)
  obtain ⟨hbuy, hrefund⟩ := of_decide_eq_true hp
  have htotal := total_settled rfl (transitionDb_stages ht)
  have hlost : total t.settled.balance = total (sampleWorld 100000 100000).balance +
      (total t.called.state.balance - total t.ready.balance) - 1 := by
    have hprice : (sampleMessage 30000 1 sharedData).gasPrice = 1 := rfl
    rw [htotal, hprice, hbuy, hrefund]
    omega
  refine ⟨t, ht, fun hcons => ?_, hlost⟩
  have hsupply := hcons.supply
  omega

end Geth.Core.FeeAccounting
