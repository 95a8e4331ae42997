import Geth.Core.Process

namespace Geth.Core.CurrentNonces

open Lib.Programs Common.Basic Types.Block Types.TxData Types.Receipts
open Evm TransitionDb Process Congress.SystemCalls Congress.Finalize Congress.Assembly List Except

variable {ω : Type}

section

variable (C : Crypto) (c : Posa ω) (hooks : ContractHooks ω) (noBaseFee : Bool)

def ready (header : Header) (number : Int) (index : ℕ) (sender : Address) (tx : Transaction) :
    Run ω Unit := do
  validateTx c hooks sender tx header number
  mapError .engine (c.prepareState (tx.hash C) index)

/-- In the loop over the transactions of a block, a common transaction of a
sender is applied to a state. -/
inductive CommonTurn (header : Header) (blockHash : Hash) (context : BlockContext ω) (number : Int) :
    ℕ → List Transaction → Progress → World ω → Transaction → Address → World ω → Prop
  | here {index : ℕ} {tx : Transaction} {txs : List Transaction} {p : Progress} {sender : Address}
      {w before : World ω} (hsender : (txSigner c header).sender C tx = .ok sender)
      (hsys : isSysTransaction sender tx header = false)
      (hready : ready C c hooks header number index sender tx w = .ok () before) :
      CommonTurn header blockHash context number index (tx :: txs) p w tx sender before
  | later {index : ℕ} {tx tx' : Transaction} {txs : List Transaction} {p p₁ : Progress}
      {sender : Address} {w w₁ before : World ω}
      (hstep : processTx C c hooks noBaseFee header blockHash context number index tx p w = .ok p₁ w₁)
      (h : CommonTurn header blockHash context number (index + 1) txs p₁ w₁ tx' sender before) :
      CommonTurn header blockHash context number index (tx :: txs) p w tx' sender before

/-- In the loop over the system transactions, the transaction of a proposal is
replayed on a state. -/
inductive SystemTurn (header : Header) (txCount : ℕ) :
    ℕ → List Transaction → World ω → Proposal → Transaction → World ω → Prop
  | here {i : ℕ} {tx : Transaction} {txs : List Transaction} {prop : Proposal} {w before : World ω}
      (hprop : c.getPassedProposalByIndex header (UInt32.ofNat i) w = .ok prop before) :
      SystemTurn header txCount i (tx :: txs) w prop tx before
  | later {i : ℕ} {tx tx' : Transaction} {txs : List Transaction} {prop prop' : Proposal}
      {r : Receipt} {w w₁ w₂ before : World ω}
      (hprop : c.getPassedProposalByIndex header (UInt32.ofNat i) w = .ok prop w₁)
      (hstep : replayProposal C c header prop (txCount + i) tx w₁ = .ok r w₂)
      (h : SystemTurn header txCount (i + 1) txs w₂ prop' tx' before) :
      SystemTurn header txCount i (tx :: txs) w prop' tx' before

def openBlock (header : Header) (number : Int) : Run ω (BlockContext ω) := do
  let context ← ofExcept ((c.newEVMBlockContext header).mapError .engine)
  mapError .engine (preHandle c hooks header number)
  let extraValidator ← mapError .engine (hooks.createEvmExtraValidator header)
  return { context with extraValidator := extraValidator }

def beforeReplay (header : Header) (txs : List Transaction) : Sys ω UInt32 := do
  beforeEpoch c header txs
  epochStep c header
  c.getPassedProposalCount header

inductive Effect (ω : Type) where
  | common (tx : Transaction) (sender : Address) (before : World ω)
  | system (prop : Proposal) (tx : Transaction) (before : World ω)

def Effect.tx : Effect ω → Transaction
  | .common tx _ _ => tx
  | .system _ tx _ => tx

/-- The transactions of a block that take effect while it is processed from a
state. -/
inductive TakesEffect (blockHeader : Header) (txs : List Transaction) (w : World ω) : Effect ω → Prop
  | common {context : BlockContext ω} {w₁ before : World ω} {tx : Transaction} {sender : Address}
      (hopen : openBlock c hooks (copyHeader blockHeader) (blockHeader.number.getD 0) w =
        .ok context w₁)
      (h : CommonTurn C c hooks noBaseFee (copyHeader blockHeader) (blockHeader.hash C) context
        (blockHeader.number.getD 0) 0 txs ⟨(copyHeader blockHeader).gasLimit, 0, [], [], [], []⟩ w₁
        tx sender before) :
      TakesEffect blockHeader txs w (.common tx sender before)
  | system {context : BlockContext ω} {p : Progress} {count : UInt32} {w₁ w₂ w₃ before : World ω}
      {tx : Transaction} {prop : Proposal}
      (hopen : openBlock c hooks (copyHeader blockHeader) (blockHeader.number.getD 0) w =
        .ok context w₁)
      (htxs : processTxs C c hooks noBaseFee (copyHeader blockHeader) (blockHeader.hash C) context
        (blockHeader.number.getD 0) 0 txs ⟨(copyHeader blockHeader).gasLimit, 0, [], [], [], []⟩ w₁ =
          .ok p w₂)
      (hred : c.chainConfig.isRedCoast (copyHeader blockHeader).number = true)
      (hbefore : beforeReplay c (copyHeader blockHeader) p.commonTxs w₂ = .ok count w₃)
      (h : SystemTurn C c (copyHeader blockHeader) p.commonTxs.length 0
        (p.systemTxs.take count.toNat) w₃ prop tx before) :
      TakesEffect blockHeader txs w (.system prop tx before)

/-- The nonce is the sender's, and a system transaction has the price, value and
gas that the sealer gives it. -/
def Effect.Right (header : Header) : Effect ω → Prop
  | .common tx sender before => tx.nonce = before.nonce sender
  | .system prop tx before =>
    let made := proposalTx c header prop (before.nonce header.coinbase) tx.data
    tx.nonce = made.nonce ∧ tx.gasPrice = made.gasPrice ∧ tx.value = made.value ∧ tx.gas = made.gas

structure Determined (blockHeader : Header) (txs : List Transaction) (w : World ω) : Prop where
  takesEffect : ∀ tx ∈ txs, ∃ e, TakesEffect C c hooks noBaseFee blockHeader txs w e ∧ e.tx = tx
  right : ∀ e, TakesEffect C c hooks noBaseFee blockHeader txs w e → e.Right c (copyHeader blockHeader)

end

section

variable {C : Crypto} {c : Posa ω} {hooks : ContractHooks ω} {noBaseFee : Bool} {header : Header}
    {env : Env ω} {msg : Message env.context.baseFee}
variable {blockHash : Hash} {context : BlockContext ω} {number : Int} {w w' before : World ω}
variable {p p' : Progress} {tx : Transaction} {txs : List Transaction} {index : ℕ} {sender : Address}

theorem checkSender_nonce (hfake : msg.isFake = false)
    (h : checkSender C env msg w = .ok ()) : msg.nonce = w.nonce msg.sender := by
  rw [checkSender, hfake] at h
  simp only [Bool.false_eq_true, if_false] at h
  split at h
  · cases h
  rename_i hhigh
  split at h
  · cases h
  rename_i hlow
  exact UInt64.le_antisymm (UInt64.not_lt.mp hhigh) (UInt64.not_lt.mp hlow)

theorem transitionDb_nonce {I} {gp} {t} (hfake : msg.isFake = false)
    (h : transitionDb C I env msg gp w = .ok t) : msg.nonce = w.nonce msg.sender := by
  obtain ⟨checked, hcheck, _⟩ := bind_eq_ok.mp h
  obtain ⟨_, hsender, _⟩ := bind_eq_ok.mp hcheck
  exact checkSender_nonce hfake hsender

theorem applyTransaction_nonce {msg} (hfake : msg.isFake = false)
    (h : applyTransaction C c noBaseFee header blockHash context index tx msg p w = .ok p' w') :
    msg.nonce = w.nonce msg.sender := by
  obtain ⟨w₁, w₂, hget, h⟩ := bind_ok.mp h
  obtain ⟨t, w₃, ht, _⟩ := bind_ok.mp h
  obtain ⟨rfl, rfl⟩ := get_ok.mp hget
  exact transitionDb_nonce hfake (mapError_eq_ok.mp (ofExcept_ok.mp ht).1)

theorem asMessage_ok {s} {baseFee} {msg}
    (hsender : s.sender C tx = .ok sender) (h : asMessage C s baseFee tx = .ok msg) :
    msg.sender = sender ∧ msg.nonce = tx.nonce ∧ msg.isFake = false := by
  obtain ⟨a, ha, h⟩ := bind_eq_ok.mp h
  obtain rfl := ok.inj (ha.symm.trans hsender)
  cases h
  exact ⟨rfl, rfl, rfl⟩

theorem processTx_common (hsender : (txSigner c header).sender C tx = .ok sender)
    (hsys : isSysTransaction sender tx header = false)
    (h : processTx C c hooks noBaseFee header blockHash context number index tx p w = .ok p' w') :
    ∃ before, ready C c hooks header number index sender tx w = .ok () before ∧
      tx.nonce = before.nonce sender := by
  obtain ⟨a, w₁, ha, h⟩ := bind_ok.mp h
  obtain ⟨haddr, rfl⟩ := ofExcept_ok.mp ha
  obtain rfl := ok.inj ((mapError_eq_ok.mp haddr).symm.trans hsender)
  rw [if_neg (by simp [hsys])] at h
  obtain ⟨_, w₂, hvalid, h⟩ := bind_ok.mp h
  obtain ⟨msg, w₃, hrun, h⟩ := bind_ok.mp h
  obtain ⟨hmsg, rfl⟩ := ofExcept_ok.mp hrun
  obtain ⟨_, before, hprepare, h⟩ := bind_ok.mp h
  obtain ⟨hfrom, hnonce, hfake⟩ := asMessage_ok hsender (mapError_eq_ok.mp hmsg)
  refine ⟨before, bind_ok.mpr ⟨(), w₂, hvalid, hprepare⟩, ?_⟩
  rw [← hnonce, ← hfrom]
  exact applyTransaction_nonce hfake h

section

variable (hturn : CommonTurn C c hooks noBaseFee header blockHash context number index txs p w tx sender before)
include hturn

theorem CommonTurn.nonce
    (h : processTxs C c hooks noBaseFee header blockHash context number index txs p w = .ok p' w') :
    tx.nonce = before.nonce sender := by
  induction hturn with
  | here hsender hsys hready =>
    obtain ⟨p₁, w₁, hstep, _⟩ := bind_ok.mp h
    obtain ⟨w₂, hready', hnonce⟩ := processTx_common hsender hsys hstep
    obtain rfl := (EStateM.Result.ok.inj (hready.symm.trans hready')).2
    exact hnonce
  | later hstep _ ih =>
    obtain ⟨p₁, w₁, hstep', h⟩ := bind_ok.mp h
    obtain ⟨rfl, rfl⟩ := EStateM.Result.ok.inj (hstep.symm.trans hstep')
    exact ih h

theorem CommonTurn.not_isSystem : isSystem C c header tx = false := by
  induction hturn with
  | here hsender hsys _ =>
    rw [isSystem, hsender]
    exact hsys
  | later _ _ ih => exact ih

end

theorem exists_commonTurn (hmem : tx ∈ txs) (hsys : isSystem C c header tx = false)
    (h : processTxs C c hooks noBaseFee header blockHash context number index txs p w = .ok p' w') :
    ∃ sender before, CommonTurn C c hooks noBaseFee header blockHash context number index txs p w tx
      sender before := by
  induction txs generalizing index p w with
  | nil => cases hmem
  | cons tx' txs ih =>
    obtain ⟨p₁, w₁, hstep, h⟩ := bind_ok.mp h
    obtain rfl | hmem := mem_cons.mp hmem
    · obtain ⟨sender, w₂, hsender, _⟩ := bind_ok.mp hstep
      have hsender := mapError_eq_ok.mp (ofExcept_ok.mp hsender).1
      rw [isSystem, hsender] at hsys
      obtain ⟨before, hready, _⟩ := processTx_common hsender hsys hstep
      exact ⟨sender, before, .here hsender hsys hready⟩
    obtain ⟨sender, before, hturn⟩ := ih hmem h
    exact ⟨sender, before, .later hstep hturn⟩

end

section

variable {C : Crypto} {c : Posa ω} {header : Header} {txCount i : ℕ} {w w' before : World ω}
variable {tx : Transaction} {txs : List Transaction} {prop : Proposal} {rs : List Executed}

theorem SystemTurn.mem (hturn : SystemTurn C c header txCount i txs w prop tx before) : tx ∈ txs := by
  induction hturn with
  | here _ => exact mem_cons_self
  | later _ _ _ ih => exact mem_cons_of_mem _ ih

theorem exists_systemTurn (hmem : tx ∈ txs) (h : replayProposals C c header txCount i txs w = .ok rs w') :
    ∃ prop before, SystemTurn C c header txCount i txs w prop tx before := by
  induction txs generalizing i w rs w' with
  | nil => cases hmem
  | cons tx' txs ih =>
    obtain ⟨prop, w₁, hprop, h⟩ := bind_ok.mp h
    obtain ⟨r, w₂, hstep, h⟩ := bind_ok.mp h
    obtain ⟨rest, w₃, hrest, _⟩ := bind_ok.mp h
    obtain rfl | hmem := mem_cons.mp hmem
    · exact ⟨prop, w₁, .here hprop⟩
    obtain ⟨prop', before, hturn⟩ := ih hmem hrest
    exact ⟨prop', before, .later hprop hstep hturn⟩

theorem gasPrice_of_isSystem (hsys : isSystem C c header tx = true)
    (hto : tx.toAddr = some sysGovContractAddr → tx.gasPrice = 0) : tx.gasPrice = 0 := by
  rw [isSystem] at hsys
  split at hsys
  · rw [isSysTransaction] at hsys
    split at hsys
    · cases hsys
    rename_i addr haddr
    rw [Bool.or_eq_true, decide_eq_true_eq, decide_eq_true_eq] at hsys
    obtain ⟨_, _, hprice⟩ | ⟨_, rfl⟩ := hsys
    · exact hprice
    · exact hto haddr
  · cases hsys

end

section

variable {C : Crypto} {c : Posa ω} {hooks : ContractHooks ω} {noBaseFee : Bool} {blockHeader : Header}
    {header : Header} {tx : Transaction} {before : World ω}
variable {txs : List Transaction} {w w' : World ω} {out : ProcessResult}

structure Accepted (C : Crypto) (c : Posa ω) (hooks : ContractHooks ω) (noBaseFee : Bool)
    (blockHeader : Header) (txs : List Transaction) (w : World ω) (context : BlockContext ω)
    (p : Progress) (w₁ w₂ : World ω) : Prop where
  opened : openBlock c hooks (copyHeader blockHeader) (blockHeader.number.getD 0) w = .ok context w₁
  processed : processTxs C c hooks noBaseFee (copyHeader blockHeader) (blockHeader.hash C) context
    (blockHeader.number.getD 0) 0 txs ⟨(copyHeader blockHeader).gasLimit, 0, [], [], [], []⟩ w₁ =
      .ok p w₂
  tracks : Tracks C c (copyHeader blockHeader) p txs
  replayed : c.chainConfig.isRedCoast (copyHeader blockHeader).number = true → ∃ count w₃ rs w₄,
    beforeReplay c (copyHeader blockHeader) p.commonTxs w₂ = .ok count w₃ ∧
    count = UInt32.ofNat p.systemTxs.length ∧
    replayProposals C c (copyHeader blockHeader) p.commonTxs.length 0
      (p.systemTxs.take count.toNat) w₃ = .ok rs w₄

theorem replayGovernance_parts {txCount : ℕ} {systemTxs}
    {rs} (hred : c.chainConfig.isRedCoast header.number = true)
    (h : replayGovernance C c header txCount systemTxs w = .ok rs w') :
    ∃ count w₁ replayed w₂, c.getPassedProposalCount header w = .ok count w₁ ∧
      count = UInt32.ofNat systemTxs.length ∧
      replayProposals C c header txCount 0 (systemTxs.take count.toNat) w₁ = .ok replayed w₂ := by
  rw [replayGovernance, if_pos hred] at h
  obtain ⟨count, w₁, hcount, h⟩ := bind_ok.mp h
  split at h
  · exact (throw_ok h).elim
  rename_i heq
  obtain ⟨replayed, w₂, hreplay, _⟩ := bind_ok.mp h
  exact ⟨count, w₁, replayed, w₂, hcount, not_not.mp heq, hreplay⟩

theorem process_parts (h : process C c hooks noBaseFee blockHeader txs w = .ok out w') :
    ∃ context p w₁ w₂, Accepted C c hooks noBaseFee blockHeader txs w context p w₁ w₂ := by
  obtain ⟨context, v₁, hcontext, h⟩ := bind_ok.mp h
  obtain ⟨_, v₂, hpre, h⟩ := bind_ok.mp h
  obtain ⟨extraValidator, v₃, hextra, h⟩ := bind_ok.mp h
  obtain ⟨p, v₄, htxs, h⟩ := bind_ok.mp h
  obtain ⟨fin, v₅, hfin, _⟩ := bind_ok.mp h
  obtain ⟨_, u₁, hinit, hfin⟩ := bind_ok.mp (mapError_ok.mp hfin)
  obtain ⟨_, u₂, hpunish, hfin⟩ := bind_ok.mp hfin
  obtain ⟨_, u₃, hreward, hfin⟩ := bind_ok.mp hfin
  obtain ⟨_, u₄, hepoch, hfin⟩ := bind_ok.mp hfin
  obtain ⟨rs, u₅, hgov, _⟩ := bind_ok.mp hfin
  have hstart : Tracks C c (copyHeader blockHeader)
      ⟨(copyHeader blockHeader).gasLimit, 0, [], [], [], []⟩ [] := ⟨rfl, rfl, rfl⟩
  refine ⟨_, p, v₃, v₄, ?_, htxs, hstart.processTxs htxs, fun hred => ?_⟩
  · exact bind_ok.mpr ⟨context, v₁, hcontext, bind_ok.mpr ⟨(), v₂, hpre,
      bind_ok.mpr ⟨extraValidator, v₃, hextra, rfl⟩⟩⟩
  obtain ⟨count, w₃, replayed, w₄, hcount, heq, hreplay⟩ := replayGovernance_parts hred hgov
  refine ⟨count, w₃, replayed, w₄, ?_, heq, hreplay⟩
  have hbefore : beforeEpoch c (copyHeader blockHeader) p.commonTxs v₄ = .ok () u₃ :=
    bind_ok.mpr ⟨(), u₁, hinit, bind_ok.mpr ⟨(), u₂, hpunish, hreward⟩⟩
  exact bind_ok.mpr ⟨(), u₃, hbefore, bind_ok.mpr ⟨(), u₄, hepoch, hcount⟩⟩

variable {context : BlockContext ω} {p : Progress} {w₁ w₂ : World ω} {e : Effect ω}

def replayedTxs (C : Crypto) (c : Posa ω) (header : Header) (txs : List Transaction) :
    List Transaction :=
  (txs.filter (isSystem C c header)).take
    (replayedCount c header (txs.filter (isSystem C c header)))

section

variable (ha : Accepted C c hooks noBaseFee blockHeader txs w context p w₁ w₂)
include ha

theorem takesEffect_common {sender}
    (he : TakesEffect C c hooks noBaseFee blockHeader txs w (.common tx sender before)) :
    tx.nonce = before.nonce sender ∧ isSystem C c (copyHeader blockHeader) tx = false := by
  cases he with
  | common hopen hturn =>
    obtain ⟨rfl, rfl⟩ := EStateM.Result.ok.inj (hopen.symm.trans ha.opened)
    exact ⟨hturn.nonce ha.processed, hturn.not_isSystem⟩

theorem takesEffect_system {prop}
    (he : TakesEffect C c hooks noBaseFee blockHeader txs w (.system prop tx before)) :
    tx ∈ replayedTxs C c (copyHeader blockHeader) txs := by
  cases he with
  | system hopen htxs hred hbefore hturn =>
    obtain ⟨rfl, rfl⟩ := EStateM.Result.ok.inj (hopen.symm.trans ha.opened)
    obtain ⟨rfl, rfl⟩ := EStateM.Result.ok.inj (htxs.symm.trans ha.processed)
    obtain ⟨count, w₃, rs, w₄, hbefore', heq, _⟩ := ha.replayed hred
    obtain ⟨rfl, rfl⟩ := EStateM.Result.ok.inj (hbefore.symm.trans hbefore')
    have hmem := hturn.mem
    rw [heq, ha.tracks.system] at hmem
    rw [replayedTxs, replayedCount, if_pos hred]
    exact hmem

theorem exists_takesEffect (hmem : tx ∈ txs) (hreplayed : isSystem C c (copyHeader blockHeader) tx = true →
      tx ∈ replayedTxs C c (copyHeader blockHeader) txs) :
    ∃ e, TakesEffect C c hooks noBaseFee blockHeader txs w e ∧ e.tx = tx := by
  cases hsys : isSystem C c (copyHeader blockHeader) tx with
  | false =>
    obtain ⟨sender, before, hturn⟩ := exists_commonTurn hmem hsys ha.processed
    exact ⟨.common tx sender before, .common ha.opened hturn, rfl⟩
  | true =>
    have hin := hreplayed hsys
    rw [replayedTxs, replayedCount] at hin
    split at hin
    · rename_i hred
      obtain ⟨count, w₃, rs, w₄, hbefore, heq, hreplay⟩ := ha.replayed hred
      rw [← ha.tracks.system, ← heq] at hin
      obtain ⟨prop, before, hturn⟩ := exists_systemTurn hin hreplay
      exact ⟨.system prop tx before, .system ha.opened ha.processed hred hbefore hturn, rfl⟩
    rw [take_zero] at hin
    cases hin

end

/-- What nobody checks: that the system transactions are replayed, and have the
nonce, the value and the gas that the sealer gives them, and no price when they
are sent to the governance contract. -/
structure Unchecked (C : Crypto) (c : Posa ω) (hooks : ContractHooks ω) (noBaseFee : Bool)
    (blockHeader : Header) (txs : List Transaction) (w : World ω) : Prop where
  replayed : ∀ tx ∈ txs, isSystem C c (copyHeader blockHeader) tx = true →
    tx ∈ replayedTxs C c (copyHeader blockHeader) txs
  fields : ∀ prop tx before, TakesEffect C c hooks noBaseFee blockHeader txs w (.system prop tx before) →
    tx.nonce = before.nonce blockHeader.coinbase ∧
    tx.value = (if c.chainConfig.isSophon (copyHeader blockHeader).number then 0 else prop.value) ∧
    tx.gas = blockHeader.gasLimit ∧
    (tx.toAddr = some sysGovContractAddr → tx.gasPrice = 0)

theorem replayedTxs_isSystem (h : tx ∈ replayedTxs C c header txs) : isSystem C c header tx = true :=
  (mem_filter.mp (mem_of_mem_take h)).2

/-- The transactions of an accepted block are those that the state and the
passed proposals ask for, exactly when its system transactions are right in what
replaying them does not check. Common transactions always are. -/
theorem process_determined_iff (h : process C c hooks noBaseFee blockHeader txs w = .ok out w') :
    Determined C c hooks noBaseFee blockHeader txs w ↔
      Unchecked C c hooks noBaseFee blockHeader txs w := by
  obtain ⟨context, p, w₁, w₂, ha⟩ := process_parts h
  constructor
  · intro hd
    refine ⟨fun tx hmem hsys => ?_, fun prop tx before he => ?_⟩
    · obtain ⟨e, he, rfl⟩ := hd.takesEffect tx hmem
      cases e with
      | common tx sender before =>
        have hcommon := (takesEffect_common ha he).2
        exact absurd hsys (by simp [Effect.tx, hcommon])
      | system prop tx before => exact takesEffect_system ha he
    obtain ⟨hnonce, hprice, hvalue, hgas⟩ := hd.right _ he
    exact ⟨hnonce, hvalue, hgas, fun _ => hprice⟩
  intro hu
  refine ⟨fun tx hmem => exists_takesEffect ha hmem (hu.replayed tx hmem), fun e he => ?_⟩
  cases e with
  | common tx sender before => exact (takesEffect_common ha he).1
  | system prop tx before =>
    obtain ⟨hnonce, hvalue, hgas, hto⟩ := hu.fields prop tx before he
    have hsys := replayedTxs_isSystem (takesEffect_system ha he)
    exact ⟨hnonce, gasPrice_of_isSystem hsys hto, hvalue, hgas⟩

end

section

/-- The block of one system transaction, up to its replay. -/
def untilReplay (w : World Unit) : EStateM.Result ProcessError (World Unit) (Proposal × World Unit) :=
  let header := copyHeader epochHeader
  let c := samplePosa false
  let program : Run Unit (Proposal × World Unit) := do
    let context ← openBlock c noHooks header 200
    let p ← processTxs sysCrypto c noHooks false header (epochHeader.hash sysCrypto) context 200 0
      [signedSysTx] ⟨header.gasLimit, 0, [], [], [], []⟩
    let _ ← mapError .engine (beforeReplay c header p.commonTxs)
    let prop ← mapError .engine (c.getPassedProposalByIndex header 0)
    return (prop, ← get)
  program w

theorem SystemTurn.of_singleton {C : Crypto} {c : Posa Unit} {header : Header} {n : ℕ}
    {tx tx' : Transaction} {prop : Proposal} {w before : World Unit}
    (h : SystemTurn C c header n 0 [tx] w prop tx' before) :
    tx' = tx ∧ c.getPassedProposalByIndex header 0 w = .ok prop before := by
  cases h with
  | here hprop => exact ⟨rfl, hprop⟩
  | later _ _ h => cases h

variable {prop : Proposal} {tx : Transaction} {w before : World Unit}

theorem sample_replayed : replayedTxs sysCrypto (samplePosa false) (copyHeader epochHeader)
    [signedSysTx] = [signedSysTx] := by
  decide +kernel

theorem untilReplay_of_takesEffect {out : ProcessResult} {w' : World Unit}
    (h : process sysCrypto (samplePosa false) noHooks false epochHeader [signedSysTx] w = .ok out w')
    (he : TakesEffect sysCrypto (samplePosa false) noHooks false epochHeader [signedSysTx] w
      (.system prop tx before)) :
    tx = signedSysTx ∧ untilReplay w = .ok (prop, before) before := by
  obtain ⟨context, p, w₁, w₂, ha⟩ := process_parts h
  cases he with
  | system hopen htxs hred hbefore hturn =>
    obtain ⟨rfl, rfl⟩ := EStateM.Result.ok.inj (hopen.symm.trans ha.opened)
    obtain ⟨rfl, rfl⟩ := EStateM.Result.ok.inj (htxs.symm.trans ha.processed)
    obtain ⟨count, w₃, rs, w₄, hbefore', heq, _⟩ := ha.replayed hred
    obtain ⟨rfl, rfl⟩ := EStateM.Result.ok.inj (hbefore.symm.trans hbefore')
    have hlist := sample_replayed
    rw [replayedTxs, replayedCount, if_pos hred, ← ha.tracks.system, ← heq] at hlist
    rw [hlist] at hturn
    obtain ⟨rfl, hprop⟩ := hturn.of_singleton
    refine ⟨rfl, bind_ok.mpr ⟨_, _, hopen, bind_ok.mpr ⟨_, _, htxs, bind_ok.mpr ⟨_, _,
      mapError_ok.mpr hbefore, bind_ok.mpr ⟨_, _, mapError_ok.mpr hprop, rfl⟩⟩⟩⟩⟩

/-- The block with a proposal that its sealer assembled. -/
theorem process_determined_redCoast : ∃ out w',
    process sysCrypto (samplePosa false) noHooks false epochHeader [signedSysTx] sampleState =
      .ok out w' ∧
    Determined sysCrypto (samplePosa false) noHooks false epochHeader [signedSysTx] sampleState := by
  obtain ⟨out, w', hout, _⟩ := exists_ok_of_okAnd (p := fun _ => true) (r := process sysCrypto
    (samplePosa false) noHooks false epochHeader [signedSysTx] sampleState) (by decide +kernel)
  refine ⟨out, w', hout, (process_determined_iff hout).mpr ⟨?_, ?_⟩⟩
  · intro tx hmem _
    rw [sample_replayed]
    exact hmem
  intro prop tx before he
  obtain ⟨rfl, hrun⟩ := untilReplay_of_takesEffect hout he
  obtain ⟨r, w₁, hrun', hr⟩ := exists_ok_of_okAnd (r := untilReplay sampleState)
    (p := fun r : Proposal × World Unit => decide (r.1.value = 0 ∧ r.2.nonce addressOne = 0)) (by decide +kernel)
  obtain ⟨rfl, _⟩ := EStateM.Result.ok.inj (hrun.symm.trans hrun')
  obtain ⟨hvalue, hnonce⟩ := of_decide_eq_true hr
  refine ⟨hnonce.symm, ?_, rfl, fun _ => rfl⟩
  rw [hvalue, ite_self]
  rfl

def usedState : World Unit := { sampleState with nonce := fun _ => 5 }

/-- The same transaction is accepted where its nonce was used long ago. -/
theorem process_replays_stale : ∃ out w',
    process sysCrypto (samplePosa false) noHooks false epochHeader [signedSysTx] usedState =
      .ok out w' ∧
    (∃ prop before,
      TakesEffect sysCrypto (samplePosa false) noHooks false epochHeader [signedSysTx] usedState
        (.system prop signedSysTx before) ∧
      signedSysTx.nonce = 0 ∧ before.nonce epochHeader.coinbase = 5) ∧
    ¬ Determined sysCrypto (samplePosa false) noHooks false epochHeader [signedSysTx] usedState := by
  obtain ⟨out, w', hout, _⟩ := exists_ok_of_okAnd (p := fun _ => true) (r := process sysCrypto
    (samplePosa false) noHooks false epochHeader [signedSysTx] usedState) (by decide +kernel)
  obtain ⟨context, p, w₁, w₂, ha⟩ := process_parts hout
  have hmem : signedSysTx ∈ replayedTxs sysCrypto (samplePosa false) (copyHeader epochHeader)
      [signedSysTx] := by
    rw [sample_replayed]
    exact mem_singleton_self _
  obtain ⟨e, he, htx⟩ := exists_takesEffect ha (mem_singleton_self _) (fun _ => hmem)
  cases e with
  | common tx sender before =>
    obtain rfl : tx = signedSysTx := htx
    have hcommon := (takesEffect_common ha he).2
    exact absurd (replayedTxs_isSystem hmem) (by simp [hcommon])
  | system prop tx before =>
    obtain ⟨rfl, hrun⟩ := untilReplay_of_takesEffect hout he
    obtain ⟨r, w₃, hrun', hr⟩ := exists_ok_of_okAnd (r := untilReplay usedState)
      (p := fun r : Proposal × World Unit => decide (r.2.nonce addressOne = 5)) (by decide +kernel)
    obtain ⟨rfl, _⟩ := EStateM.Result.ok.inj (hrun.symm.trans hrun')
    have hnonce : before.nonce epochHeader.coinbase = 5 := of_decide_eq_true hr
    refine ⟨out, w', hout, ⟨prop, before, he, rfl, hnonce⟩, fun hd => ?_⟩
    have hright : (0 : UInt64) = before.nonce epochHeader.coinbase := (hd.right _ he).1
    rw [hnonce] at hright
    exact absurd hright (by decide)

end

end Geth.Core.CurrentNonces
