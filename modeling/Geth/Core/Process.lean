import Geth.Congress.Assembly
import Geth.Lib.Partition

namespace Geth.Core.Process

open Lib.BigEndian Lib.Programs Lib.Partition Common.Basic Params.Config Types.Block Types.Signature
open Types.TxData Types.Receipts Types.Signing Evm TransitionDb Congress.SystemCalls
open Congress.Finalize Congress.Assembly List Option

inductive ProcessError where
  | sender (e : TxError)
  | addressDenied
  | message (index : ℕ) (txHash : Hash) (e : TxError)
  | transition (index : ℕ) (txHash : Hash) (e : TransitionError)
  | engine (e : SysError)

variable {ω : Type}

/-- A step of the processor on the state of a block. -/
abbrev Run (ω α : Type) := Program ProcessError (World ω) α

inductive SysContractVersion where
  | sysContractV1 | sysContractV2 | sysContractV3

inductive BlacklistDirection where
  | directionFrom | directionTo | directionBoth
  deriving DecidableEq

/-- What the engine reads and changes in system contracts around a block. -/
structure ContractHooks (ω : Type) where
  applySystemContractUpgrade : SysContractVersion → Header → Sys ω Unit
  getBlacklist : Header → Sys ω (Address → Option BlacklistDirection)
  createEvmExtraValidator : Header → Sys ω (Option EvmExtraValidator)

def isForkBlock : BigPtr → Int → Bool
  | none, _ => false
  | some fork, number => decide (fork = number)

def isAfterFork : BigPtr → Int → Bool
  | none, _ => false
  | some fork, number => decide (fork < number)

def preHandle (c : Posa ω) (hooks : ContractHooks ω) (header : Header) (number : Int) : Sys ω Unit :=
  if c.adminFeeMode then return ()
  else if isForkBlock c.chainConfig.redCoastBlock number then
    hooks.applySystemContractUpgrade .sysContractV1 header
  else if isForkBlock c.chainConfig.sophonBlock number then
    hooks.applySystemContractUpgrade .sysContractV2 header
  else if isForkBlock c.chainConfig.rewardPoolBlock number then
    hooks.applySystemContractUpgrade .sysContractV3 header
  else return ()

/-- Transactions of the sealer that only the engine may carry out. -/
def isSysTransaction (sender : Address) (tx : Transaction) (header : Header) : Bool :=
  match tx.toAddr with
  | none => false
  | some addr =>
    decide (sender = header.coinbase ∧ addr = sysGovToAddr ∧ tx.gasPrice = 0) ||
      decide (sender = header.coinbase ∧ addr = sysGovContractAddr)

def validateTx (c : Posa ω) (hooks : ContractHooks ω) (sender : Address) (tx : Transaction)
    (header : Header) (number : Int) : Run ω Unit :=
  if isAfterFork c.chainConfig.redCoastBlock number then do
    let blacklist ← mapError .engine (hooks.getBlacklist header)
    if (blacklist sender).any (· ≠ .directionTo) then throw .addressDenied
    else if (tx.toAddr.bind blacklist).any (· ≠ .directionFrom) then throw .addressDenied
    else return ()
  else return ()

section

variable (C : Crypto) (c : Posa ω) (hooks : ContractHooks ω) (noBaseFee : Bool)
variable (header : Header) (blockHash : Hash) (context : BlockContext ω)

def txSigner : Signer := makeSigner c.chainConfig header.number

/-- End a transaction: since Byzantium without a root of its own. -/
def endTransaction (w : World ω) : Bytes × World ω :=
  if c.chainConfig.isByzantium header.number then ([], c.ops.finalise true w)
  else
    let (root, w) := c.ops.intermediateRoot (c.chainConfig.isEIP158 header.number) w
    (root.toList, w)

def txReceipt (tx : Transaction) (msg : Message context.baseFee) (usedGas : UInt64)
    (result : ExecutionResult) (root : Bytes) (w : World ω) : Receipt :=
  let receipt : Receipt := {
    type := tx.type
    postState := root
    status := receiptStatus result.failed
    cumulativeGasUsed := usedGas
    bloom := zeros 256
    logs := w.getLogs (tx.hash C) blockHash
    txHash := tx.hash C
    contractAddress := if msg.toAddr = none then createAddress C msg.sender tx.nonce else zeros 20
    gasUsed := result.usedGas
    blockHash := blockHash
    blockNumber := header.number
    transactionIndex := w.txIndex }
  { receipt with bloom := createBloom C [receipt] }

structure Progress where
  gp : UInt64
  usedGas : UInt64
  receipts : List Receipt
  allLogs : List Log
  commonTxs : List Transaction
  systemTxs : List Transaction

def applyTransaction (index : ℕ) (tx : Transaction) (msg : Message context.baseFee) (p : Progress) :
    Run ω Progress := do
  let env : Env ω := ⟨c.chainConfig, noBaseFee, context, ⟨msg.sender, msg.gasPrice⟩⟩
  let t ← ofExcept ((transitionDb C c.interpreter env msg p.gp (← get)).mapError
    (.transition index (tx.hash C)))
  let (root, w) := endTransaction c header t.settled
  set w
  let usedGas := p.usedGas + t.result.usedGas
  let receipt := txReceipt C header blockHash context tx msg usedGas t.result root w
  return { p with
    gp := t.refunded.gp
    usedGas := usedGas
    receipts := p.receipts ++ [receipt]
    allLogs := p.allLogs ++ receipt.logs
    commonTxs := p.commonTxs ++ [tx] }

/-- System transactions are put aside, wherever they stand in the block. -/
def processTx (number : Int) (index : ℕ) (tx : Transaction) (p : Progress) : Run ω Progress := do
  let signer := txSigner c header
  let sender ← ofExcept ((signer.sender C tx).mapError .sender)
  if isSysTransaction sender tx header then return { p with systemTxs := p.systemTxs ++ [tx] }
  else do
    validateTx c hooks sender tx header number
    let msg ← ofExcept ((asMessage C signer context.baseFee tx).mapError (.message index (tx.hash C)))
    mapError .engine (c.prepareState (tx.hash C) index)
    applyTransaction C c noBaseFee header blockHash context index tx msg p

def processTxs (number : Int) : ℕ → List Transaction → Progress → Run ω Progress
  | _, [], p => return p
  | index, tx :: txs, p => do
    let p ← processTx C c hooks noBaseFee header blockHash context number index tx p
    processTxs number (index + 1) txs p

end

structure ProcessResult where
  receipts : List Receipt
  logs : List Log
  usedGas : UInt64

def process (C : Crypto) (c : Posa ω) (hooks : ContractHooks ω) (noBaseFee : Bool)
    (blockHeader : Header) (txs : List Transaction) : Run ω ProcessResult := do
  let header := copyHeader blockHeader
  let number := blockHeader.number.getD 0
  let context ← ofExcept ((c.newEVMBlockContext header).mapError .engine)
  mapError .engine (preHandle c hooks header number)
  let extraValidator ← mapError .engine (hooks.createEvmExtraValidator header)
  let p ← processTxs C c hooks noBaseFee header (blockHeader.hash C)
    { context with extraValidator := extraValidator } number 0 txs ⟨header.gasLimit, 0, [], [], [], []⟩
  let fin ← mapError .engine (finalize C c header p.commonTxs p.receipts p.systemTxs)
  return ⟨fin.receipts, p.allLogs, p.usedGas⟩

section

variable {C : Crypto} {c : Posa ω} {hooks : ContractHooks ω} {noBaseFee : Bool} {header : Header}
variable {blockHash : Hash} {context : BlockContext ω} {number : Int} {w w' : World ω}
variable {p p' : Progress} {tx : Transaction} {txs seen : List Transaction} {index : ℕ}

def isSystem (C : Crypto) (c : Posa ω) (header : Header) (tx : Transaction) : Bool :=
  match (txSigner c header).sender C tx with
  | .ok sender => isSysTransaction sender tx header
  | .error _ => false

/-- The transactions seen so far are kept apart, with a receipt for each common
one. -/
structure Tracks (C : Crypto) (c : Posa ω) (header : Header) (p : Progress) (seen : List Transaction) :
    Prop where
  receipts : p.receipts.map Receipt.txHash = p.commonTxs.map (Transaction.hash C)
  common : p.commonTxs = seen.filter (fun tx => !isSystem C c header tx)
  system : p.systemTxs = seen.filter (isSystem C c header)

theorem applyTransaction_ok {msg}
    (h : applyTransaction C c noBaseFee header blockHash context index tx msg p w = .ok p' w') :
    p'.commonTxs = p.commonTxs ++ [tx] ∧ p'.systemTxs = p.systemTxs ∧
      p'.receipts.map Receipt.txHash = p.receipts.map Receipt.txHash ++ [tx.hash C] := by
  obtain ⟨w₁, w₂, _, h⟩ := bind_ok.mp h
  obtain ⟨t, w₃, _, h⟩ := bind_ok.mp h
  obtain ⟨_, w₄, _, h⟩ := bind_ok.mp h
  obtain ⟨rfl, _⟩ := pure_ok.mp h
  refine ⟨rfl, rfl, ?_⟩
  rw [map_append]
  rfl

theorem Tracks.processTx (hp : Tracks C c header p seen)
    (h : processTx C c hooks noBaseFee header blockHash context number index tx p w = .ok p' w') :
    Tracks C c header p' (seen ++ [tx]) := by
  obtain ⟨sender, w₁, hsender, h⟩ := bind_ok.mp h
  rw [ofExcept_ok, mapError_eq_ok] at hsender
  have hsys : isSystem C c header tx = isSysTransaction sender tx header := by
    rw [isSystem, hsender.1]
  split at h
  · rename_i his
    obtain ⟨rfl, _⟩ := pure_ok.mp h
    refine ⟨hp.receipts, ?_, ?_⟩
    · rw [filter_append, filter_cons_of_neg (by simp [hsys, his]), filter_nil,
        append_nil]
      exact hp.common
    · rw [filter_append, filter_cons_of_pos (by rw [hsys, his]), filter_nil, ← hp.system]
  rename_i his
  obtain ⟨_, w₂, _, h⟩ := bind_ok.mp h
  obtain ⟨msg, w₃, _, h⟩ := bind_ok.mp h
  obtain ⟨_, w₄, _, h⟩ := bind_ok.mp h
  obtain ⟨hcommon, hsystem, hreceipts⟩ := applyTransaction_ok h
  refine ⟨?_, ?_, ?_⟩
  · rw [hreceipts, hcommon, map_append, hp.receipts]
    rfl
  · rw [hcommon, filter_append, filter_cons_of_pos (by simp [hsys, his]), filter_nil,
      ← hp.common]
  rw [hsystem, filter_append, filter_cons_of_neg (by simp [hsys, his]), filter_nil, append_nil]
  exact hp.system

theorem Tracks.processTxs (hp : Tracks C c header p seen)
    (h : processTxs C c hooks noBaseFee header blockHash context number index txs p w = .ok p' w') :
    Tracks C c header p' (seen ++ txs) := by
  induction txs generalizing index p seen w with
  | nil =>
    obtain ⟨rfl, _⟩ := pure_ok.mp h
    rw [append_nil]
    exact hp
  | cons tx txs ih =>
    obtain ⟨p₁, w₁, hstep, h⟩ := bind_ok.mp h
    have hrest := ih (hp.processTx hstep) h
    rw [append_assoc] at hrest
    exact hrest

/-- The receipts of a block are those of its common transactions, followed by
those of the system transactions that were replayed. -/
theorem process_txHash {blockHeader} {out}
    (h : process C c hooks noBaseFee blockHeader txs w = .ok out w') :
    out.receipts.map Receipt.txHash = (regroup (isSystem C c (copyHeader blockHeader))
      (replayedCount c (copyHeader blockHeader)
        (txs.filter (isSystem C c (copyHeader blockHeader)))) txs).map (Transaction.hash C) := by
  obtain ⟨context, w₁, _, h⟩ := bind_ok.mp h
  obtain ⟨_, w₂, _, h⟩ := bind_ok.mp h
  obtain ⟨extraValidator, w₃, _, h⟩ := bind_ok.mp h
  obtain ⟨p, w₄, htxs, h⟩ := bind_ok.mp h
  obtain ⟨fin, w₅, hfin, h⟩ := bind_ok.mp h
  obtain ⟨rfl, _⟩ := pure_ok.mp h
  have hstart : Tracks C c (copyHeader blockHeader)
      ⟨(copyHeader blockHeader).gasLimit, 0, [], [], [], []⟩ [] := ⟨rfl, rfl, rfl⟩
  have hp := hstart.processTxs htxs
  rw [nil_append] at hp
  rw [finalize_txHash (mapError_ok.mp hfin), hp.receipts, hp.system, hp.common, regroup, map_append]

def OnePerTx (C : Crypto) (receipts : List Receipt) (txs : List Transaction) : Prop :=
  receipts.length = txs.length ∧
    ∀ (i : ℕ) (r : Receipt) (tx : Transaction), receipts[i]? = some r → txs[i]? = some tx →
      r.txHash = tx.hash C

theorem onePerTx_iff {receipts} : OnePerTx C receipts txs ↔
    receipts.map Receipt.txHash = txs.map (Transaction.hash C) := by
  constructor
  · rintro ⟨hlen, heach⟩
    apply ext_getElem?
    intro i
    rw [getElem?_map, getElem?_map]
    by_cases hi : i < txs.length
    · have hr := getElem?_eq_getElem (hlen ▸ hi : i < receipts.length)
      have htx := getElem?_eq_getElem hi
      rw [hr, htx, map_some, map_some, heach i _ _ hr htx]
    rw [getElem?_eq_none (by omega), getElem?_eq_none (by omega), map_none, map_none]
  intro h
  refine ⟨by simpa using congrArg length h, fun i r tx hr htx => ?_⟩
  have hi := congrArg (fun l : List Hash => l[i]?) h
  simp only [getElem?_map, hr, htx, map_some, Option.some.injEq] at hi
  exact hi

/-- The common transactions come first, and the system transactions are replayed:
after the RedCoast fork, as long as 32 bits count them. -/
def SystemLast (C : Crypto) (c : Posa ω) (header : Header) (txs : List Transaction) : Prop :=
  Grouped (isSystem C c header) txs ∧
    ((∀ tx ∈ txs, isSystem C c header tx = false) ∨
      (c.chainConfig.isRedCoast header.number = true ∧
        (txs.filter (isSystem C c header)).length < 2 ^ 32))

theorem le_replayedCount_iff (systemTxs : List Transaction) :
    systemTxs.length ≤ replayedCount c header systemTxs ↔ systemTxs = [] ∨
      (c.chainConfig.isRedCoast header.number = true ∧ systemTxs.length < 2 ^ 32) := by
  rw [replayedCount, ← length_eq_zero_iff]
  split
  · rename_i hred
    rw [UInt32.toNat_ofNat']
    simp only [hred, true_and]
    omega
  rename_i hred
  refine ⟨fun h => .inl (by omega), ?_⟩
  rintro (h | ⟨hc, _⟩)
  · omega
  · exact absurd hc hred

/-- A processed block has one receipt per transaction, in order, exactly when
its system transactions come last and are replayed. Different transactions of
the block are taken to have different hashes. -/
theorem process_onePerTx_iff {blockHeader : Header} {out : ProcessResult}
    (hinj : Set.InjOn (Transaction.hash C) {tx | tx ∈ txs})
    (h : process C c hooks noBaseFee blockHeader txs w = .ok out w') :
    OnePerTx C out.receipts txs ↔ SystemLast C c (copyHeader blockHeader) txs := by
  rw [onePerTx_iff, process_txHash h,
    map_eq_map_iff hinj (regroup_subset _ _ txs) (fun _ htx => htx), regroup_eq_iff,
    le_replayedCount_iff, SystemLast]
  apply and_congr_right
  intro _
  rw [filter_eq_nil_iff]
  simp only [Bool.not_eq_true]

end

def noHooks : ContractHooks Unit :=
  ⟨fun _ _ => return (), fun _ => return fun _ => none, fun _ => return none⟩

/-- The block with a proposal, after the fork. -/
theorem process_onePerTx_redCoast : ∃ out w',
    process sysCrypto (samplePosa false) noHooks false epochHeader [signedSysTx] sampleState =
      .ok out w' ∧
    OnePerTx sysCrypto out.receipts [signedSysTx] := by
  obtain ⟨out, w', hout, _⟩ := exists_ok_of_okAnd (p := fun _ => true) (r := process sysCrypto
    (samplePosa false) noHooks false epochHeader [signedSysTx] sampleState) (by decide +kernel)
  have hinj : Set.InjOn (Transaction.hash sysCrypto) {tx | tx ∈ [signedSysTx]} := by
    intro a ha b hb _
    rw [List.mem_singleton.mp ha, List.mem_singleton.mp hb]
  refine ⟨out, w', hout, (process_onePerTx_iff hinj hout).mpr ⟨?_, .inr ⟨by decide, by decide +kernel⟩⟩⟩
  exact pairwise_singleton _ _

def plainPosa : Posa Unit :=
  { samplePosa false with
    chainConfig := istanbulConfig (some ⟨3, 200, false, none⟩)
    config_eq := ⟨_, rfl, rfl⟩ }

def plainHeader : Header :=
  { epochHeader with number := some 2, extra := ⟨List.replicate 97 0, by simp⟩ }

/-- A block of one transaction of its sealer, which is put aside and never
carried out. -/
theorem process_drops_system : ∃ out w',
    process sysCrypto plainPosa noHooks false plainHeader [signedSysTx] sampleState = .ok out w' ∧
    out.receipts.length = 0 ∧ ¬ OnePerTx sysCrypto out.receipts [signedSysTx] := by
  obtain ⟨out, w', hout, hp⟩ := exists_ok_of_okAnd
    (p := fun out : ProcessResult => decide (out.receipts.length = 0))
    (r := process sysCrypto plainPosa noHooks false plainHeader [signedSysTx] sampleState)
    (by decide +kernel)
  have hlen := of_decide_eq_true hp
  refine ⟨out, w', hout, hlen, fun h => ?_⟩
  have hone := h.1
  rw [hlen] at hone
  cases hone

end Geth.Core.Process
