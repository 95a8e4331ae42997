import Geth.Congress.SystemCalls

namespace Geth.Congress.Finalize

open Lib.BigEndian Lib.Programs Common.Basic Types.Block
open Types.TxData Types.Receipts Rlp.Encode Core.Evm Core.TransitionDb SnapshotApply
open VerifySeal SystemCalls List

variable {ω : Type}

/-- A slice in memory. Go refuses to make one whose length is no `int`. -/
def makeSlice {α : Type} (data : List α) : Except SysError (Slice α) :=
  if h : data.length < 2 ^ 63 then .ok ⟨data, h⟩ else .error (.panicked .makeSliceLen)

def encodeProposal (prop : Proposal) : Except SysError (Slice UInt8) := do
  let propRLP ← (write prop.toValue).mapError .encoding
  makeSlice propRLP

def SysError.isReturned : SysError → Bool
  | .panicked _ => false
  | .consensus (.panicked _) => false
  | _ => true

def SysError.toPanic (e : SysError) : SysError :=
  if SysError.isReturned e then .panicked .explicit else e

section

variable (C : Crypto) (c : Posa ω) (header : Header)

/-- Run the message of a proposal. It fails or succeeds without using gas. -/
def executeEvmCallProposal (prop : Proposal) (totalTxIndex : ℕ) (txHash bHash : Hash) :
    Sys ω Receipt := do
  c.prepareState txHash totalTxIndex
  let r ← attempt SysError.isReturned (c.executeMsg header prop.source prop.target prop.value.toNat
    header.gasLimit prop.data)
  let receipt := { newReceipt [] (!r.isOk) header.gasUsed with
    logs := (← get).getLogs txHash bHash }
  return { receipt with bloom := createBloom C [receipt] }

def eraseProposal (prop : Proposal) : Sys ω Receipt := do
  let (ok, w) := c.ops.erase prop.target (← get)
  set w
  return newReceipt [] (!ok) header.gasUsed

def runAction (prop : Proposal) (totalTxIndex : ℕ) (txHash bHash : Hash) : Sys ω Receipt :=
  if bigUint64 prop.action = 0 then executeEvmCallProposal C c header prop totalTxIndex txHash bHash
  else if bigUint64 prop.action = 1 then eraseProposal c header prop
  else return newReceipt [] true header.gasUsed

def executeProposalMsg (prop : Proposal) (totalTxIndex : ℕ) (txHash bHash : Hash) : Sys ω Receipt := do
  let receipt ← runAction C c header prop totalTxIndex txHash bHash
  return { receipt with
    txHash := txHash
    blockHash := bHash
    blockNumber := header.number
    transactionIndex := (← get).txIndex }

def proposalTx (prop : Proposal) (nonce : UInt64) (propRLP : Slice UInt8) : Transaction :=
  .legacy {
    nonce := nonce
    gasPrice := 0
    gas := header.gasLimit
    toAddr := some sysGovToAddr
    value := if c.chainConfig.isSophon header.number then 0 else prop.value
    data := propRLP
    v := 0
    r := 0
    s := 0 }

def executeProposal (prop : Proposal) (totalTxIndex : ℕ) : Sys ω (Transaction × Receipt) :=
  match c.signTxFn with
  | none => throw .signTxFnNotSet
  | some signTxFn => do
    let propRLP ← ofExcept (encodeProposal prop)
    let nonce := (← get).nonce c.validator
    let tx ← ofExcept (signTxFn c.validator (proposalTx c header prop nonce propRLP)
      c.chainConfig.chainID)
    modify fun w => w.setNonce c.validator (nonce + 1)
    let receipt ← executeProposalMsg C c header prop totalTxIndex (tx.hash C) (zeros 32)
    return (tx, receipt)

def replayProposal (prop : Proposal) (totalTxIndex : ℕ) (tx : Transaction) : Sys ω Receipt := do
  let sender ← ofExcept ((c.signer.sender C tx).mapError .sender)
  if sender ≠ header.coinbase then throw .invalidSender
  else do
    let propRLP ← ofExcept (encodeProposal prop)
    if propRLP.data ≠ tx.data.data then throw (.dataMismatch prop.id)
    else do
      let nonce := (← get).nonce sender
      modify fun w => w.setNonce sender (nonce + 1)
      executeProposalMsg C c header prop totalTxIndex (tx.hash C) (header.hash C)

structure Executed where
  tx : Transaction
  receipt : Receipt
  id : Int

def executeProposals (txCount : ℕ) : ℕ → ℕ → Sys ω (List Executed)
  | _, 0 => return []
  | i, n + 1 => do
    let prop ← c.getPassedProposalByIndex header (UInt32.ofNat i)
    let (tx, receipt) ← executeProposal C c header prop (txCount + i)
    let rest ← executeProposals txCount (i + 1) n
    return ⟨tx, receipt, prop.id⟩ :: rest

def replayProposals (txCount : ℕ) : ℕ → List Transaction → Sys ω (List Executed)
  | _, [] => return []
  | i, tx :: txs => do
    let prop ← c.getPassedProposalByIndex header (UInt32.ofNat i)
    let receipt ← replayProposal C c header prop (txCount + i) tx
    let rest ← replayProposals txCount (i + 1) txs
    return ⟨tx, receipt, prop.id⟩ :: rest

def finishProposals : List Int → Sys ω Unit
  | [] => return ()
  | id :: ids => do
    c.finishProposalById header id
    finishProposals ids

/-- All proposals are executed before the first one is finished, since that
changes their order. -/
def executeGovernance (txCount : ℕ) : Sys ω (List Executed) :=
  if c.signTxFn.isSome && c.chainConfig.isRedCoast header.number then do
    let proposalCount ← c.getPassedProposalCount header
    let executed ← executeProposals C c header txCount 0 proposalCount.toNat
    finishProposals c header (executed.map Executed.id)
    return executed
  else return []

def replayGovernance (txCount : ℕ) (systemTxs : List Transaction) : Sys ω (List Executed) :=
  if c.chainConfig.isRedCoast header.number then do
    let proposalCount ← c.getPassedProposalCount header
    if proposalCount ≠ UInt32.ofNat systemTxs.length then throw .errInvalidSysGovCount
    else do
      -- the number of transactions is compared modulo 2^32, and so many are replayed
      let replayed ← replayProposals C c header txCount 0 (systemTxs.take proposalCount.toNat)
      finishProposals c header (replayed.map Executed.id)
      return replayed
  else return []

end

section

variable (C : Crypto) (c : Posa ω) (header : Header)

def needsInit : Except SysError Bool :=
  if c.adminFeeMode then .ok false
  else match header.number with
    | none => .error (.panicked .nilPointer)
    | some number => .ok (decide (number = 1))

def initStep : Sys ω Unit := do
  if ← ofExcept (needsInit c header) then c.initializeSystemContracts header else return ()

def needsPunish : Except SysError Bool :=
  if c.adminFeeMode then .ok false
  else match header.difficulty with
    | none => .error (.panicked .nilPointer)
    | some difficulty => .ok (decide (difficulty ≠ diffInTurn))

def punishStep : Sys ω Unit := do
  if ← ofExcept (needsPunish c header) then c.tryPunishValidator header else return ()

/-- Fees that cannot be distributed are only reported. -/
def rewardStep (txs : List Transaction) : Sys ω Unit :=
  if txs.length > 0 then do
    let fees := offeredFees txs
    let collected := bigUint64 ((← get).balance feeRecoder)
    let _ ← attempt SysError.isReturned (c.trySendBlockReward header (fees.map Prod.fst)
      (scaleFees collected (fees.map Prod.snd)))
    return ()
  else return ()

/-- Whether the block is the first of an epoch, and the contracts choose its
validators. -/
def needsEpoch : Except SysError Bool :=
  if c.adminFeeMode then .ok false
  else do
    let number ← (numberU64 header).mapError .consensus
    return decide (number % c.config.epoch = 0)

/-- `header.Extra[extraVanity:extraSuffix]`. -/
def extraSection (extra : Slice UInt8) : Except SysError Bytes :=
  if extra.data.length < extraVanity + extraSeal then .error (.panicked .sliceBounds)
  else .ok ((extra.data.take (extra.data.length - extraSeal)).drop extraVanity)

def validatorsBytes (validators : List Address) : Bytes := validators.flatMap List.Vector.toList

/-- The announced validators have to be those of the contracts. -/
def epochStep : Sys ω Unit := do
  if ← ofExcept (needsEpoch c header) then do
    let newValidators ← c.doSomethingAtEpoch header
    let announced ← ofExcept (extraSection header.extra)
    if announced ≠ validatorsBytes newValidators then throw .errInvalidExtraValidators else return ()
  else return ()

/-- The assembler only reports errors of the update. -/
def assembleEpochStep : Sys ω Unit := do
  if ← ofExcept (needsEpoch c header) then do
    let _ ← attempt SysError.isReturned (c.doSomethingAtEpoch header)
    return ()
  else return ()

def finishHeader : Sys ω Header := do
  let (root, w) := c.ops.intermediateRoot (c.chainConfig.isEIP158 header.number) (← get)
  set w
  return { header with root := root, uncleHash := calcUncleHashNil C }

structure Finalized where
  header : Header
  txs : List Transaction
  receipts : List Receipt

def finalize (txs : List Transaction) (receipts : List Receipt) (systemTxs : List Transaction) :
    Sys ω Finalized := do
  initStep c header
  punishStep c header
  rewardStep c header txs
  epochStep c header
  let replayed ← replayGovernance C c header txs.length systemTxs
  let header ← finishHeader C c header
  return ⟨header, txs ++ replayed.map Executed.tx, receipts ++ replayed.map Executed.receipt⟩

/-- The roots of the lists in a block, computed by the trie code. -/
structure TrieHasher where
  transactions : List Transaction → Hash
  receipts : List Receipt → Hash

def emptyRootHash : Hash := hexToHash 0x56e81f171bcc55a6ff8345e692c0f86e5b48e01b996cadc001622fb5e363b421

/-- `types.NewBlock` without uncles. -/
def newBlock (hasher : TrieHasher) (txs : List Transaction) (receipts : List Receipt) : Header :=
  { copyHeader header with
    txHash := if txs.length = 0 then emptyRootHash else hasher.transactions txs
    receiptHash := if receipts.length = 0 then emptyRootHash else hasher.receipts receipts
    bloom := if receipts.length = 0 then header.bloom else createBloom C receipts
    uncleHash := calcUncleHashNil C }

def finalizeAndAssemble (hasher : TrieHasher) (txs : List Transaction) (receipts : List Receipt) :
    Sys ω Finalized := do
  mapError SysError.toPanic (initStep c header)
  mapError SysError.toPanic (punishStep c header)
  rewardStep c header txs
  assembleEpochStep c header
  let executed ← executeGovernance C c header txs.length
  let header ← finishHeader C c header
  let txs := txs ++ executed.map Executed.tx
  let receipts := receipts ++ executed.map Executed.receipt
  return ⟨newBlock C header hasher txs receipts, txs, receipts⟩

/-- The validators that a sealer announces. With a fee receiver there are no
contracts, and the set is to stay as it is. -/
def nextValidators (number : UInt64) (snap : Snapshot) : Except SysError (List Address) :=
  if number % c.config.epoch = 0 then
    if c.adminFeeMode then .ok snap.sorted else c.getTopValidators header
  else .ok []

/-- `Prepare` fills in what a sealer may not choose. `now` is the clock. -/
def prepare (now : UInt64) : Except SysError Header := do
  let number ← (numberU64 header).mapError .consensus
  let snap ← (c.snapshot (number - 1) header.parentHash).mapError .consensus
  let turn ← (inturn snap (snap.number + 1) c.validator).mapError .consensus
  let sealed := { header with
    coinbase := c.validator
    nonce := zeros 8
    difficulty := some (if turn then diffInTurn else diffNoTurn)
    mixDigest := zeros 32 }
  let validators ← nextValidators c sealed number snap
  let extra ← makeSlice ((header.extra.data ++ List.replicate extraVanity 0).take extraVanity ++
    validatorsBytes validators ++ List.replicate extraSeal 0)
  match c.getHeader header.parentHash (number - 1) with
  | none => .error .errUnknownAncestor
  | some parent => .ok { sealed with extra := extra, time := max (parent.time + c.config.period) now }

end

section

variable {C : Crypto} {c : Posa ω} {header : Header} {w w' : World ω}

theorem replayProposal_parts {prop} {i : ℕ} {tx} {r}
    (h : replayProposal C c header prop i tx w = .ok r w') :
    ∃ sender propRLP r', c.signer.sender C tx = .ok sender ∧ encodeProposal prop = .ok propRLP ∧
      propRLP.data = tx.data.data ∧ runAction C c header prop i (tx.hash C) (header.hash C)
        (w.setNonce sender (w.nonce sender + 1)) = .ok r' w' ∧
      r = { r' with
        txHash := tx.hash C
        blockHash := header.hash C
        blockNumber := header.number
        transactionIndex := w'.txIndex } := by
  obtain ⟨sender, w₁, hsender, h⟩ := bind_ok.mp h
  obtain ⟨hsender', rfl⟩ := ofExcept_ok.mp hsender
  split at h
  · exact (throw_ok h).elim
  obtain ⟨propRLP, w₂, henc, h⟩ := bind_ok.mp h
  obtain ⟨henc', rfl⟩ := ofExcept_ok.mp henc
  split at h
  · exact (throw_ok h).elim
  rename_i hdata
  obtain ⟨w₃, w₄, hget, h⟩ := bind_ok.mp h
  obtain ⟨rfl, rfl⟩ := get_ok.mp hget
  obtain ⟨_, w₅, hset, h⟩ := bind_ok.mp h
  cases hset
  obtain ⟨r', w₆, hrun, h⟩ := bind_ok.mp h
  obtain ⟨w₇, w₈, hget, h⟩ := bind_ok.mp h
  obtain ⟨rfl, rfl⟩ := get_ok.mp hget
  obtain ⟨rfl, rfl⟩ := pure_ok.mp h
  exact ⟨sender, propRLP, r', mapError_eq_ok.mp hsender', henc', not_not.mp hdata, hrun, rfl⟩

theorem replayProposals_txHash {n i : ℕ} {txs} {rs} (h : replayProposals C c header n i txs w = .ok rs w') :
    (rs.map Executed.receipt).map Receipt.txHash = txs.map (Transaction.hash C) := by
  induction txs generalizing i rs w with
  | nil =>
    obtain ⟨rfl, _⟩ := pure_ok.mp h
    rfl
  | cons tx txs ih =>
    obtain ⟨prop, w₁, _, h⟩ := bind_ok.mp h
    obtain ⟨r, w₂, hr, h⟩ := bind_ok.mp h
    obtain ⟨rest, w₃, hrest, h⟩ := bind_ok.mp h
    obtain ⟨rfl, rfl⟩ := pure_ok.mp h
    obtain ⟨_, _, _, _, _, _, _, rfl⟩ := replayProposal_parts hr
    rw [map_cons, map_cons, map_cons, ih hrest]

def replayedCount (c : Posa ω) (header : Header) (systemTxs : List Transaction) : ℕ :=
  if c.chainConfig.isRedCoast header.number then (UInt32.ofNat systemTxs.length).toNat else 0

theorem replayGovernance_txHash {n : ℕ} {systemTxs} {rs}
    (h : replayGovernance C c header n systemTxs w = .ok rs w') :
    (rs.map Executed.receipt).map Receipt.txHash =
      (systemTxs.take (replayedCount c header systemTxs)).map (Transaction.hash C) := by
  rw [replayGovernance] at h
  rw [replayedCount]
  split at h
  · rename_i hred
    obtain ⟨count, w₁, _, h⟩ := bind_ok.mp h
    split at h
    · exact (throw_ok h).elim
    rename_i hcount
    obtain ⟨replayed, w₂, hreplay, h⟩ := bind_ok.mp h
    obtain ⟨_, w₃, _, h⟩ := bind_ok.mp h
    obtain ⟨rfl, _⟩ := pure_ok.mp h
    rw [if_pos hred, ← not_not.mp hcount]
    exact replayProposals_txHash hreplay
  rename_i hred
  obtain ⟨rfl, _⟩ := pure_ok.mp h
  rw [if_neg hred]
  rfl

theorem finalize_txHash {txs systemTxs} {receipts} {fin}
    (h : finalize C c header txs receipts systemTxs w = .ok fin w') :
    fin.receipts.map Receipt.txHash = receipts.map Receipt.txHash ++
      (systemTxs.take (replayedCount c header systemTxs)).map (Transaction.hash C) := by
  obtain ⟨_, w₁, _, h⟩ := bind_ok.mp h
  obtain ⟨_, w₂, _, h⟩ := bind_ok.mp h
  obtain ⟨_, w₃, _, h⟩ := bind_ok.mp h
  obtain ⟨_, w₄, _, h⟩ := bind_ok.mp h
  obtain ⟨rs, w₅, hgov, h⟩ := bind_ok.mp h
  obtain ⟨header', w₆, _, h⟩ := bind_ok.mp h
  obtain ⟨rfl, _⟩ := pure_ok.mp h
  rw [map_append, replayGovernance_txHash hgov]

end

end Geth.Congress.Finalize
