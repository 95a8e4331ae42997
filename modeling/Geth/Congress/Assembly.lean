import Geth.Congress.Finalize

namespace Geth.Congress.Assembly

open Lib.BigEndian Lib.Programs Common.Basic Params.Config Types.Block Types.TxData Types.Receipts
open Types.Signing Core.Evm SnapshotApply SystemCalls SealSpacing
open Finalize List

variable {ω : Type} {C : Crypto} {c : Posa ω} {header : Header} {prop : Proposal} {i n : ℕ}
    {vs : List Address} {u : Unit} (reverts : Bool)
variable {txHash b d : Hash} {r : Receipt} {w w' : World ω}

theorem getLogs_consensus (w : World ω) (txHash bHash : Hash) :
    (w.getLogs txHash bHash).map Log.consensus = (w.logs txHash).map Log.consensus := by
  rw [World.getLogs, map_map]
  rfl

theorem createBloom_getLogs (C : Crypto) (w : World ω) (txHash bHash : Hash) (r : Receipt) :
    createBloom C [{ r with logs := w.getLogs txHash bHash }] =
      (w.logs txHash).foldl (bloomAddLog C) (zeros 256) := by
  rw [createBloom, flatMap_singleton, World.getLogs]
  exact foldl_bloomAddLog_atBlock C bHash _ _

theorem executeEvmCallProposal_blockHash
    (h : executeEvmCallProposal C c header prop i txHash b w = .ok r w') :
    ∃ r', executeEvmCallProposal C c header prop i txHash d w = .ok r' w' ∧ r'.consensus = r.consensus := by
  obtain ⟨u, w₁, h₁, h⟩ := bind_ok.mp h
  obtain ⟨res, w₂, h₂, h⟩ := bind_ok.mp h
  obtain ⟨w₃, w₄, h₃, h⟩ := bind_ok.mp h
  obtain ⟨rfl, rfl⟩ := pure_ok.mp h
  obtain ⟨rfl, rfl⟩ := get_ok.mp h₃
  refine ⟨_, bind_ok.mpr ⟨u, w₁, h₁, bind_ok.mpr ⟨res, w₂, h₂, bind_ok.mpr ⟨w₂, w₂, h₃, rfl⟩⟩⟩, ?_⟩
  simp only [Receipt.consensus, getLogs_consensus, createBloom_getLogs]

theorem runAction_blockHash (h : runAction C c header prop i txHash b w = .ok r w') :
    ∃ r', runAction C c header prop i txHash d w = .ok r' w' ∧ r'.consensus = r.consensus := by
  rw [runAction] at h ⊢
  split
  · rename_i h₀
    rw [if_pos h₀] at h
    exact executeEvmCallProposal_blockHash h
  rename_i h₀
  rw [if_neg h₀] at h
  exact ⟨r, h, rfl⟩

theorem executeProposalMsg_blockHash (h : executeProposalMsg C c header prop i txHash b w = .ok r w') :
    ∃ r', executeProposalMsg C c header prop i txHash d w = .ok r' w' ∧ r'.consensus = r.consensus := by
  obtain ⟨r₁, w₁, h₁, h⟩ := bind_ok.mp h
  obtain ⟨w₂, w₃, h₂, h⟩ := bind_ok.mp h
  obtain ⟨rfl, rfl⟩ := pure_ok.mp h
  obtain ⟨r₂, hr₂, heq⟩ := runAction_blockHash h₁
  exact ⟨_, bind_ok.mpr ⟨r₂, w₁, hr₂, bind_ok.mpr ⟨w₂, w₃, h₂, rfl⟩⟩, heq⟩

/-- The wallet of a sealer signs what it is given, so that the engine recovers
the sealer. -/
def SignsFor (C : Crypto) (c : Posa ω) : Prop :=
  ∀ signTxFn, c.signTxFn = some signTxFn → ∀ tx tx' id, signTxFn c.validator tx id = .ok tx' →
    tx'.data = tx.data ∧ c.signer.sender C tx' = .ok c.validator

/-- The extra data is the one that was prepared for this place in the chain. -/
def PreparedBy (c : Posa ω) (header : Header) : Prop :=
  ∃ draft now prepared, prepare c draft now = .ok prepared ∧ header.extra = prepared.extra ∧
    header.parentHash = prepared.parentHash ∧ header.number = prepared.number ∧
    header.coinbase = prepared.coinbase

structure SameExecution (e e' : Executed) : Prop where
  tx : e'.tx = e.tx
  receipt : e'.receipt.consensus = e.receipt.consensus
  id : e'.id = e.id

theorem map_eq_of_forall₂ {α β : Type} {R : α → α → Prop} {f : α → β} {as bs : List α}
    (hf : ∀ a b, R a b → f b = f a) (h : List.Forall₂ R as bs) : bs.map f = as.map f := by
  induction h with
  | nil => rfl
  | cons hab _ ih => rw [map_cons, map_cons, hf _ _ hab, ih]

theorem ids_eq {es rs : List Executed} (h : List.Forall₂ SameExecution es rs) :
    rs.map Executed.id = es.map Executed.id :=
  map_eq_of_forall₂ (fun _ _ => SameExecution.id) h

section

variable (hsign : SignsFor C c) (hcoin : header.coinbase = c.validator) {es : List Executed}
include hsign hcoin

theorem replayProposal_of_execute {tx} (h : executeProposal C c header prop i w = .ok (tx, r) w') :
    ∃ r', replayProposal C c header prop i tx w = .ok r' w' ∧ r'.consensus = r.consensus := by
  rw [executeProposal] at h
  cases hfn : c.signTxFn with
  | none =>
    rw [hfn] at h
    exact (throw_ok h).elim
  | some signTxFn =>
    rw [hfn] at h
    obtain ⟨propRLP, w₁, henc, h⟩ := bind_ok.mp h
    obtain ⟨henc', rfl⟩ := ofExcept_ok.mp henc
    obtain ⟨w₂, w₃, hget, h⟩ := bind_ok.mp h
    obtain ⟨rfl, rfl⟩ := get_ok.mp hget
    obtain ⟨tx', w₄, htx, h⟩ := bind_ok.mp h
    obtain ⟨hsigned, rfl⟩ := ofExcept_ok.mp htx
    obtain ⟨u, w₅, hset, h⟩ := bind_ok.mp h
    obtain ⟨r₁, w₆, hmsg, h⟩ := bind_ok.mp h
    obtain ⟨hpair, rfl⟩ := pure_ok.mp h
    obtain ⟨rfl, rfl⟩ := Prod.mk.injEq .. ▸ hpair
    obtain ⟨hdata, hsender⟩ := hsign signTxFn hfn _ _ _ hsigned
    obtain ⟨r', hr', heq⟩ := executeProposalMsg_blockHash (d := header.hash C) hmsg
    refine ⟨r', ?_, heq⟩
    have hs : (ofExcept ((c.signer.sender C tx').mapError SysError.sender) : Sys ω Address) w =
        .ok c.validator w := by
      rw [hsender]
      rfl
    refine bind_ok.mpr ⟨c.validator, w, hs, ?_⟩
    rw [if_neg (by rw [hcoin]; simp)]
    refine bind_ok.mpr ⟨propRLP, w, henc, ?_⟩
    rw [if_neg (by rw [hdata]; simp [proposalTx, Transaction.data])]
    exact bind_ok.mpr ⟨w, w, hget, bind_ok.mpr ⟨u, w₅, hset, hr'⟩⟩

theorem replayProposals_of_execute {k : ℕ} (h : executeProposals C c header n i k w = .ok es w') :
    es.length = k ∧ ∃ rs, replayProposals C c header n i (es.map Executed.tx) w = .ok rs w' ∧
      List.Forall₂ SameExecution es rs := by
  induction k generalizing i es w with
  | zero =>
    obtain ⟨rfl, rfl⟩ := pure_ok.mp h
    exact ⟨rfl, [], rfl, .nil⟩
  | succ k ih =>
    obtain ⟨prop, w₁, hprop, h⟩ := bind_ok.mp h
    obtain ⟨⟨tx, r⟩, w₂, hexec, h⟩ := bind_ok.mp h
    obtain ⟨rest, w₃, hrest, h⟩ := bind_ok.mp h
    obtain ⟨rfl, rfl⟩ := pure_ok.mp h
    obtain ⟨r', hr', heq⟩ := replayProposal_of_execute hsign hcoin hexec
    obtain ⟨hlen, rs, hrs, hsame⟩ := ih hrest
    refine ⟨by rw [length_cons, hlen], ⟨tx, r', prop.id⟩ :: rs, ?_, .cons ⟨rfl, heq, rfl⟩ hsame⟩
    exact bind_ok.mpr ⟨prop, w₁, hprop, bind_ok.mpr ⟨r', w₂, hr', bind_ok.mpr ⟨rs, w₃, hrs, rfl⟩⟩⟩

theorem replayGovernance_of_execute (hfn : c.signTxFn.isSome = true)
    (h : executeGovernance C c header n w = .ok es w') :
    ∃ rs, replayGovernance C c header n (es.map Executed.tx) w = .ok rs w' ∧
      List.Forall₂ SameExecution es rs := by
  rw [executeGovernance, hfn, Bool.true_and] at h
  rw [replayGovernance]
  split at h
  · rename_i hred
    rw [if_pos hred]
    obtain ⟨count, w₁, hcount, h⟩ := bind_ok.mp h
    obtain ⟨executed, w₂, hexec, h⟩ := bind_ok.mp h
    obtain ⟨u, w₃, hfin, h⟩ := bind_ok.mp h
    obtain ⟨rfl, rfl⟩ := pure_ok.mp h
    obtain ⟨hlen, rs, hrs, hsame⟩ := replayProposals_of_execute hsign hcoin hexec
    have hids : rs.map Executed.id = executed.map Executed.id := ids_eq hsame
    have hcount' : UInt32.ofNat (executed.map Executed.tx).length = count := by
      rw [length_map, hlen, UInt32.ofNat_toNat]
    refine ⟨rs, bind_ok.mpr ⟨count, w₁, hcount, ?_⟩, hsame⟩
    rw [if_neg (by rw [hcount']; simp), take_of_length_le (by rw [length_map, hlen])]
    refine bind_ok.mpr ⟨rs, w₂, hrs, bind_ok.mpr ⟨u, w₃, ?_, rfl⟩⟩
    rw [hids]
    exact hfin
  rename_i hred
  rw [if_neg hred]
  obtain ⟨rfl, rfl⟩ := pure_ok.mp h
  exact ⟨[], rfl, .nil⟩

end

theorem doSomethingAtEpoch_top (h : c.doSomethingAtEpoch header w = .ok vs w') :
    c.getTopValidators header = .ok vs := by
  obtain ⟨top, w₁, htop, h⟩ := bind_ok.mp h
  obtain ⟨u, w₂, _, h⟩ := bind_ok.mp h
  obtain ⟨u', w₃, _, h⟩ := bind_ok.mp h
  obtain ⟨rfl, rfl⟩ := pure_ok.mp h
  exact (ofExcept_ok.mp htop).1

theorem getTopValidators_congr {h h'} (hp : h.parentHash = h'.parentHash)
    (hn : h.number = h'.number) (hc : h.coinbase = h'.coinbase) :
    c.getTopValidators h = c.getTopValidators h' := by
  simp only [Posa.getTopValidators, numberU64, hp, hn, hc]

theorem makeSlice_eq_ok {α : Type} {l : List α} {s : Slice α} (h : makeSlice l = .ok s) : s.data = l := by
  rw [makeSlice] at h
  split at h
  · cases h
    rfl
  · cases h

theorem extraSection_eq {extra} {vanity middle sealing}
    (h : extra.data = vanity ++ middle ++ sealing) (hv : vanity.length = extraVanity)
    (hs : sealing.length = extraSeal) : extraSection extra = .ok middle := by
  have hlen : extra.data.length = vanity.length + middle.length + sealing.length := by
    rw [h, length_append, length_append]
  rw [extraSection, if_neg (by omega)]
  have hcut : extra.data.length - extraSeal = (vanity ++ middle).length := by
    rw [length_append]
    omega
  rw [hcut, h, take_left, ← hv, drop_left]

theorem prepared_extra (hprep : PreparedBy c header)
    (hneeds : needsEpoch c header = .ok true) (htop : c.getTopValidators header = .ok vs) :
    extraSection header.extra = .ok (validatorsBytes vs) := by
  obtain ⟨draft, now, prepared, h, hextra, hparent, hnumber, hcoin⟩ := hprep
  obtain ⟨number, hn, h⟩ := bind_eq_ok.mp h
  obtain ⟨snap, _, h⟩ := bind_eq_ok.mp h
  obtain ⟨turn, _, h⟩ := bind_eq_ok.mp h
  obtain ⟨validators, hvs, h⟩ := bind_eq_ok.mp h
  obtain ⟨extra, hmake, h⟩ := bind_eq_ok.mp h
  split at h
  · cases h
  cases h
  have hadmin : c.adminFeeMode = false := by
    by_contra ha
    rw [needsEpoch, if_pos (Bool.not_eq_false _ ▸ ha)] at hneeds
    cases hneeds
  have hepoch : number % c.config.epoch = 0 := by
    rw [needsEpoch, if_neg (by simp [hadmin])] at hneeds
    obtain ⟨number', hn', hneeds⟩ := bind_eq_ok.mp hneeds
    have heq : number' = number := by
      rw [numberU64, hnumber] at hn'
      rw [numberU64] at hn
      exact Except.ok.inj (hn'.symm.trans hn)
    rw [← heq]
    exact of_decide_eq_true (Except.ok.inj hneeds)
  have heq : validators = vs := by
    rw [nextValidators, if_pos hepoch, if_neg (by simp [hadmin])] at hvs
    rw [getTopValidators_congr hparent hnumber hcoin] at htop
    exact Except.ok.inj (hvs.symm.trans htop)
  rw [hextra, ← heq]
  apply extraSection_eq (makeSlice_eq_ok hmake)
  · rw [length_take, length_append, length_replicate]
    omega
  · exact length_replicate

/-- Where the update of the validators does not fail, the verifier's step does
what the assembler's does, and its check passes. -/
theorem epochStep_of_assemble (hprep : PreparedBy c header) (h : assembleEpochStep c header w = .ok u w')
    (hok : needsEpoch c header = .ok false ∨ ∃ vs w₁, c.doSomethingAtEpoch header w = .ok vs w₁) :
    epochStep c header w = .ok u w' := by
  obtain ⟨needs, w₁, hneeds, h⟩ := bind_ok.mp h
  obtain ⟨hneeds', rfl⟩ := ofExcept_ok.mp hneeds
  cases needs with
  | false => exact bind_ok.mpr ⟨false, w, hneeds, h⟩
  | true =>
    obtain hno | ⟨vs, w₁, hvs⟩ := hok
    · rw [hno] at hneeds'
      cases hneeds'
    obtain ⟨res, w₂, hres, h⟩ := bind_ok.mp h
    rw [attempt_of_ok hvs] at hres
    cases hres
    obtain ⟨_, rfl⟩ := pure_ok.mp h
    have hextra := prepared_extra hprep hneeds' (doSomethingAtEpoch_top hvs)
    refine bind_ok.mpr ⟨true, w, hneeds, bind_ok.mpr ⟨vs, w₁, hvs, ?_⟩⟩
    refine bind_ok.mpr ⟨_, w₁, ofExcept_ok.mpr ⟨hextra, rfl⟩, ?_⟩
    rw [if_neg (by simp)]
    rfl

theorem epochStep_ok (h : epochStep c header w = .ok u w') :
    needsEpoch c header = .ok false ∨ ∃ vs w₁, c.doSomethingAtEpoch header w = .ok vs w₁ := by
  obtain ⟨needs, w₁, hneeds, h⟩ := bind_ok.mp h
  obtain ⟨hneeds', rfl⟩ := ofExcept_ok.mp hneeds
  cases needs with
  | false => exact .inl hneeds'
  | true =>
    obtain ⟨vs, w₁, hvs, _⟩ := bind_ok.mp h
    exact .inr ⟨vs, w₁, hvs⟩

def beforeEpoch (c : Posa ω) (header : Header) (txs : List Transaction) : Sys ω Unit := do
  initStep c header
  punishStep c header
  rewardStep c header txs

/-- The block does not end an epoch, or the contracts accept the new set. -/
def EpochSucceeds (c : Posa ω) (header : Header) (txs : List Transaction) (w : World ω) : Prop :=
  ∃ u w₁, beforeEpoch c header txs w = .ok u w₁ ∧
    (needsEpoch c header = .ok false ∨ ∃ vs w₂, c.doSomethingAtEpoch header w₁ = .ok vs w₂)

theorem finalize_epochSucceeds {txs systemTxs} {receipts}
    {fin} (h : finalize C c header txs receipts systemTxs w = .ok fin w') :
    EpochSucceeds c header txs w := by
  obtain ⟨u₁, w₁, hinit, h⟩ := bind_ok.mp h
  obtain ⟨u₂, w₂, hpunish, h⟩ := bind_ok.mp h
  obtain ⟨u₃, w₃, hreward, h⟩ := bind_ok.mp h
  obtain ⟨u₄, w₄, hepoch, h⟩ := bind_ok.mp h
  exact ⟨u₃, w₃, bind_ok.mpr ⟨u₁, w₁, hinit, bind_ok.mpr ⟨u₂, w₂, hpunish, hreward⟩⟩, epochStep_ok hepoch⟩

/-- A block that a sealer assembled is accepted, with the same root and the same
receipts, exactly when the update of the validators did not fail. -/
theorem assembled_accepted_iff {hasher : TrieHasher} {txs : List Transaction} {receipts : List Receipt}
    {out : Finalized} (hsign : SignsFor C c) (hfn : c.signTxFn.isSome = true)
    (hcoin : header.coinbase = c.validator) (hprep : PreparedBy c header)
    (h : finalizeAndAssemble C c header hasher txs receipts w = .ok out w') :
    (∃ fin w₂, finalize C c header txs receipts (out.txs.drop txs.length) w = .ok fin w₂ ∧
      fin.header.root = out.header.root ∧
      fin.receipts.map Receipt.consensus = out.receipts.map Receipt.consensus) ↔
    EpochSucceeds c header txs w := by
  refine ⟨fun ⟨fin, w₂, hfin, _⟩ => finalize_epochSucceeds hfin, ?_⟩
  rintro ⟨u, w₃', hbefore, hepoch⟩
  obtain ⟨u₁, w₁, hinit, h⟩ := bind_ok.mp h
  obtain ⟨u₂, w₂, hpunish, h⟩ := bind_ok.mp h
  obtain ⟨u₃, w₃, hreward, h⟩ := bind_ok.mp h
  obtain ⟨u₄, w₄, hassemble, h⟩ := bind_ok.mp h
  obtain ⟨es, w₅, hgov, h⟩ := bind_ok.mp h
  obtain ⟨header', w₆, hheader, h⟩ := bind_ok.mp h
  obtain ⟨rfl, rfl⟩ := pure_ok.mp h
  rw [mapError_ok] at hinit hpunish
  have hsame : w₃' = w₃ := by
    have hrun : beforeEpoch c header txs w = .ok u₃ w₃ :=
      bind_ok.mpr ⟨u₁, w₁, hinit, bind_ok.mpr ⟨u₂, w₂, hpunish, hreward⟩⟩
    rw [hrun] at hbefore
    cases hbefore
    rfl
  subst hsame
  obtain ⟨rs, hrs, hall⟩ := replayGovernance_of_execute hsign hcoin hfn hgov
  refine ⟨⟨header', txs ++ rs.map Executed.tx, receipts ++ rs.map Executed.receipt⟩, w₆, ?_, rfl, ?_⟩
  · dsimp only
    rw [drop_left]
    refine bind_ok.mpr ⟨u₁, w₁, hinit, bind_ok.mpr ⟨u₂, w₂, hpunish, bind_ok.mpr ⟨u₃, w₃', hreward, ?_⟩⟩⟩
    refine bind_ok.mpr ⟨u₄, w₄, epochStep_of_assemble hprep hassemble hepoch, ?_⟩
    exact bind_ok.mpr ⟨rs, w₅, hrs, bind_ok.mpr ⟨header', w₆, hheader, rfl⟩⟩
  have hreceipts : (rs.map Executed.receipt).map Receipt.consensus =
      (es.map Executed.receipt).map Receipt.consensus := by
    rw [map_map, map_map]
    exact map_eq_of_forall₂ (fun _ _ hsame => hsame.receipt) hall
  dsimp only
  rw [map_append, map_append, hreceipts]

/-- Contracts that change nothing. The update of the validators may revert. -/
def scripted (reverts : Bool) : Interpreter Unit where
  call _ _ _ input gas _ w :=
    ⟨[], gas, UInt64.le_refl _, if reverts && input == [1] then some .executionReverted else none, w⟩
  create _ _ _ gas _ w := ⟨[], gas, UInt64.le_refl _, none, w⟩
  prepareAccessList _ _ _ _ _ := ()

def sampleProposal : Proposal := ⟨1, 0, addressTwo, addressTwo, 0, []⟩

def sampleAbi : Abi where
  pack _ method := .ok [match method with
    | .updateActiveValidatorSet _ _ => 1
    | _ => 0]
  unpackValidators _ := .ok [addressOne]
  unpackCount _ := .ok 1
  unpackProposal _ := .ok sampleProposal

def sampleSysTx (v r s : Int) : Transaction :=
  .legacy {
    nonce := 0
    gasPrice := 0
    gas := 30000000
    toAddr := some sysGovToAddr
    value := 0
    data := ⟨(ofNat 47 0xee0180942b5ad5c4795c026514f8317c7a215e218dccd6cf942b5ad5c4795c026514f8317c7a215e218dccd6cf8080).toList, by simp⟩
    v := v
    r := r
    s := s }

def signedSysTx : Transaction :=
  sampleSysTx 38 0xb093ca62f2d8a937a2c76c013c47958da3d71657d5cb2bb87c49e247405a9d91
    0x50575447ad9495935417b2b885e27c4af5900ede5cd259047783bf5a30dbcfe5

def sysCrypto : Crypto :=
  let signed := hexToHash 0x2d5694d9759bf3d1367f6955b2b91e04ee7be1196e0871d6286b82fce92c1dc7
  Crypto.ofTables
    (((ofNat 82 0xf85080808401c9c38094000000000000000000000000000000000000ffff80afee0180942b5ad5c4795c026514f8317c7a215e218dccd6cf942b5ad5c4795c026514f8317c7a215e218dccd6cf8080018080).toList, signed) ::
      ((ofNat 146 0xf89080808401c9c38094000000000000000000000000000000000000ffff80afee0180942b5ad5c4795c026514f8317c7a215e218dccd6cf942b5ad5c4795c026514f8317c7a215e218dccd6cf808026a0b093ca62f2d8a937a2c76c013c47958da3d71657d5cb2bb87c49e247405a9d91a050575447ad9495935417b2b885e27c4af5900ede5cd259047783bf5a30dbcfe5).toList,
        hexToHash 0x2d298b27a3c3b4e4b158be07506ddc5551d1afc453bdd50d284eeabd96c0a0ed) ::
      sampleKeys.map (fun k => (k.1.toList.drop 1, k.2)))
    [((signed, (ofNat 65 0xb093ca62f2d8a937a2c76c013c47958da3d71657d5cb2bb87c49e247405a9d9150575447ad9495935417b2b885e27c4af5900ede5cd259047783bf5a30dbcfe501).toList), pubOne)]

def sampleState : World Unit where
  balance := 0
  nonce _ := 0
  codeHash _ := zeros 32
  refund := 0
  thash := zeros 32
  txIndex := 0
  logs _ := []
  rest := ()

def samplePosa (reverts : Bool) : Posa Unit where
  chainConfig := { istanbulConfig (some ⟨3, 200, false, none⟩) with redCoastBlock := some 2 }
  config := ⟨3, 200, false, none⟩
  config_eq := ⟨_, rfl, rfl⟩
  abi := sampleAbi
  validator := addressOne
  signTxFn := some fun account tx id =>
    if account = addressOne ∧ tx = sampleSysTx 0 0 0 ∧ id = some 1 then .ok signedSysTx
    else .error .signTx
  stateFn _ := .ok sampleState
  getHeader _ _ := some { Header.zero with number := some 199, difficulty := some 2, time := 597 }
  snapshot _ _ := .ok (newSnapshot ⟨3, 200, false, none⟩ 199 (zeros 32) sampleListed)
  getHash _ _ := zeros 32
  isDeveloper _ _ := true
  interpreter := scripted reverts
  ops := ⟨fun _ w => w, fun _ w => (zeros 32, w), fun _ w => (false, w), fun _ => ()⟩

def sampleDraft : Header := { Header.zero with number := some 200, gasLimit := 30000000 }

def epochHeader : Header :=
  { sampleDraft with
    coinbase := addressOne
    difficulty := some 2
    time := 600
    extra := sampleExtra }

theorem samplePosa_signs : SignsFor sysCrypto (samplePosa reverts) := by
  have hsender : (Signer.london 1).sender sysCrypto signedSysTx = .ok addressOne := by decide +kernel
  intro signTxFn hfn tx tx' id hsigned
  cases hfn
  dsimp only at hsigned
  split at hsigned
  · rename_i hcond
    cases hsigned
    rw [hcond.2.1]
    exact ⟨rfl, hsender⟩
  · cases hsigned

theorem epochHeader_prepared : PreparedBy (samplePosa reverts) epochHeader := by
  refine ⟨sampleDraft, 0, epochHeader, ?_, rfl, rfl, rfl, rfl⟩
  cases reverts <;> decide +kernel

/-- A block with an update of the validators and a proposal. -/
theorem assembled_accepted_epoch : ∃ out w',
    finalizeAndAssemble sysCrypto (samplePosa false) epochHeader ⟨fun _ => zeros 32, fun _ => zeros 32⟩
      [] [] sampleState = .ok out w' ∧
    ∃ fin w₂, finalize sysCrypto (samplePosa false) epochHeader [] [] (out.txs.drop 0) sampleState =
        .ok fin w₂ ∧
      fin.header.root = out.header.root ∧
      fin.receipts.map Receipt.consensus = out.receipts.map Receipt.consensus := by
  obtain ⟨out, w', hout, _⟩ := exists_ok_of_okAnd (p := fun _ => true)
    (r := finalizeAndAssemble sysCrypto (samplePosa false) epochHeader
      ⟨fun _ => zeros 32, fun _ => zeros 32⟩ [] [] sampleState) (by decide +kernel)
  refine ⟨out, w', hout, (assembled_accepted_iff (samplePosa_signs false) rfl rfl
    (epochHeader_prepared false) hout).mpr ?_⟩
  obtain ⟨vs, w₂, hrun, _⟩ := exists_ok_of_okAnd (p := fun _ => true)
    (r := (beforeEpoch (samplePosa false) epochHeader [] >>=
      fun _ => (samplePosa false).doSomethingAtEpoch epochHeader) sampleState) (by decide +kernel)
  obtain ⟨u, w₁, hbefore, hepoch⟩ := bind_ok.mp hrun
  exact ⟨u, w₁, hbefore, .inr ⟨vs, w₂, hepoch⟩⟩

/-- When the update reverts, the sealer still assembles a block, and no verifier
accepts it. -/
theorem assembled_rejected_epoch : SignsFor sysCrypto (samplePosa true) ∧
    (samplePosa true).signTxFn.isSome = true ∧
    epochHeader.coinbase = (samplePosa true).validator ∧
    PreparedBy (samplePosa true) epochHeader ∧
    ∃ out w', finalizeAndAssemble sysCrypto (samplePosa true) epochHeader
        ⟨fun _ => zeros 32, fun _ => zeros 32⟩ [] [] sampleState = .ok out w' ∧
      ¬ ∃ fin w₂, finalize sysCrypto (samplePosa true) epochHeader [] [] (out.txs.drop 0) sampleState =
        .ok fin w₂ := by
  refine ⟨samplePosa_signs true, rfl, rfl, epochHeader_prepared true, ?_⟩
  obtain ⟨out, w', hout, _⟩ := exists_ok_of_okAnd (p := fun _ => true)
    (r := finalizeAndAssemble sysCrypto (samplePosa true) epochHeader
      ⟨fun _ => zeros 32, fun _ => zeros 32⟩ [] [] sampleState) (by decide +kernel)
  refine ⟨out, w', hout, ?_⟩
  rintro ⟨fin, w₂, hfin⟩
  obtain ⟨u, w₁, hbefore, hno | ⟨vs, w₂, hepoch⟩⟩ := finalize_epochSucceeds hfin
  · exact absurd hno (by decide +kernel)
  have hrun : (beforeEpoch (samplePosa true) epochHeader [] >>=
      fun _ => (samplePosa true).doSomethingAtEpoch epochHeader) sampleState = .ok vs w₂ :=
    bind_ok.mpr ⟨u, w₁, hbefore, hepoch⟩
  have hfails : okAnd (fun _ => true) ((beforeEpoch (samplePosa true) epochHeader [] >>=
    fun _ => (samplePosa true).doSomethingAtEpoch epochHeader) sampleState) = false := by
    decide +kernel
  rw [hrun] at hfails
  cases hfails

end Geth.Congress.Assembly
