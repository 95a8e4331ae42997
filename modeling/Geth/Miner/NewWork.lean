import Geth.Congress.Assembly
import Geth.Congress.VerifyHeader

namespace Geth.Miner.NewWork

open Lib.BigEndian Common.Basic Params.Config Types.Block Types.TxData Types.Receipts
open Congress.SnapshotApply Congress.SealSpacing Congress.VerifySeal
open Congress.Retrieval Congress.SystemCalls Congress.Finalize Congress.Assembly
open Congress.VerifyHeader List Nat Int64 UInt64 Except Int

def calcGasLimit (parentGasLimit desiredLimit : UInt64) : UInt64 :=
  let delta := parentGasLimit / gasLimitBoundDivisor - 1
  let desiredLimit := if desiredLimit < minGasLimit then minGasLimit else desiredLimit
  if parentGasLimit < desiredLimit then
    let limit := parentGasLimit + delta
    if desiredLimit < limit then desiredLimit else limit
  else if desiredLimit < parentGasLimit then
    let limit := parentGasLimit - delta
    if limit < desiredLimit then desiredLimit else limit
  else parentGasLimit

section

theorem toInt_toInt64 {a : UInt64} (h : a.toNat < 2 ^ 63) : a.toInt64.toInt = a.toNat := by
  rw [toInt, UInt64.toInt64]
  apply BitVec.toInt_eq_toNat_of_lt
  have htwice : 2 * a.toNat < 2 ^ 64 := by omega
  exact htwice

theorem toUInt64_toNat {x : Int64} {n : ℤ} (hx : x.toInt = n) (hn : 0 ≤ n) :
    x.toUInt64.toNat = n.natAbs := by
  have hpos : 0 ≤ x := by
    rw [le_iff_toInt_le, hx]
    exact hn
  rw [toNat_toUInt64_of_le hpos, toNatClampNeg, hx]
  omega

variable {p h ceil : UInt64}

section

variable (hp : p.toNat < 2 ^ 63) (hh : h.toNat < 2 ^ 63)
include hp hh

/-- Below 2^63 the signed difference does not overflow. -/
theorem diff_toInt : (p.toInt64 - h.toInt64).toInt = (p.toNat : ℤ) - h.toNat := by
  rw [toInt_sub, toInt_toInt64 hp, toInt_toInt64 hh]
  apply bmod_eq_of_le <;> omega

theorem neg_diff_toInt : ((p.toInt64 - h.toInt64) * -1).toInt = (h.toNat : ℤ) - p.toNat := by
  have hone : (-1 : Int64).toInt = -1 := rfl
  rw [toInt_mul, diff_toInt hp hh, hone, mul_neg_one, neg_sub]
  apply bmod_eq_of_le <;> omega

theorem diff_toNat : (if p.toInt64 - h.toInt64 < 0 then (p.toInt64 - h.toInt64) * -1
      else p.toInt64 - h.toInt64).toUInt64.toNat = ((p.toNat : ℤ) - h.toNat).natAbs := by
  have hzero : (0 : Int64).toInt = 0 := rfl
  split
  next hneg =>
    rw [lt_iff_toInt_lt, diff_toInt hp hh, hzero] at hneg
    rw [toUInt64_toNat (neg_diff_toInt hp hh) (by omega), show (h.toNat - p.toNat : ℤ) = -(p.toNat - h.toNat) by omega, natAbs_neg]
  next hneg =>
    rw [lt_iff_toInt_lt, diff_toInt hp hh, hzero] at hneg
    exact toUInt64_toNat (diff_toInt hp hh) (by omega)

theorem verifyGaslimit_eq_ok : verifyGaslimit p h = .ok () ↔
    ((p.toNat : ℤ) - h.toNat).natAbs < p.toNat / 1024 ∧ 5000 ≤ h.toNat := by
  have hlimit : (p / gasLimitBoundDivisor).toNat = p.toNat / 1024 := UInt64.toNat_div _ _
  have hmin : h < minGasLimit ↔ h.toNat < 5000 := lt_iff_toNat_lt
  have hout : p / gasLimitBoundDivisor ≤ (if p.toInt64 - h.toInt64 < 0 then
      (p.toInt64 - h.toInt64) * -1 else p.toInt64 - h.toInt64).toUInt64 ↔
      p.toNat / 1024 ≤ ((p.toNat : ℤ) - h.toNat).natAbs := by
    rw [le_iff_toNat_le, diff_toNat hp hh, hlimit]
  simp only [verifyGaslimit, hout, hmin]
  split
  · simp only [reduceCtorEq, false_iff]
    omega
  split
  · simp only [reduceCtorEq, false_iff]
    omega
  · simp only [true_iff]
    omega

end

/-- The machine arithmetic of `calcGasLimit` for the parent `p` and of `verifyGaslimit` for `p` and `h`
has the values of the integers. -/
structure Exact (p h : UInt64) : Prop where
  delta : ((p / gasLimitBoundDivisor - 1).toNat : ℤ) = p.toNat / 1024 - 1
  up : ((p + (p / gasLimitBoundDivisor - 1)).toNat : ℤ) = p.toNat + (p.toNat / 1024 - 1)
  down : ((p - (p / gasLimitBoundDivisor - 1)).toNat : ℤ) = p.toNat - (p.toNat / 1024 - 1)
  diff : (p.toInt64 - h.toInt64).toInt = p.toNat - h.toNat
  neg_diff : ((p.toInt64 - h.toInt64) * -1).toInt = h.toNat - p.toNat

/-- The desired limit as `calcGasLimit` raises it. -/
def desiredLimit (ceil : UInt64) : ℕ := max ceil.toNat 5000

variable (hlow : minGasLimit ≤ p) (hhigh : p ≤ maxGasLimit)
include hlow hhigh

theorem range_toNat : 5000 ≤ p.toNat ∧ p.toNat < 2 ^ 63 :=
  ⟨le_iff_toNat_le.mp hlow, lt_succ_of_le (le_iff_toNat_le.mp hhigh)⟩

theorem exact_of_range (hh : h.toNat < 2 ^ 63) : Exact p h := by
  obtain ⟨hmin, hmax⟩ := range_toNat hlow hhigh
  have hone : (1 : UInt64).toNat = 1 := rfl
  have hlimit : (p / gasLimitBoundDivisor).toNat = p.toNat / 1024 := UInt64.toNat_div _ _
  have hdelta : (p / gasLimitBoundDivisor - 1).toNat = p.toNat / 1024 - 1 := by
    rw [UInt64.toNat_sub_of_le, hlimit, hone]
    rw [le_iff_toNat_le, hlimit, hone]
    omega
  refine ⟨by omega, ?_, ?_, diff_toInt hmax hh, neg_diff_toInt hmax hh⟩
  · rw [UInt64.toNat_add, hdelta]
    omega
  · rw [UInt64.toNat_sub_of_le, hdelta]
    · omega
    rw [le_iff_toNat_le, hdelta]
    omega

theorem calcGasLimit_toNat (ceil : UInt64) : (calcGasLimit p ceil).toNat =
    if p.toNat < desiredLimit ceil then min (p.toNat + (p.toNat / 1024 - 1)) (desiredLimit ceil)
    else max (p.toNat - (p.toNat / 1024 - 1)) (desiredLimit ceil) := by
  obtain ⟨hmin, hmax⟩ := range_toNat hlow hhigh
  obtain ⟨hdelta, hup, hdown, -, -⟩ := exact_of_range (h := p) hlow hhigh hmax
  have hd : (if ceil < minGasLimit then minGasLimit else ceil).toNat = desiredLimit ceil := by
    have hm : minGasLimit.toNat = 5000 := rfl
    simp only [desiredLimit, lt_iff_toNat_lt, hm]
    split <;> omega
  rw [calcGasLimit]
  dsimp only
  generalize (if ceil < minGasLimit then minGasLimit else ceil) = d at hd ⊢
  simp only [lt_iff_toNat_lt, hd]
  split
  · split <;> omega
  split
  · split <;> omega
  · omega

variable (hceil : ceil ≤ maxGasLimit)
include hceil

theorem calcGasLimit_bounds : ((p.toNat : ℤ) - (calcGasLimit p ceil).toNat).natAbs < p.toNat / 1024 ∧
      5000 ≤ (calcGasLimit p ceil).toNat ∧ (calcGasLimit p ceil).toNat < 2 ^ 63 := by
  obtain ⟨hmin, hmax⟩ := range_toNat hlow hhigh
  have hc : desiredLimit ceil < 2 ^ 63 := max_lt (lt_succ_of_le (le_iff_toNat_le.mp hceil)) (by decide)
  have hd : 5000 ≤ desiredLimit ceil := le_max_right ..
  rw [calcGasLimit_toNat hlow hhigh ceil]
  split <;> omega

theorem verifyGaslimit_calcGasLimit :
    calcGasLimit p ceil ≤ maxGasLimit ∧ verifyGaslimit p (calcGasLimit p ceil) = .ok () := by
  obtain ⟨hup, hdown, hmax⟩ := calcGasLimit_bounds hlow hhigh hceil
  refine ⟨?_, (verifyGaslimit_eq_ok (range_toNat hlow hhigh).2 hmax).mpr ⟨hup, hdown⟩⟩
  rw [le_iff_toNat_le]
  exact le_of_lt_succ hmax

/-- The distance to the desired limit falls with every step, which is three units at least. -/
theorem votes_reach : ∃ n, ∀ m, n ≤ m → ((calcGasLimit · ceil)^[m] p).toNat = desiredLimit ceil := by
  induction hn : ((p.toNat : ℤ) - desiredLimit ceil).natAbs using Nat.strong_induction_on generalizing p with
  | h n ih =>
    have hstep := calcGasLimit_toNat hlow hhigh ceil
    by_cases heq : p.toNat = desiredLimit ceil
    · have hfixed : calcGasLimit p ceil = p := by
        rw [← UInt64.toNat_inj, hstep]
        split <;> omega
      exact ⟨0, fun m _ => by rw [Function.iterate_fixed hfixed m, heq]⟩
    obtain ⟨hmin, hmax⟩ := range_toNat hlow hhigh
    have hnext : ((calcGasLimit p ceil).toNat - desiredLimit ceil : ℤ).natAbs < n := by
      rw [hstep]
      split <;> omega
    obtain ⟨k, hk⟩ := ih _ hnext (le_iff_toNat_le.mpr (calcGasLimit_bounds hlow hhigh hceil).2.1)
      (verifyGaslimit_calcGasLimit hlow hhigh hceil).1 rfl
    refine ⟨k + 1, fun m hm => ?_⟩
    obtain ⟨m, rfl⟩ := Nat.exists_eq_add_of_le' (one_le_of_lt hm)
    exact hk m (le_of_lt_succ hm)

theorem gasLimit_voting : verifyGaslimit p (calcGasLimit p ceil) = .ok () ∧
    min p.toNat (desiredLimit ceil) ≤ (calcGasLimit p ceil).toNat ∧
    (calcGasLimit p ceil).toNat ≤ max p.toNat (desiredLimit ceil) ∧
    (calcGasLimit p ceil = p → p.toNat = desiredLimit ceil) ∧
    (∃ n, ∀ m, n ≤ m → ((calcGasLimit · ceil)^[m] p).toNat = desiredLimit ceil) ∧
    Exact p (calcGasLimit p ceil) := by
  obtain ⟨hmin, hmax⟩ := range_toNat hlow hhigh
  have hstep := calcGasLimit_toNat hlow hhigh ceil
  refine ⟨(verifyGaslimit_calcGasLimit hlow hhigh hceil).2, ?_, ?_, ?_, votes_reach hlow hhigh hceil,
    exact_of_range hlow hhigh (calcGasLimit_bounds hlow hhigh hceil).2.2⟩
  · rw [hstep]
    split <;> omega
  · rw [hstep]
    split <;> omega
  · intro heq
    rw [heq] at hstep
    split at hstep <;> omega

end

theorem gasLimit_voting_lowest :
    ∃ n, ∀ m, n ≤ m → ((calcGasLimit · 8000000)^[m] minGasLimit).toNat = 8000000 :=
  (@gasLimit_voting minGasLimit 8000000 (by decide) (by decide) (by decide)).2.2.2.2.1

structure Settings where
  gasCeil : UInt64
  extra : Slice UInt8
  coinbase : Address
  running : Bool

section

variable {ω : Type} {header draft : Header} (config : ChainConfig)

def newWorkHeader (C : Crypto) (config : ChainConfig) (set : Settings) (parent : Header)
    (timestamp : Int64) : Header :=
  let timestamp := if timestamp.toUInt64 ≤ parent.time then (parent.time + 1).toInt64 else timestamp
  let header := { Header.zero with
    parentHash := parent.hash C
    number := parent.number.map (· + 1)
    gasLimit := calcGasLimit parent.gasLimit set.gasCeil
    extra := set.extra
    time := timestamp.toUInt64
    coinbase := if set.running then set.coinbase else zeros 20 }
  if config.isLondon header.number then
    { header with
      baseFee := some (calcBaseFee parent)
      gasLimit := calcGasLimit parent.gasLimit set.gasCeil }
  else header

def daoForkBlockExtra : Slice UInt8 :=
  ⟨[0x64, 0x61, 0x6f, 0x2d, 0x68, 0x61, 0x72, 0x64, 0x2d, 0x66, 0x6f, 0x72, 0x6b], by decide⟩

def daoForkExtraRange : Int := 10

/-- Near the DAO fork the extra data is replaced. -/
def overrideExtra (config : ChainConfig) (header : Header) : Header :=
  match config.daoForkBlock, header.number with
  | some daoBlock, some number =>
    if daoBlock ≤ number ∧ number < daoBlock + daoForkExtraRange then
      if config.daoForkSupport then { header with extra := daoForkBlockExtra }
      else if header.extra = daoForkBlockExtra then { header with extra := Slice.empty }
      else header
    else header
  | _, _ => header

/-- The header on which `commitNewWork` builds a block, if it builds one. -/
def commitNewWork (C : Crypto) (c : Posa ω) (set : Settings) (parent : Header) (timestamp : Int64)
    (now : UInt64) : Option Header :=
  if set.running ∧ set.coinbase = zeros 20 then none
  else
    match prepare c (newWorkHeader C c.chainConfig set parent timestamp) now with
    | .error _ => none
    | .ok header => some (overrideExtra c.chainConfig header)

variable {C : Crypto} {c : Posa ω} {set : Settings} {parent : Header} {timestamp : Int64} {now : UInt64}

theorem overrideExtra_of_none {config} (h : config.daoForkBlock = none) (header : Header) :
    overrideExtra config header = header := by
  rw [overrideExtra, h]

theorem commitNewWork_eq_some (hdao : c.chainConfig.daoForkBlock = none)
    (h : commitNewWork C c set parent timestamp now = some header) :
    prepare c (newWorkHeader C c.chainConfig set parent timestamp) now = .ok header := by
  rw [commitNewWork] at h
  split at h
  · cases h
  split at h
  · cases h
  next prepared hprep =>
    rw [overrideExtra_of_none hdao, Option.some.injEq] at h
    rw [hprep, h]

theorem newWorkHeader_parentHash :
    (newWorkHeader C config set parent timestamp).parentHash = parent.hash C := by
  rw [newWorkHeader]
  dsimp only
  split <;> rfl

theorem newWorkHeader_number :
    (newWorkHeader C config set parent timestamp).number = parent.number.map (· + 1) := by
  rw [newWorkHeader]
  dsimp only
  split <;> rfl

theorem newWorkHeader_gasLimit : (newWorkHeader C config set parent timestamp).gasLimit =
      calcGasLimit parent.gasLimit set.gasCeil := by
  rw [newWorkHeader]
  dsimp only
  split <;> rfl

theorem newWorkHeader_baseFee : (newWorkHeader C config set parent timestamp).baseFee =
      if config.isLondon (parent.number.map (· + 1)) then some (calcBaseFee parent) else none := by
  rw [newWorkHeader]
  dsimp only
  split <;> rfl

/-- What `Prepare` fills in, and what it leaves. -/
structure Prepared (c : Posa ω) (draft header : Header) (now : UInt64) (s : Snapshot) (turn : Bool)
    (validators : List Address) (parent : Header) : Prop where
  number : header.number = draft.number
  parentHash : header.parentHash = draft.parentHash
  gasLimit : header.gasLimit = draft.gasLimit
  baseFee : header.baseFee = draft.baseFee
  coinbase : header.coinbase = c.validator
  mixDigest : header.mixDigest = zeros 32
  difficulty : header.difficulty = some (if turn then diffInTurn else diffNoTurn)
  turn : inturn s (s.number + 1) c.validator = .ok turn
  extra : header.extra.data = (draft.extra.data ++ List.replicate extraVanity 0).take extraVanity ++
    validatorsBytes validators ++ List.replicate extraSeal 0
  time : header.time = max (parent.time + c.config.period) now

theorem prepare_eq_ok (h : prepare c draft now = .ok header) :
    ∃ number s turn validators parent, numberU64 draft = .ok number ∧
      c.snapshot (number - 1) draft.parentHash = .ok s ∧
      c.getHeader draft.parentHash (number - 1) = some parent ∧
      (number % c.config.epoch ≠ 0 → validators = []) ∧
      Prepared c draft header now s turn validators parent := by
  obtain ⟨number, hn, h⟩ := bind_eq_ok.mp h
  obtain ⟨s, hs, h⟩ := bind_eq_ok.mp h
  obtain ⟨turn, hturn, h⟩ := bind_eq_ok.mp h
  obtain ⟨validators, hvals, h⟩ := bind_eq_ok.mp h
  obtain ⟨extra, hextra, h⟩ := bind_eq_ok.mp h
  split at h
  · cases h
  next parent hparent =>
    cases h
    rw [makeSlice] at hextra
    split at hextra
    next hlen =>
      cases hextra
      refine ⟨number, s, turn, validators, parent, mapError_eq_ok.mp hn, mapError_eq_ok.mp hs, hparent,
        fun hepoch => ?_, rfl, rfl, rfl, rfl, rfl, rfl, rfl, mapError_eq_ok.mp hturn, rfl, rfl⟩
      rw [nextValidators, if_neg hepoch] at hvals
      cases hvals
      rfl
    next => cases hextra

theorem le_max_time (a b : UInt64) : a ≤ max a b := by
  have hmax : max a b = if a ≤ b then b else a := rfl
  rw [hmax]
  split
  next hle => exact hle
  next => exact UInt64.le_refl a

theorem validatorsBytes_length (vs : List Address) : (validatorsBytes vs).length = 20 * vs.length := by
  induction vs with
  | nil => rfl
  | cons v vs ih =>
    rw [validatorsBytes, flatMap_cons, length_append, ← validatorsBytes, ih, length_cons,
      List.Vector.toList_length]
    omega

theorem Prepared.extra_length {s} {turn : Bool}
    {validators} (h : Prepared c draft header now s turn validators parent) :
    header.extra.data.length = extraVanity + 20 * validators.length + extraSeal := by
  rw [h.extra]
  simp only [length_append, length_take, length_replicate, validatorsBytes_length]
  omega

end

section

theorem withSeal_length (header : Header) (sighash : Bytes) :
    (withSeal header sighash).extra.data.length = header.extra.data.length := by
  rw [withSeal]
  simp only [length_append, length_take, length_drop]
  omega

theorem sealBlock_eq_block {config} {snapshot} {val} {signFn} {header sealed} {txs : ℕ}
    (h : sealBlock config snapshot val signFn header txs = .ok (.block sealed)) :
    ∃ number s sighash, numberU64 (copyHeader header) = .ok number ∧ number ≠ 0 ∧
      snapshot (number - 1) header.parentHash = .ok s ∧ val ∈ s.validators.members ∧
      ¬ MustWait s number val ∧ sealed = withSeal (copyHeader header) sighash := by
  obtain ⟨number, hn, h⟩ := bind_eq_ok.mp h
  split at h
  · cases h
  next hne =>
    split at h
    · cases h
    obtain ⟨s, hs, h⟩ := bind_eq_ok.mp h
    obtain ⟨allowed, hallowed, h⟩ := bind_eq_ok.mp h
    cases allowed with
    | false => cases h
    | true =>
      obtain ⟨message, _, h⟩ := bind_eq_ok.mp h
      split at h
      · cases h
      next sighash _ =>
        cases h
        obtain ⟨hmem, hwait⟩ := sealAllowed_eq_true.mp hallowed
        exact ⟨number, s, sighash, hn, hne, hs, hmem, hwait, rfl⟩

theorem checkSigner_of_sealer {s} {number} {val}
    (hmem : val ∈ s.validators.members) (hwait : ¬ MustWait s number val) :
    checkSigner s number val = .ok () := by
  refine checkSigner_eq_ok.mpr ⟨hmem, ?_⟩
  rintro ⟨seen, hk, hl, hlate⟩
  exact hwait ⟨seen, hk, hl, .inr hlate⟩

end

section

variable {C : Crypto} {ω Γ Δ : Type}

/-- A node: its engine, with snapshots as they are retrieved from its chain, cache and database. -/
structure Peer (C : Crypto) (ω Γ Δ : Type) where
  posa : Posa ω
  engine : Engine Γ Δ
  reader : ChainHeaderReader
  recents : Γ
  db : Δ
  fuel : ℕ
  config_eq : engine.config = posa.config
  getHeader_eq : posa.getHeader = reader.getHeader
  snapshot_eq : ∀ number hash o,
    Congress.Retrieval.snapshot engine C reader recents db fuel number hash [] = some o →
      posa.snapshot number hash = o.result

/-- The node has the chain, has stored only snapshots of known chains, and believed no checkpoint
above genesis to get the snapshot of the head. -/
structure Peer.Has (p : Peer C ω Γ Δ) (K : Set Header) (genesis : Header) (hs : List Header) : Prop where
  first : p.reader.getHeaderByNumber 0 = some genesis
  headers : ∀ i h, (genesis :: hs)[i]? = some h →
    p.reader.getHeader (h.hash C) (UInt64.ofNat i) = some h
  recents : SoundCache p.engine C K genesis p.recents
  db : SoundDb p.engine C K genesis p.db
  fuel : hs.length < p.fuel
  untrusted : ∀ o, Congress.Retrieval.snapshot p.engine C p.reader p.recents p.db p.fuel
    (UInt64.ofNat hs.length) ((tip genesis hs).hash C) [] = some o → o.trusted = false

variable {p : Peer C ω Γ Δ} {K : Set Header} {genesis : Header} {hs : List Header}

theorem Peer.Has.snapshot (hp : p.Has K genesis hs) (hinj : Set.InjOn (Header.hash C) K)
    (hc : HeaderChain C genesis hs) (hk : ∀ h ∈ genesis :: hs, h ∈ K) (s : Snapshot) :
    p.posa.snapshot (UInt64.ofNat hs.length) ((tip genesis hs).hash C) = .ok s ↔
      fromGenesis C p.posa.config genesis hs = .ok s := by
  have hdb : ∀ i h, hs[i]? = some h → i + 1 < hs.length + 1 →
      p.reader.getHeader (h.hash C) (ofNat (i + 1)) = some h :=
    fun i h hi _ => hp.headers (i + 1) h (by simpa using hi)
  obtain ⟨⟨o, ho, hsound⟩, -⟩ :=
    snapshot_transparent hinj hp.first hp.recents hp.db hc hk hdb hp.fuel
  rw [drop_eq_nil_of_le (by simp)] at ho
  rw [p.snapshot_eq _ _ o ho, ← p.config_eq]
  exact (hsound (hp.untrusted o ho)).1 s

theorem Peer.Has.getHeader (hp : p.Has K genesis hs) :
    p.posa.getHeader ((tip genesis hs).hash C) (UInt64.ofNat hs.length) = some (tip genesis hs) := by
  rw [p.getHeader_eq]
  apply hp.headers
  cases hs using reverseRecOn with
  | nil => rfl
  | append_singleton hs h => simp

theorem fromGenesis_number {config} {s} (hlt : hs.length < 2 ^ 64)
    (h : fromGenesis C config genesis hs = .ok s) : s.number = UInt64.ofNat hs.length := by
  obtain ⟨s₀, h₀, hr⟩ := bind_eq_ok.mp h
  obtain ⟨vs, _, hp⟩ := bind_eq_ok.mp h₀
  cases hp
  have hreached := reached_replay rfl hs (by simpa [newSnapshot] using hlt) hr
  apply UInt64.toNat_inj.mp
  rw [hreached.number, toNat_ofNat', mod_eq_of_lt hlt]
  exact zero_add _

theorem config_of_chainConfig {ω' : Type} {c : Posa ω} {c' : Posa ω'}
    (h : c'.chainConfig = c.chainConfig) : c'.config = c.config := by
  obtain ⟨conf, hconf, hc⟩ := c.config_eq
  obtain ⟨conf', hconf', hc'⟩ := c'.config_eq
  rw [h, hconf, Option.some.injEq] at hconf'
  rw [hc, hc', hconf']

end

section

variable {C : Crypto} {ω ω' Γ Γ' Δ Δ' : Type}

/-- The block that the worker passes on for sealing. Execution has settled the root and the gas. -/
def assembled (C : Crypto) (header : Header) (root : Hash) (gasUsed : UInt64) (hasher : TrieHasher)
    (txs : List Transaction) (receipts : List Receipt) : Header :=
  newBlock C { header with root, gasUsed } hasher txs receipts

structure Keeps (C : Crypto) (header sealed : Header) : Prop where
  number : sealed.number = some (header.number.getD 0)
  parentHash : sealed.parentHash = header.parentHash
  coinbase : sealed.coinbase = header.coinbase
  mixDigest : sealed.mixDigest = header.mixDigest
  uncleHash : sealed.uncleHash = calcUncleHashNil C
  time : sealed.time = header.time
  gasLimit : sealed.gasLimit = header.gasLimit
  baseFee : sealed.baseFee = header.baseFee
  difficulty : sealed.difficulty = some (header.difficulty.getD 0)
  extra : sealed.extra.data.length = header.extra.data.length

theorem keeps_sealed (header : Header) (root : Hash) (gasUsed : UInt64) (hasher : TrieHasher)
    (txs : List Transaction) (receipts : List Receipt) (sighash : Bytes) :
    Keeps C header (withSeal (copyHeader (assembled C header root gasUsed hasher txs receipts)) sighash) :=
  ⟨rfl, rfl, rfl, rfl, rfl, rfl, rfl, rfl, rfl, withSeal_length _ _⟩

theorem Peer.Has.prepared {K : Set Header} {genesis : Header} {hs : List Header} {p : Peer C ω Γ Δ}
    (hp : p.Has K genesis hs) (hinj : Set.InjOn (Header.hash C) K) (hc : HeaderChain C genesis hs)
    (hk : ∀ h ∈ genesis :: hs, h ∈ K) (hnumber : (tip genesis hs).number = some (hs.length : ℤ))
    (hdao : p.posa.chainConfig.daoForkBlock = none) {set : Settings} {timestamp : Int64} {now : UInt64}
    {header : Header}
    (hwork : commitNewWork C p.posa set (tip genesis hs) timestamp now = some header) :
    ∃ s turn validators, fromGenesis C p.posa.config genesis hs = .ok s ∧
      (UInt64.ofNat (hs.length + 1) % p.posa.config.epoch ≠ 0 → validators = []) ∧
      Prepared p.posa (newWorkHeader C p.posa.chainConfig set (tip genesis hs) timestamp) header now s
        turn validators (tip genesis hs) := by
  obtain ⟨number, s, turn, validators, parent, hn, hsnap, hparent, hvals, hprep⟩ :=
    prepare_eq_ok (commitNewWork_eq_some hdao hwork)
  rw [numberU64, newWorkHeader_number, hnumber] at hn
  have hnext : number = UInt64.ofNat (hs.length + 1) := (ok.inj hn).symm
  subst hnext
  rw [newWorkHeader_parentHash, ofNat_succ_sub_one] at hsnap hparent
  obtain rfl := Option.some.inj (hp.getHeader.symm.trans hparent)
  exact ⟨s, turn, validators, (hp.snapshot hinj hc hk s).mp hsnap, hvals, hprep⟩

/-- A header above genesis with all fields in order, on top of `parent` with snapshot `s`. -/
structure InOrder (C : Crypto) (c : Posa ω) (header parent : Header) (num now : UInt64) (s : Snapshot) :
    Prop where
  number : numberU64 header = .ok num
  number_ne : num ≠ 0
  clock : header.time ≤ now
  extra : ∃ k, header.extra.data.length = extraVanity + 20 * k + extraSeal ∧
    (num % c.config.epoch ≠ 0 → k = 0)
  mixDigest : header.mixDigest = zeros 32
  uncleHash : header.uncleHash = calcUncleHashNil C
  getParent : c.getHeader header.parentHash (num - 1) = some parent
  parentNumber : numberU64 parent = .ok (num - 1)
  parentHash : parent.hash C = header.parentHash
  time : parent.time + c.config.period ≤ header.time
  gasUsed : header.gasUsed ≤ header.gasLimit
  gasLimit_le : header.gasLimit ≤ maxGasLimit
  gasLimit : verifyGaslimit parent.gasLimit header.gasLimit = .ok ()
  baseFee : header.baseFee =
    if c.chainConfig.isLondon header.number then some (calcBaseFee parent) else none
  snapshot : c.snapshot (num - 1) header.parentHash = .ok s
  signer : ecrecover C header = .ok header.coinbase
  allowed : checkSigner s num header.coinbase = .ok ()
  difficulty : ∃ turn, inturn s num header.coinbase = .ok turn ∧
    header.difficulty = some (if turn then diffInTurn else diffNoTurn)

section

variable {c : Posa ω} {header parent : Header} {number now : UInt64} {s : Snapshot}
  (h : InOrder C c header parent number now s) (fakeDiff : Bool)

include h

theorem InOrder.verifySeal : verifySeal C fakeDiff c.snapshot header = .ok () := by
  obtain ⟨turn, hturn, hdiff⟩ := h.difficulty
  have hdifficulty : checkDifficulty s number header.coinbase header.difficulty = .ok () := by
    rw [checkDifficulty, hturn, hdiff]
    exact if_neg (not_not.mpr rfl)
  simp only [Congress.VerifySeal.verifySeal, h.number, h.snapshot, h.signer, h.allowed, hdifficulty,
    h.number_ne, bind, Except.bind, if_false, ne_eq, not_true_eq_false, ite_self]

theorem InOrder.verifyFork : verifyFork c header parent = .ok () := by
  have hfee := h.baseFee
  rw [Congress.VerifyHeader.verifyFork]
  split
  next hlondon =>
    rw [if_pos hlondon] at hfee
    simp only [verifyEip1559Header, h.gasLimit, hfee, bind, Except.bind, ne_eq, not_true_eq_false, if_false]
  next hlondon =>
    rw [if_neg hlondon] at hfee
    rw [hfee]
    exact h.gasLimit

theorem InOrder.verifyExtra : verifyExtra c header number = .ok () := by
  obtain ⟨k, hlen, hepoch⟩ := h.extra
  have hsection : header.extra.data.length - extraVanity - extraSeal = 20 * k := by omega
  rw [Congress.VerifyHeader.verifyExtra]
  rw [if_neg (by omega), if_neg (by omega), hsection, if_neg, if_neg]
  · rintro ⟨_, hmod⟩
    exact hmod (mul_mod_right _ _)
  rintro ⟨hne, hk⟩
  exact hk (by rw [hepoch hne])

theorem InOrder.verifyCascadingFields : verifyCascadingFields C c header fakeDiff number [] = .ok () := by
  have hparent : ([] : List Header).getLast?.or (c.getHeader header.parentHash (number - 1)) =
      some parent := h.getParent
  rw [Congress.VerifyHeader.verifyCascadingFields, if_neg h.number_ne]
  simp only [hparent, h.parentNumber, h.parentHash, h.verifyFork, h.verifySeal fakeDiff, bind,
    Except.bind, Except.mapError, ne_eq, not_true_eq_false, or_self, if_false,
    UInt64.not_lt.mpr h.time, UInt64.not_lt.mpr h.gasUsed]

theorem InOrder.verifyHeader_iff : verifyHeader C c header fakeDiff now [] = .ok () ↔
      ¬ (c.chainConfig.eip150Block = header.number ∧ c.chainConfig.eip150Hash ≠ zeros 32 ∧
        c.chainConfig.eip150Hash ≠ header.hash C) := by
  obtain ⟨turn, _, hdiff⟩ := h.difficulty
  have hnumber := h.number
  rw [numberU64] at hnumber
  cases hn : header.number with
  | none =>
    rw [hn] at hnumber
    cases hnumber
  | some n =>
    rw [hn] at hnumber
    obtain rfl := ok.inj hnumber
    have hcascade := h.verifyCascadingFields fakeDiff
    have hrest : verifyHeader C c header fakeDiff now [] = verifyForkHashes C c header n := by
      simp only [verifyHeader, hn, UInt64.not_lt.mpr h.clock, h.verifyExtra, h.mixDigest, h.uncleHash,
        hdiff, UInt64.not_lt.mpr h.gasLimit_le, hcascade, bind, bind, ne_eq,
        not_true_eq_false, if_false, reduceCtorEq, and_false]
      cases verifyForkHashes C c header n <;> rfl
    rw [hrest, verifyForkHashes]
    split
    next heip => exact iff_of_false (by simp) (not_not.mpr heip)
    next heip => exact iff_of_true rfl heip

end

/-- A header that a sealing node has built, prepared, assembled and sealed passes verification by
every node with the same chain, unless the configuration fixes another hash for its number. -/
theorem sealed_verifies_iff {K : Set Header} {genesis : Header} {hs : List Header}
    (hinj : Set.InjOn (Header.hash C) K) (hc : HeaderChain C genesis hs)
    (hk : ∀ h ∈ genesis :: hs, h ∈ K) (hnumber : (tip genesis hs).number = some (hs.length : ℤ))
    (hlow : minGasLimit ≤ (tip genesis hs).gasLimit) (hhigh : (tip genesis hs).gasLimit ≤ maxGasLimit)
    (sealer : Peer C ω Γ Δ) (hsealer : sealer.Has K genesis hs)
    (verifier : Peer C ω' Γ' Δ') (hverifier : verifier.Has K genesis hs)
    (hconfig : verifier.posa.chainConfig = sealer.posa.chainConfig)
    (hdao : sealer.posa.chainConfig.daoForkBlock = none)
    (set : Settings) (hceil : set.gasCeil ≤ maxGasLimit) (timestamp : Int64) (now : UInt64)
    {header : Header} (hwork : commitNewWork C sealer.posa set (tip genesis hs) timestamp now = some header)
    (root : Hash) {gasUsed : UInt64} (hgas : gasUsed ≤ header.gasLimit) (hasher : TrieHasher)
    (txs : List Transaction) (receipts : List Receipt) (signFn : Address → Bytes → Option Bytes)
    {sealed : Header}
    (hseal : sealBlock sealer.posa.config sealer.posa.snapshot sealer.posa.validator signFn
      (assembled C header root gasUsed hasher txs receipts) txs.length = .ok (.block sealed))
    (hsig : ecrecover C sealed = .ok sealer.posa.validator)
    (clock : UInt64) (hclock : sealed.time ≤ clock) (fakeDiff : Bool) :
    verifyHeader C verifier.posa sealed fakeDiff clock [] = .ok () ↔
      ¬ (verifier.posa.chainConfig.eip150Block = sealed.number ∧
        verifier.posa.chainConfig.eip150Hash ≠ zeros 32 ∧
        verifier.posa.chainConfig.eip150Hash ≠ sealed.hash C) := by
  have hcfg := config_of_chainConfig hconfig
  obtain ⟨s, turn, validators, hfrom, hvals, hp⟩ := hsealer.prepared hinj hc hk hnumber hdao hwork
  obtain ⟨number, s', sighash, hn, hne, hsnap, hmem, hwait, hsealed⟩ := sealBlock_eq_block hseal
  have hkeep : Keeps C header sealed :=
    hsealed ▸ keeps_sealed header root gasUsed hasher txs receipts sighash
  have hnum : header.number = some ((hs.length : ℤ) + 1) := by
    rw [hp.number, newWorkHeader_number, hnumber]
    rfl
  have hhash : header.parentHash = (tip genesis hs).hash C := by
    rw [hp.parentHash, newWorkHeader_parentHash]
  have hn' : numberU64 sealed = .ok number := by
    rw [hsealed]
    exact hn
  have hnext : number = UInt64.ofNat (hs.length + 1) := by
    rw [numberU64, hkeep.number, hnum] at hn'
    exact (ok.inj hn').symm
  subst hnext
  have hpred : UInt64.ofNat (hs.length + 1) - 1 = UInt64.ofNat hs.length := ofNat_succ_sub_one _
  -- the sealer looks at the snapshot of the head once more
  change sealer.posa.snapshot _ header.parentHash = .ok s' at hsnap
  rw [hpred, hhash, hsealer.snapshot hinj hc hk, hfrom] at hsnap
  obtain rfl := ok.inj hsnap
  have hcoin := hkeep.coinbase.trans hp.coinbase
  have hlimit : sealed.gasLimit = calcGasLimit (tip genesis hs).gasLimit set.gasCeil := by
    rw [hkeep.gasLimit, hp.gasLimit, newWorkHeader_gasLimit]
  have hlimits := verifyGaslimit_calcGasLimit hlow hhigh hceil
  have hturn := hp.turn
  rw [fromGenesis_number hc.length_lt hfrom, ← UInt64.ofNat_one, ← UInt64.ofNat_add] at hturn
  have horder : InOrder C verifier.posa sealed (tip genesis hs) (UInt64.ofNat (hs.length + 1)) clock s := {
    number := hn'
    number_ne := hne
    clock := hclock
    extra := by
      refine ⟨validators.length, hkeep.extra.trans hp.extra_length, fun hepoch => ?_⟩
      rw [hcfg] at hepoch
      rw [hvals hepoch]
      rfl
    mixDigest := hkeep.mixDigest.trans hp.mixDigest
    uncleHash := hkeep.uncleHash
    getParent := by
      rw [hpred, hkeep.parentHash, hhash]
      exact hverifier.getHeader
    parentNumber := by rw [hpred, hc.tip_number]
    parentHash := by rw [hkeep.parentHash, hhash]
    time := by
      rw [hcfg, hkeep.time, hp.time]
      exact le_max_time _ _
    gasUsed := by
      rw [hsealed]
      exact hgas
    gasLimit_le := hlimit ▸ hlimits.1
    gasLimit := hlimit ▸ hlimits.2
    baseFee := by
      rw [hkeep.baseFee, hp.baseFee, newWorkHeader_baseFee, hconfig, hkeep.number, hnum, hnumber]
      rfl
    snapshot := by
      rw [hpred, hkeep.parentHash, hhash, hverifier.snapshot hinj hc hk, hcfg]
      exact hfrom
    signer := hcoin ▸ hsig
    allowed := hcoin ▸ checkSigner_of_sealer hmem hwait
    difficulty := by
      refine ⟨turn, hcoin ▸ hturn, ?_⟩
      rw [hkeep.difficulty, hp.difficulty]
      rfl }
  exact horder.verifyHeader_iff fakeDiff

end

section

def genesisReader : ChainHeaderReader where
  getHeader hash number :=
    if hash = sampleGenesisHash ∧ number = 0 then some sampleGenesis else none
  getHeaderByNumber number := if number = 0 then some sampleGenesis else none

def genesisSnapshot (number : UInt64) (hash : Hash) : Option (Outcome (Hash → Option Snapshot)
    (Hash → Option Snapshot)) :=
  snapshot sampleEngine sampleCrypto genesisReader (fun _ => none) (fun _ => none) 1 number hash []

/-- A node with the genesis block only. Its configuration may fix the hash of block one. -/
def genesisPeer (want : Hash) :
    Peer sampleCrypto Unit (Hash → Option Snapshot) (Hash → Option Snapshot) where
  posa := { samplePosa false with
    chainConfig := { istanbulConfig (some (sampleConfig 200)) with
      eip150Block := some 1
      eip150Hash := want }
    config := sampleConfig 200
    config_eq := ⟨_, rfl, rfl⟩
    getHeader := genesisReader.getHeader
    snapshot := fun number hash =>
      ((genesisSnapshot number hash).map Outcome.result).getD (.error .errUnknownAncestor) }
  engine := sampleEngine
  reader := genesisReader
  recents := fun _ => none
  db := fun _ => none
  fuel := 1
  config_eq := rfl
  getHeader_eq := rfl
  snapshot_eq number hash o ho := by
    have hsnap : genesisSnapshot number hash = some o := ho
    dsimp only
    rw [hsnap]
    rfl

theorem genesisPeer_has (want : Hash) : (genesisPeer want).Has {sampleGenesis} sampleGenesis [] := by
  refine ⟨rfl, fun i h hi => ?_, fun _ _ h => (by cases h), fun _ _ h => (by cases h), one_pos, ?_⟩
  · cases i with
    | zero =>
      cases hi
      have hget : genesisReader.getHeader (sampleGenesis.hash sampleCrypto) 0 = some sampleGenesis := by
        decide +kernel
      exact hget
    | succ i => cases hi
  intro o ho
  have hall : (genesisSnapshot 0 (sampleGenesis.hash sampleCrypto)).all (fun o => !o.trusted) = true := by
    decide +kernel
  have ho' : genesisSnapshot 0 (sampleGenesis.hash sampleCrypto) = some o := ho
  rw [ho', Option.all_some, Bool.not_eq_true'] at hall
  exact hall

def sampleSettings : Settings := ⟨30000000, Slice.empty, addressOne, true⟩

def firstDraft : Header :=
  { firstBlock.header with
    uncleHash := zeros 32
    extra := ⟨List.replicate 97 0, by decide⟩ }

def firstSeal : Bytes := firstBlock.header.extra.data.drop 32

def noHasher : TrieHasher := ⟨fun _ => zeros 32, fun _ => zeros 32⟩

def plainReceipt : Receipt :=
  ⟨0, [], 1, 0, zeros 256, [], zeros 32, zeros 20, 0, zeros 32, some 1, 0⟩

def sealFirst (want : Hash) : Except Error SealResult :=
  sealBlock (sampleConfig 200) (genesisPeer want).posa.snapshot addressOne (fun _ _ => some firstSeal)
    (assembled sampleCrypto firstDraft (zeros 32) 0 noHasher [signedSysTx] [plainReceipt]) 1

def sealedAs (header : Header) : Except Error SealResult → Bool
  | .ok (.block sealed) => decide (sealed = header)
  | _ => false

theorem of_sealedAs {header} {r} (h : sealedAs header r = true) : r = .ok (.block header) := by
  cases r with
  | error e => cases h
  | ok r =>
    cases r with
    | noTransactions => cases h
    | signedRecently => cases h
    | block sealed => rw [of_decide_eq_true h]

/-- The first block after genesis is built, sealed and accepted. -/
theorem sealed_verifies_first :
    verifyHeader sampleCrypto (genesisPeer (zeros 32)).posa firstBlock.header false 3 [] = .ok () := by
  have hinj : Set.InjOn (Header.hash sampleCrypto) {sampleGenesis} := Set.injOn_singleton _ _
  have hc : HeaderChain sampleCrypto sampleGenesis [] := .genesis (by decide)
  have hwork : commitNewWork sampleCrypto (genesisPeer (zeros 32)).posa sampleSettings
      (tip sampleGenesis []) 0 0 = some firstDraft := by
    decide +kernel
  have hgas : (0 : UInt64) ≤ firstDraft.gasLimit := by decide
  have hseal : sealFirst (zeros 32) = .ok (.block firstBlock.header) := of_sealedAs (by decide +kernel)
  refine (sealed_verifies_iff hinj hc (by simp) rfl (by decide) (by decide)
    (genesisPeer (zeros 32)) (genesisPeer_has _) (genesisPeer (zeros 32)) (genesisPeer_has _) rfl rfl
    sampleSettings (by decide) 0 0 hwork (zeros 32) hgas noHasher [signedSysTx] [plainReceipt]
    (fun _ _ => some firstSeal) hseal (by decide +kernel) 3 (by decide) false).mpr ?_
  rintro ⟨-, hne, -⟩
  exact hne rfl

/-- With another hash fixed for block one, the same block is built and sealed, and refused. -/
theorem sealed_refused_first :
    (genesisPeer (hexToHash 1)).Has {sampleGenesis} sampleGenesis [] ∧
      (genesisPeer (hexToHash 1)).posa.chainConfig.daoForkBlock = none ∧
      commitNewWork sampleCrypto (genesisPeer (hexToHash 1)).posa sampleSettings sampleGenesis 0 0 =
        some firstDraft ∧
      sealFirst (hexToHash 1) = .ok (.block firstBlock.header) ∧
      ecrecover sampleCrypto firstBlock.header = .ok addressOne ∧
      verifyHeader sampleCrypto (genesisPeer (hexToHash 1)).posa firstBlock.header false 3 [] =
        .error (.homesteadGasReprice firstBlock.hash (hexToHash 1)) := by
  refine ⟨genesisPeer_has _, rfl, by decide +kernel, of_sealedAs (by decide +kernel), by decide +kernel,
    by decide +kernel⟩

end

end Geth.Miner.NewWork
