import Geth.Congress.SealSpacing

namespace Geth.Congress.VerifySeal

open Lib.BigEndian Common.Basic Types.Block Params.Config SealHash SnapshotApply
open SealSpacing UInt64

def epochLength : UInt64 := 30000
def diffInTurn : Int := 2
def diffNoTurn : Int := 1

def engineConfig (config : CongressConfig) : CongressConfig :=
  if config.epoch = 0 then { config with epoch := epochLength } else config

/-- The entries that make the verifier refuse a signer. Below the window the
subtraction wraps to a number no entry exceeds. -/
def SeenSince (snap : Snapshot) (number : UInt64) (signer : Address) : Prop :=
  ∃ seen ∈ snap.recents.keys, snap.recents.lookup seen = some signer ∧
    number - snap.validators.limit < seen

instance (snap : Snapshot) (number : UInt64) (signer : Address) :
    Decidable (SeenSince snap number signer) :=
  inferInstanceAs (Decidable (∃ seen ∈ snap.recents.keys,
    snap.recents.lookup seen = some signer ∧ number - snap.validators.limit < seen))

/-- The authorization checks of `verifySeal`. -/
def checkSigner (snap : Snapshot) (number : UInt64) (signer : Address) : Except Error Unit :=
  if signer ∉ snap.validators.members then .error .errUnauthorizedValidator
  else if SeenSince snap number signer then .error .errRecentlySigned
  else .ok ()

def checkDifficulty (snap : Snapshot) (number : UInt64) (signer : Address) (difficulty : BigPtr) :
    Except Error Unit := do
  let turn ← inturn snap number signer
  match difficulty with
  | none => .error (.panicked .nilPointer)
  | some d =>
    if d ≠ (if turn then diffInTurn else diffNoTurn) then .error .errWrongDifficulty else .ok ()

def verifySeal (C : Crypto) (fakeDiff : Bool) (snapshot : UInt64 → Hash → Except Error Snapshot)
    (header : Header) : Except Error Unit := do
  let number ← numberU64 header
  if number = 0 then .error .errUnknownBlock
  else do
    let snap ← snapshot (number - 1) header.parentHash
    let signer ← ecrecover C header
    if signer ≠ header.coinbase then .error .errInvalidCoinbase
    else do
      checkSigner snap number signer
      if fakeDiff then .ok () else checkDifficulty snap number signer header.difficulty

def MustWait (snap : Snapshot) (number : UInt64) (val : Address) : Prop :=
  ∃ seen ∈ snap.recents.keys, snap.recents.lookup seen = some val ∧
    (number < snap.validators.limit ∨ number - snap.validators.limit < seen)

instance (snap : Snapshot) (number : UInt64) (val : Address) : Decidable (MustWait snap number val) :=
  inferInstanceAs (Decidable (∃ seen ∈ snap.recents.keys, snap.recents.lookup seen = some val ∧
    (number < snap.validators.limit ∨ number - snap.validators.limit < seen)))

/-- The authorization checks of `Seal`; `false` means to wait for others. -/
def sealAllowed (snap : Snapshot) (number : UInt64) (val : Address) : Except Error Bool :=
  if val ∉ snap.validators.members then .error .errUnauthorizedValidator
  else if MustWait snap number val then .ok false
  else .ok true

inductive SealResult where
  | noTransactions
  | signedRecently
  | block (header : Header)

/-- `copy(header.Extra[len(header.Extra)-extraSeal:], sighash)`. -/
def withSeal (header : Header) (sighash : Bytes) : Header :=
  let cut := header.extra.data.length - extraSeal
  let sig := (header.extra.data.drop cut).length
  { header with
    extra := ⟨header.extra.data.take cut ++
        (sighash.take sig ++ (header.extra.data.drop cut).drop sighash.length), by
      have h := header.extra.len_lt
      simp only [sig, List.length_append, List.length_take, List.length_drop]
      omega⟩ }

def sealBlock (config : CongressConfig) (snapshot : UInt64 → Hash → Except Error Snapshot)
    (val : Address) (signFn : Address → Bytes → Option Bytes) (header : Header) (txs : Nat) :
    Except Error SealResult := do
  let header := copyHeader header
  let number ← numberU64 header
  if number = 0 then .error .errUnknownBlock
  else if config.period = 0 ∧ txs = 0 then .ok .noTransactions
  else do
    let snap ← snapshot (number - 1) header.parentHash
    if ← sealAllowed snap number val then do
      let message ← (congressRLP header).mapError .panicked
      match signFn val message with
      | none => .error .errSignFn
      | some sighash => .ok (.block (withSeal header sighash))
    else .ok .signedRecently

/-- The announcement of an epoch block can be read: at least 78 bytes are
there, which is nineteen short of vanity and seal. -/
theorem extraValidators_isOk (extra : Slice UInt8) :
    (∃ vs, extraValidators extra = .ok vs) ↔ 78 ≤ extra.data.length := by
  have hcount : extraCount extra < 0 ↔ extra.data.length < 78 := by
    have hsign : Int.sign 20 = 1 := rfl
    simp only [extraCount, extraVanity, extraSeal, addressLength, Nat.cast_ofNat, Int.tdiv_eq_ediv, hsign]
    split <;> omega
  by_cases h : extraCount extra < 0
  · have hlen := hcount.mp h
    simp only [extraValidators, h, if_true, reduceCtorEq, exists_false, false_iff]
    omega
  have hlen := mt hcount.mpr h
  simp only [extraValidators, h, if_false, Except.ok.injEq, exists_eq', true_iff]
  omega

theorem engineConfig_epoch (config : CongressConfig) : (engineConfig config).epoch ≠ 0 := by
  by_cases h : config.epoch = 0
  · simp [engineConfig, h, epochLength]
  · simp [engineConfig, h]

variable {v : Address} {s : Snapshot} {snap : Snapshot} {number : UInt64}

theorem checkSigner_eq_ok :
    checkSigner snap number v = .ok () ↔ v ∈ snap.validators.members ∧ ¬ SeenSince snap number v := by
  by_cases hv : v ∈ snap.validators.members
  · by_cases hr : SeenSince snap number v <;> simp [checkSigner, hv, hr]
  · simp [checkSigner, hv]

theorem sealAllowed_eq_true : sealAllowed snap number v = .ok true ↔
      v ∈ snap.validators.members ∧ ¬ MustWait snap number v := by
  by_cases hv : v ∈ snap.validators.members
  · by_cases hr : MustWait snap number v <;> simp [sealAllowed, hv, hr]
  · simp [sealAllowed, hv]

section

variable (hs : (denote s).Spacing) (hlt : s.number.toNat + 1 < 2 ^ 64)
include hs hlt

theorem mustWait_iff_barred : MustWait s (s.number + 1) v ↔ Barred s v := by
  have hspaced := spacing_iff.mp hs
  have hnum := toNat_succ hlt
  rw [Barred, signedRecently_iff]
  simp only [lookup_dropOldest]
  constructor
  · rintro ⟨seen, _, hl, hlate⟩
    refine ⟨seen, ?_, hl⟩
    rintro ⟨hle, rfl⟩
    rcases hlate with hlate | hlate
    · exact absurd hle (UInt64.not_le.mpr hlate)
    · exact UInt64.lt_irrefl _ hlate
  rintro ⟨seen, hne, hl⟩
  refine ⟨seen, ?_, hl, ?_⟩
  · rw [Finmap.mem_keys]
    exact Finmap.mem_of_lookup_eq_some hl
  have hw := (hspaced.window seen.toNat v (view_eq_some.mpr ⟨seen, rfl, hl⟩)).1
  by_cases hle : s.validators.limit ≤ s.number + 1
  · right
    have hsub := UInt64.toNat_sub_of_le _ _ hle
    have hne' : seen.toNat ≠ (s.number + 1 - s.validators.limit).toNat :=
      fun he => hne ⟨hle, UInt64.toNat_inj.mp he⟩
    rw [lt_iff_toNat_lt]
    rw [le_iff_toNat_le] at hle
    omega
  · exact .inl (UInt64.not_le.mp hle)

/-- The verifier looks at the same entries as the sealer once the chain is as
long as the window. On a shorter chain it finds none. -/
theorem seenSince_iff :
    SeenSince s (s.number + 1) v ↔ s.validators.limit ≤ s.number + 1 ∧ MustWait s (s.number + 1) v := by
  have hspaced := spacing_iff.mp hs
  have hnum := toNat_succ hlt
  have hlim := (limit_toNat s.validators).2
  constructor
  · rintro ⟨seen, hk, hl, hlate⟩
    refine ⟨?_, seen, hk, hl, .inr hlate⟩
    have hw := (hspaced.window seen.toNat v (view_eq_some.mpr ⟨seen, rfl, hl⟩)).2
    rw [lt_iff_toNat_lt, UInt64.toNat_sub] at hlate
    rw [le_iff_toNat_le]
    omega
  rintro ⟨hle, seen, hk, hl, hlate⟩
  refine ⟨seen, hk, hl, ?_⟩
  rcases hlate with hlate | hlate
  · exact absurd hle (UInt64.not_le.mpr hlate)
  · exact hlate

end

theorem apply_next_iff {C} {h} (hepoch : s.config.epoch ≠ 0) (hn : numberU64 h = .ok (s.number + 1))
    (hv : ecrecover C h = .ok v) :
    (∃ s', apply C s [h] = .ok s') ↔ v ∈ s.validators.members ∧ ¬ Barred s v ∧
      (s.IsEpoch (s.number + 1) → 78 ≤ h.extra.data.length) := by
  rw [← extraValidators_isOk]
  constructor
  · rintro ⟨s', ha⟩
    obtain ⟨_, t, ht, _⟩ := applyOne_eq_ok.mp ha
    obtain ⟨n, w, s₁, hn', hw, hrec, hck⟩ := applyHeader_eq_ok.mp ht
    rw [hn] at hn'
    rw [hv] at hw
    cases hn'
    cases hw
    obtain ⟨hmem, hbar, rfl⟩ := recordSigner_eq_ok.mp hrec
    refine ⟨hmem, hbar, fun he => ?_⟩
    obtain ⟨_, ⟨hne, _⟩ | ⟨_, vs, hvs, _⟩⟩ := checkpoint_eq_ok.mp hck
    · exact absurd he hne
    · exact ⟨vs, hvs⟩
  rintro ⟨hmem, hbar, hextra⟩
  have hrec := recordSigner_eq_ok.mpr ⟨hmem, hbar, rfl⟩
  have hstep (t : Snapshot) (hck : checkpoint _ (s.number + 1) h = .ok t) : ∃ s', apply C s [h] = .ok s' :=
    ⟨_, applyOne_eq_ok.mpr ⟨hn, t, applyHeader_eq_ok.mpr ⟨_, v, _, hn, hv, hrec, hck⟩, rfl⟩⟩
  by_cases he : s.IsEpoch (s.number + 1)
  · obtain ⟨vs, hvs⟩ := hextra he
    exact hstep _ (checkpoint_eq_ok.mpr ⟨.inr hepoch, .inr ⟨he, vs, hvs, rfl⟩⟩)
  · exact hstep _ (checkpoint_eq_ok.mpr ⟨.inr hepoch, .inl ⟨he, rfl⟩⟩)

theorem barred_of_short (h : s.number + 1 < s.validators.limit) (v : Address) :
    Barred s v ↔ SignedRecently s.recents v := by
  rw [Barred, dropOldest, if_neg (UInt64.not_le.mpr h)]

/-- The verifier, the snapshot and the sealer decide alike about the signer of
the next block, unless the signer is a validator that has signed a block of a
chain still shorter than the window, which only the verifier lets pass, or may
seal an epoch block whose announcement is cut short. -/
theorem seal_checks_agree {C : Crypto} {config : CongressConfig} {number : UInt64} {hash : Hash}
    {validators : Slice Address} {hs : List Header} {s : Snapshot} {h : Header}
    (hr : Applied C (newSnapshot (engineConfig config) number hash validators) hs s)
    (hlt : number.toNat + hs.length + 1 < 2 ^ 64)
    (hn : numberU64 h = .ok (s.number + 1)) (hv : ecrecover C h = .ok h.coinbase) :
    ((checkSigner s (s.number + 1) h.coinbase = .ok () ↔ ∃ s', apply C s [h] = .ok s') ∧
      (checkSigner s (s.number + 1) h.coinbase = .ok () ↔
        sealAllowed s (s.number + 1) h.coinbase = .ok true)) ↔
    ¬ (h.coinbase ∈ s.validators.members ∧
      ((s.number + 1 < s.validators.limit ∧ SignedRecently s.recents h.coinbase) ∨
        (¬ Barred s h.coinbase ∧ s.IsEpoch (s.number + 1) ∧ h.extra.data.length < 78))) := by
  have hreached : Reached C number hs s :=
    reached_replay rfl hs (by exact Nat.lt_of_succ_lt hlt) hr.replay
  have hnext : s.number.toNat + 1 < 2 ^ 64 := by rw [hreached.number]; exact hlt
  have hepoch : s.config.epoch ≠ 0 := by
    rw [replay_config hr.replay]
    exact engineConfig_epoch config
  rw [checkSigner_eq_ok, sealAllowed_eq_true, apply_next_iff hepoch hn hv,
    seenSince_iff hreached.spacing hnext, mustWait_iff_barred hreached.spacing hnext, ← not_lt]
  by_cases hshort : s.number + 1 < s.validators.limit
  · rw [← barred_of_short hshort]
    by_cases hbar : Barred s h.coinbase <;> simp [hshort, hbar]
  · by_cases hbar : Barred s h.coinbase <;> simp [hshort, hbar]

def fiveValidators : Slice Address :=
  ⟨[addressOne, addressTwo, hexToAddress 3, hexToAddress 4, hexToAddress 5], by decide⟩

/-- Another validator seals the second block. -/
theorem seal_checks_agree_second : ∃ s,
    Applied (recordedCrypto sampleKeys [blockOne, blockTwo])
      (newSnapshot (engineConfig (sampleConfig 200)) 0 (zeros 32) fiveValidators)
      [blockOne.header] s ∧
    (checkSigner s (s.number + 1) addressTwo = .ok () ↔
      ∃ s', apply (recordedCrypto sampleKeys [blockOne, blockTwo]) s [blockTwo.header] = .ok s') ∧
    (checkSigner s (s.number + 1) addressTwo = .ok () ↔
      sealAllowed s (s.number + 1) addressTwo = .ok true) := by
  obtain ⟨s, hs, hp⟩ := exists_applied (recordedCrypto sampleKeys [blockOne, blockTwo])
    (newSnapshot (engineConfig (sampleConfig 200)) 0 (zeros 32) fiveValidators) [blockOne.header]
    (fun s => decide (s.number = 1 ∧ ¬ SignedRecently s.recents addressTwo)) (by decide +kernel)
  obtain ⟨hnum, hsigned⟩ := of_decide_eq_true hp
  refine ⟨s, hs, (seal_checks_agree (h := blockTwo.header) hs (by decide) ?_ ?_).mpr ?_⟩
  · rw [hnum]
    decide
  · decide +kernel
  rintro ⟨_, ⟨_, hrecent⟩ | ⟨_, _, hlen⟩⟩
  · exact hsigned hrecent
  · exact absurd hlen (by decide)

def blockTwoAgain : Recorded where
  header := sampleSealed 2 addressOne
    ⟨List.replicate 32 0 ++ (ofNat 65 0xdc11a9fd6360d0eff42eb9d97f217c38280809f1c88e24987ece12613d29217b49e01a23593cacc4e92d8ec4bcbaf1d4faa36f4683850c6945cc200924edbd7900).toList, by simp⟩
  sealHash := hexToHash 0xc1e1af799a4dca7f7f7918d2c90a8a9ad197d47386cc7d63cba7f2814f1235d4
  hash := hexToHash 0xf875daf50b528f6d6e7ac28ad9e581be99c7894c027dd2cf91c818e4ce3f9a68
  pub := pubOne

/-- With five validators the verifier accepts the same signer for the first two
blocks, the snapshot refuses the second one and the sealer would have waited. -/
theorem checkSigner_accepts_again : ∃ s,
    Applied (recordedCrypto sampleKeys [blockOne, blockTwoAgain])
      (newSnapshot (engineConfig (sampleConfig 200)) 0 (zeros 32) fiveValidators)
      [blockOne.header] s ∧
    numberU64 blockTwoAgain.header = .ok (s.number + 1) ∧
    ecrecover (recordedCrypto sampleKeys [blockOne, blockTwoAgain]) blockTwoAgain.header =
      .ok blockTwoAgain.header.coinbase ∧
    checkSigner s (s.number + 1) addressOne = .ok () ∧
    sealAllowed s (s.number + 1) addressOne = .ok false ∧
    apply (recordedCrypto sampleKeys [blockOne, blockTwoAgain]) s [blockTwoAgain.header] =
      .error .errRecentlySigned := by
  obtain ⟨s, hs, hp⟩ := exists_applied (recordedCrypto sampleKeys [blockOne, blockTwoAgain])
    (newSnapshot (engineConfig (sampleConfig 200)) 0 (zeros 32) fiveValidators) [blockOne.header]
    (fun s => decide (s.number = 1 ∧ checkSigner s (s.number + 1) addressOne = .ok () ∧
      sealAllowed s (s.number + 1) addressOne = .ok false ∧
      apply (recordedCrypto sampleKeys [blockOne, blockTwoAgain]) s [blockTwoAgain.header] =
        .error .errRecentlySigned)) (by decide +kernel)
  obtain ⟨hnum, hsigner, hseal, happly⟩ := of_decide_eq_true hp
  refine ⟨s, hs, ?_, by decide +kernel, hsigner, hseal, happly⟩
  rw [hnum]
  decide

end Geth.Congress.VerifySeal
