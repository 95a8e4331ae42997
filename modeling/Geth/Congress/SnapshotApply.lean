import Geth.Congress.SealHash
import Geth.Params.Config
import Mathlib.Data.Finmap
import Mathlib.Data.Finset.Sort

namespace Geth.Congress.SnapshotApply

open Lib.BigEndian Common.Basic Types.Block Params.Config SealHash List UInt64

inductive Error where
  | errUnknownBlock | errMissingSignature | errInvalidSignature | errInvalidVotingChain
  | errUnauthorizedValidator | errRecentlySigned | errInvalidCoinbase | errWrongDifficulty
  | errSignFn | errUnknownAncestor | errDatabase
  | panicked (p : Panic)
  deriving DecidableEq, Repr

/-- The key set of a Go map with address keys. Its size is an `int`. -/
@[ext] structure ValidatorSet where
  members : Finset Address
  len_lt : members.card < 2 ^ 63
  deriving DecidableEq

abbrev Recents := Finmap (fun _ : UInt64 => Address)

/-- The authorization state at a block. The signature cache is not part of
the model: it only remembers results of `ecrecover`. -/
structure Snapshot where
  config : CongressConfig
  number : UInt64
  hash : Hash
  validators : ValidatorSet
  recents : Recents
  deriving DecidableEq

def ValidatorSet.ofSlice (vs : Slice Address) : ValidatorSet :=
  ⟨vs.data.toFinset, lt_of_le_of_lt (List.toFinset_card_le vs.data) vs.len_lt⟩

/-- How many consecutive blocks bar a validator from signing again. -/
def ValidatorSet.limit (vs : ValidatorSet) : UInt64 := UInt64.ofNat (vs.members.card / 2 + 1)

def newSnapshot (config : CongressConfig) (number : UInt64) (hash : Hash) (validators : Slice Address) :
    Snapshot :=
  ⟨config, number, hash, ValidatorSet.ofSlice validators, ∅⟩

def ecrecover (C : Crypto) (header : Header) : Except Error Address :=
  if header.extra.data.length < extraSeal then .error .errMissingSignature
  else do
    let hash ← (sealHash C header).mapError .panicked
    match C.recoverPubkey hash (header.extra.data.drop (header.extra.data.length - extraSeal)) with
    | none => .error .errInvalidSignature
    | some pub => .ok (C.pubkeyToAddress pub)

/-- `header.Number.Uint64()`, which dereferences the pointer. -/
def numberU64 (header : Header) : Except Error UInt64 :=
  match header.number with
  | none => .error (.panicked .nilPointer)
  | some n => .ok (bigUint64 n)

def addressLength : Nat := 20

/-- The number of addresses between vanity and seal. Go divides towards zero
and refuses to make a slice of negative length. -/
def extraCount (extra : Slice UInt8) : Int :=
  ((extra.data.length : Int) - extraVanity - extraSeal).tdiv addressLength

theorem extraCount_lt (extra : Slice UInt8) : (extraCount extra).toNat < 2 ^ 63 := by
  have hlen := extra.len_lt
  have hdiv : extraCount extra ≤ (extra.data.length : Int) := by
    unfold extraCount
    have h := Int.tdiv_le_self (a := (extra.data.length : Int)) (addressLength : Int) (by omega)
    have hmono : ((extra.data.length : Int) - extraVanity - extraSeal).tdiv addressLength ≤
        (extra.data.length : Int).tdiv addressLength :=
      Int.tdiv_le_tdiv (by decide) (by simp only [extraVanity, extraSeal]; omega)
    exact hmono.trans h
  omega

def extraValidators (extra : Slice UInt8) : Except Error (Slice Address) :=
  if extraCount extra < 0 then .error (.panicked .makeSliceLen)
  else .ok ⟨(List.range (extraCount extra).toNat).map
    (fun i => copyInto 20 (extra.data.drop (extraVanity + i * addressLength))), by
      simpa using extraCount_lt extra⟩

/-- Forget the block that leaves the window when `number` is sealed. -/
def dropOldest (recents : Recents) (number limit : UInt64) : Recents :=
  if limit ≤ number then recents.erase (number - limit) else recents

def SignedRecently (recents : Recents) (validator : Address) : Prop :=
  ∃ k ∈ recents.keys, recents.lookup k = some validator

instance (recents : Recents) (validator : Address) : Decidable (SignedRecently recents validator) :=
  inferInstanceAs (Decidable (∃ k ∈ recents.keys, recents.lookup k = some validator))

/-- Check the signer of block `number` and record it. -/
def recordSigner (snap : Snapshot) (number : UInt64) (validator : Address) : Except Error Snapshot :=
  let recents := dropOldest snap.recents number snap.validators.limit
  if validator ∉ snap.validators.members then .error .errUnauthorizedValidator
  else if SignedRecently recents validator then .error .errRecentlySigned
  else .ok { snap with recents := recents.insert number validator }

/-- The loop that forgets blocks outside a smaller window. The subtraction
wraps below zero, where no block is recorded. -/
def pruneRecents (recents : Recents) (number limit : UInt64) : Nat → Recents
  | 0 => recents
  | i + 1 => (pruneRecents recents number limit i).erase (number - limit - UInt64.ofNat i)

def adoptValidators (snap : Snapshot) (number : UInt64) (next : ValidatorSet) : Snapshot :=
  { snap with
    validators := next
    recents := pruneRecents snap.recents number next.limit
      (snap.validators.members.card / 2 - next.members.card / 2) }

/-- At the first block of an epoch the header lists the next validators. -/
def checkpoint (snap : Snapshot) (number : UInt64) (header : Header) : Except Error Snapshot :=
  if number = 0 then .ok snap
  else if snap.config.epoch = 0 then .error (.panicked .divideByZero)
  else if number % snap.config.epoch ≠ 0 then .ok snap
  else do
    let validators ← extraValidators header.extra
    return adoptValidators snap number (ValidatorSet.ofSlice validators)

def applyHeader (C : Crypto) (snap : Snapshot) (header : Header) : Except Error Snapshot := do
  let number ← numberU64 header
  let validator ← ecrecover C header
  let snap ← recordSigner snap number validator
  checkpoint snap number header

def checkContiguous : List Header → Except Error Unit
  | h₁ :: h₂ :: rest => do
    let n₂ ← numberU64 h₂
    let n₁ ← numberU64 h₁
    if n₂ ≠ n₁ + 1 then .error .errInvalidVotingChain else checkContiguous (h₂ :: rest)
  | _ => .ok ()

def apply (C : Crypto) (s : Snapshot) : List Header → Except Error Snapshot
  | [] => .ok s
  | first :: rest => do
    checkContiguous (first :: rest)
    let n ← numberU64 first
    if n ≠ s.number + 1 then .error .errInvalidVotingChain
    else do
      let snap ← (first :: rest).foldlM (applyHeader C) s
      return { snap with
        number := snap.number + UInt64.ofNat (rest.length + 1)
        hash := ((first :: rest).getLast (List.cons_ne_nil first rest)).hash C }

def Snapshot.sorted (s : Snapshot) : List Address := s.validators.members.sort

def inturn (s : Snapshot) (number : UInt64) (validator : Address) : Except Error Bool :=
  if s.sorted.length = 0 then .error (.panicked .divideByZero)
  else .ok (decide (number % UInt64.ofNat s.sorted.length = UInt64.ofNat (s.sorted.idxOf validator)))

def applyOne (C : Crypto) (s : Snapshot) (header : Header) : Except Error Snapshot :=
  apply C s [header]

def replay (C : Crypto) (s : Snapshot) (headers : List Header) : Except Error Snapshot :=
  headers.foldlM (applyOne C) s

/-- The same authorization state, recorded for another block. -/
def Snapshot.stamp (s : Snapshot) (number : UInt64) (hash : Hash) : Snapshot :=
  { s with number := number, hash := hash }

variable {C : Crypto} {s s' : Snapshot} {h : Header} {n : UInt64} {hs : List Header}
    {rest hs₁ hs₂ : List Header}

theorem applyHeader_eq_ok :
    applyHeader C s h = .ok s' ↔ ∃ n v s₁, numberU64 h = .ok n ∧ ecrecover C h = .ok v ∧
      recordSigner s n v = .ok s₁ ∧ checkpoint s₁ n h = .ok s' := by
  simp only [applyHeader, bind_eq_ok]
  constructor
  · rintro ⟨n, hn, v, hv, s₁, hs, hc⟩
    exact ⟨n, v, s₁, hn, hv, hs, hc⟩
  rintro ⟨n, v, s₁, hn, hv, hs, hc⟩
  exact ⟨n, hn, v, hv, s₁, hs, hc⟩

theorem recordSigner_eq_ok {v} : recordSigner s n v = .ok s' ↔ v ∈ s.validators.members ∧
      ¬ SignedRecently (dropOldest s.recents n s.validators.limit) v ∧
      s' = { s with recents := (dropOldest s.recents n s.validators.limit).insert n v } := by
  simp only [recordSigner]
  by_cases hv : v ∈ s.validators.members
  · by_cases hr : SignedRecently (dropOldest s.recents n s.validators.limit) v
    · simp [hv, hr]
    · simp [hv, hr, eq_comm]
  · simp [hv]

def Snapshot.IsEpoch (s : Snapshot) (n : UInt64) : Prop := n ≠ 0 ∧ n % s.config.epoch = 0

instance (s : Snapshot) (n : UInt64) : Decidable (s.IsEpoch n) :=
  inferInstanceAs (Decidable (n ≠ 0 ∧ n % s.config.epoch = 0))

theorem checkpoint_eq_ok : checkpoint s n h = .ok s' ↔ (n = 0 ∨ s.config.epoch ≠ 0) ∧
      ((¬ s.IsEpoch n ∧ s' = s) ∨ (s.IsEpoch n ∧ ∃ vs, extraValidators h.extra = .ok vs ∧
        s' = adoptValidators s n (ValidatorSet.ofSlice vs))) := by
  simp only [checkpoint, Snapshot.IsEpoch]
  by_cases hn : n = 0
  · simp [hn, eq_comm]
  by_cases he : s.config.epoch = 0
  · simp [hn, he]
  by_cases hm : n % s.config.epoch = 0
  · simp only [hn, he, hm, ne_eq, not_true_eq_false, if_false, bind_eq_ok]
    simp [pure, Except.pure, eq_comm]
  · simp [hn, he, hm, eq_comm]

theorem recordSigner_stamp (s : Snapshot) (number : UInt64) (hash : Hash) (n : UInt64) (v : Address) :
    recordSigner (s.stamp number hash) n v = (recordSigner s n v).map (fun t => t.stamp number hash) := by
  simp only [recordSigner, Snapshot.stamp]
  by_cases hv : v ∈ s.validators.members
  · by_cases hr : SignedRecently (dropOldest s.recents n s.validators.limit) v <;>
      simp [hv, hr, Except.map]
  · simp [hv, Except.map]

theorem checkpoint_stamp (s : Snapshot) (number : UInt64) (hash : Hash) (n : UInt64) (h : Header) :
    checkpoint (s.stamp number hash) n h = (checkpoint s n h).map (fun t => t.stamp number hash) := by
  simp only [checkpoint, Snapshot.stamp]
  by_cases hn : n = 0
  · simp [hn, Except.map]
  by_cases he : s.config.epoch = 0
  · simp [hn, he, Except.map]
  by_cases hm : n % s.config.epoch = 0
  · simp only [hn, he, hm, ne_eq, not_true_eq_false, if_false]
    cases extraValidators h.extra <;> rfl
  · simp [hn, he, hm, Except.map]

theorem applyHeader_stamp (C : Crypto) (s : Snapshot) (number : UInt64) (hash : Hash) (h : Header) :
    applyHeader C (s.stamp number hash) h = (applyHeader C s h).map (fun t => t.stamp number hash) := by
  simp only [applyHeader]
  cases numberU64 h with
  | error e => rfl
  | ok n =>
    cases ecrecover C h with
    | error e => rfl
    | ok v =>
      simp only [bind, Except.bind, recordSigner_stamp]
      cases recordSigner s n v with
      | error e => rfl
      | ok s₁ => exact checkpoint_stamp s₁ number hash n h

theorem foldlM_applyHeader_stamp (C : Crypto) (s : Snapshot) (number : UInt64) (hash : Hash)
    (hs : List Header) : hs.foldlM (applyHeader C) (s.stamp number hash) =
      (hs.foldlM (applyHeader C) s).map (fun t => t.stamp number hash) := by
  induction hs generalizing s with
  | nil => rfl
  | cons h hs ih =>
    simp only [foldlM_cons, applyHeader_stamp]
    cases applyHeader C s h with
    | error e => rfl
    | ok s₁ => exact ih s₁

theorem applyHeader_number
    (ha : applyHeader C s h = .ok s') : s'.number = s.number ∧ s'.config = s.config := by
  obtain ⟨n, v, s₁, _, _, hs, hc⟩ := applyHeader_eq_ok.mp ha
  obtain ⟨_, _, rfl⟩ := recordSigner_eq_ok.mp hs
  obtain ⟨_, ⟨_, rfl⟩ | ⟨_, vs, _, rfl⟩⟩ := checkpoint_eq_ok.mp hc <;> exact ⟨rfl, rfl⟩

theorem foldlM_applyHeader_number (ha : hs.foldlM (applyHeader C) s = .ok s') : s'.number = s.number := by
  induction hs generalizing s with
  | nil => cases ha; rfl
  | cons h hs ih =>
    rw [foldlM_cons, bind_eq_ok] at ha
    obtain ⟨s₁, h₁, ha⟩ := ha
    rw [ih ha, (applyHeader_number h₁).1]

theorem applyOne_eq_ok : applyOne C s h = .ok s' ↔ numberU64 h = .ok (s.number + 1) ∧
      ∃ t, applyHeader C s h = .ok t ∧ s' = t.stamp (s.number + 1) (h.hash C) := by
  have hfold : [h].foldlM (applyHeader C) s = applyHeader C s h := by
    rw [foldlM_cons]
    cases applyHeader C s h <;> rfl
  simp only [applyOne, apply, checkContiguous, hfold]
  cases hn : numberU64 h with
  | error e => simp [bind, Except.bind]
  | ok n =>
    by_cases hne : n = s.number + 1
    · cases ha : applyHeader C s h with
      | error e => simp [hne, bind, Except.bind]
      | ok t =>
        have hnum := (applyHeader_number ha).1
        simp [hne, bind, Except.bind, pure, Except.pure, Snapshot.stamp, hnum, eq_comm]
    · simp [hne, bind, Except.bind]

theorem apply_eq_ok {first} :
    apply C s (first :: rest) = .ok s' ↔ checkContiguous (first :: rest) = .ok () ∧
      numberU64 first = .ok (s.number + 1) ∧ ∃ t, (first :: rest).foldlM (applyHeader C) s = .ok t ∧
        s' = t.stamp (s.number + UInt64.ofNat (rest.length + 1))
          (((first :: rest).getLast (List.cons_ne_nil first rest)).hash C) := by
  simp only [apply]
  cases hc : checkContiguous (first :: rest) with
  | error e => simp [bind, Except.bind]
  | ok u =>
    cases hn : numberU64 first with
    | error e => simp [bind, Except.bind]
    | ok n =>
      by_cases hne : n = s.number + 1
      · cases ha : (first :: rest).foldlM (applyHeader C) s with
        | error e => simp [hne, bind, Except.bind]
        | ok t =>
          have hnum := foldlM_applyHeader_number ha
          simp [hne, bind, Except.bind, pure, Except.pure, Snapshot.stamp, hnum, eq_comm]
      · simp [hne, bind, Except.bind]

theorem checkContiguous_cons {h₁ h₂}
    (hn : numberU64 h₁ = .ok n) : checkContiguous (h₁ :: h₂ :: rest) = .ok () ↔
      numberU64 h₂ = .ok (n + 1) ∧ checkContiguous (h₂ :: rest) = .ok () := by
  rw [checkContiguous, hn]
  cases numberU64 h₂ with
  | error e => simp [bind, Except.bind]
  | ok n₂ => by_cases hne : n₂ = n + 1 <;> simp [hne, bind, Except.bind]

theorem apply_cons :
    apply C s (h :: hs) = .ok s' ↔ ∃ s₁, applyOne C s h = .ok s₁ ∧ apply C s₁ hs = .ok s' := by
  cases hs with
  | nil => simp [applyOne, apply]
  | cons h₂ rest =>
    have hsum : s.number + UInt64.ofNat (rest.length + 1 + 1) =
        s.number + 1 + UInt64.ofNat (rest.length + 1) := by
      rw [ofNat_add, UInt64.add_comm (ofNat _), ← UInt64.add_assoc]
      rfl
    simp only [apply_eq_ok, applyOne_eq_ok, length_cons, hsum]
    constructor
    · rintro ⟨hc, hn, t, ht, rfl⟩
      rw [checkContiguous_cons hn] at hc
      rw [foldlM_cons, bind_eq_ok] at ht
      obtain ⟨t₁, h₁, ht⟩ := ht
      refine ⟨t₁.stamp (s.number + 1) (h.hash C), ⟨hn, t₁, h₁, rfl⟩, hc.2, hc.1, ?_⟩
      refine ⟨t.stamp (s.number + 1) (h.hash C), ?_, rfl⟩
      rw [foldlM_applyHeader_stamp, ht]
      rfl
    rintro ⟨s₁, ⟨hn, t₁, h₁, rfl⟩, hc, hn₂, t, ht, rfl⟩
    refine ⟨(checkContiguous_cons hn).mpr ⟨hn₂, hc⟩, hn, ?_⟩
    rw [foldlM_applyHeader_stamp] at ht
    cases hf : (h₂ :: rest).foldlM (applyHeader C) t₁ with
    | error e => rw [hf] at ht; cases ht
    | ok t' =>
      rw [hf] at ht
      cases ht
      refine ⟨t', ?_, rfl⟩
      rw [foldlM_cons, bind_eq_ok]
      exact ⟨t₁, h₁, hf⟩

theorem apply_iff_replay : apply C s hs = .ok s' ↔ replay C s hs = .ok s' := by
  induction hs generalizing s with
  | nil => rfl
  | cons h hs ih => simp only [apply_cons, ih, replay, foldlM_cons, bind_eq_ok]

theorem replay_append : replay C s (hs₁ ++ hs₂) = .ok s' ↔
      ∃ s₁, replay C s hs₁ = .ok s₁ ∧ replay C s₁ hs₂ = .ok s' := by
  rw [replay, foldlM_append, bind_eq_ok]
  rfl

theorem replay_config (hr : replay C s hs = .ok s') : s'.config = s.config := by
  induction hs generalizing s with
  | nil => cases hr; rfl
  | cons h hs ih =>
    rw [replay, foldlM_cons, bind_eq_ok] at hr
    obtain ⟨s₁, ha, hr⟩ := hr
    obtain ⟨_, t, ht, rfl⟩ := applyOne_eq_ok.mp ha
    rw [ih hr]
    exact (applyHeader_number ht).2

theorem apply_append : apply C s (hs₁ ++ hs₂) = .ok s' ↔
      ∃ s₁, apply C s hs₁ = .ok s₁ ∧ apply C s₁ hs₂ = .ok s' := by
  simp only [apply_iff_replay, replay_append]

/-- A signed header with the hashes and the public key recorded for it. -/
structure Recorded where
  header : Header
  sealHash : Hash
  hash : Hash
  pub : PubKey

def Recorded.hashes (r : Recorded) : List (Bytes × Hash) :=
  [((encodeSigHeader r.header).toOption.getD [], r.sealHash),
    ((Rlp.Encode.write r.header.value).toOption.getD [], r.hash)]

def Recorded.key (r : Recorded) : (Hash × Bytes) × PubKey :=
  ((r.sealHash, r.header.extra.data.drop (r.header.extra.data.length - extraSeal)), r.pub)

def recordedCrypto (keys : List (PubKey × Hash)) (rs : List Recorded) : Crypto :=
  Crypto.ofTables (keys.map (fun k => (k.1.toList.drop 1, k.2)) ++ rs.flatMap Recorded.hashes)
    (rs.map Recorded.key)

end Geth.Congress.SnapshotApply
