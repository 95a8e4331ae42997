import Geth.Congress.Finalize
import Geth.Congress.Retrieval

namespace Geth.Congress.VerifyHeader

open Lib.BigEndian Common.Basic Types.Block SnapshotApply VerifySeal SystemCalls

inductive HeaderError where
  | errUnknownBlock | errFutureBlock | errMissingVanity | errMissingSignature | errExtraValidators
  | errInvalidMixDigest | errInvalidUncleHash | errInvalidDifficulty
  | invalidGasLimit (held max : UInt64)
  | homesteadGasReprice (held want : Hash)
  | errUnknownAncestor | errInvalidTimestamp
  | invalidGasUsed (held gasLimit : UInt64)
  | baseFeeBeforeFork (held : Int)
  | gasLimitOutOfBounds (held want bound : UInt64)
  | gasLimitTooLow
  | missingBaseFee
  | invalidBaseFee (expected held : Int) (parentBaseFee : BigPtr) (parentGasUsed : UInt64)
  | consensus (e : Error)
  deriving DecidableEq

def gasLimitBoundDivisor : UInt64 := 1024
def minGasLimit : UInt64 := 5000
def maxGasLimit : UInt64 := 0x7fffffffffffffff

def verifyGaslimit (parentGasLimit headerGasLimit : UInt64) : Except HeaderError Unit :=
  let diff := parentGasLimit.toInt64 - headerGasLimit.toInt64
  let diff := if diff < 0 then diff * -1 else diff
  let limit := parentGasLimit / gasLimitBoundDivisor
  if limit ≤ diff.toUInt64 then .error (.gasLimitOutOfBounds headerGasLimit parentGasLimit (limit - 1))
  else if headerGasLimit < minGasLimit then .error .gasLimitTooLow
  else .ok ()

def calcBaseFee (_parent : Header) : Int := 0

def verifyEip1559Header (parent header : Header) : Except HeaderError Unit := do
  verifyGaslimit parent.gasLimit header.gasLimit
  match header.baseFee with
  | none => .error .missingBaseFee
  | some baseFee =>
    if baseFee ≠ calcBaseFee parent then
      .error (.invalidBaseFee (calcBaseFee parent) baseFee parent.baseFee parent.gasUsed)
    else .ok ()

variable {ω : Type}

section

variable (C : Crypto) (c : Posa ω) (header : Header)

def verifyForkHashes (number : Int) : Except HeaderError Unit :=
  if c.chainConfig.eip150Block = some number ∧ c.chainConfig.eip150Hash ≠ zeros 32 ∧
      c.chainConfig.eip150Hash ≠ header.hash C then
    .error (.homesteadGasReprice (header.hash C) c.chainConfig.eip150Hash)
  else .ok ()

/-- Of the validator section only the length is checked. -/
def verifyExtra (number : UInt64) : Except HeaderError Unit :=
  let len := header.extra.data.length
  if len < extraVanity then .error .errMissingVanity
  else if len < extraVanity + extraSeal then .error .errMissingSignature
  else
    let isEpoch := number % c.config.epoch = 0
    let validatorsBytes := len - extraVanity - extraSeal
    if ¬ isEpoch ∧ validatorsBytes ≠ 0 then .error .errExtraValidators
    else if isEpoch ∧ validatorsBytes % addressLength ≠ 0 then .error .errExtraValidators
    else .ok ()

def verifyFork (parent : Header) : Except HeaderError Unit :=
  if c.chainConfig.isLondon header.number then verifyEip1559Header parent header
  else match header.baseFee with
    | some baseFee => .error (.baseFeeBeforeFork baseFee)
    | none => verifyGaslimit parent.gasLimit header.gasLimit

/-- `fakeDiff` is the engine's test switch. The parent is the last one of a batch
if there is a batch. -/
def verifyCascadingFields (fakeDiff : Bool) (number : UInt64) (parents : List Header) :
    Except HeaderError Unit :=
  if number = 0 then .ok ()
  else
    match parents.getLast?.or (c.getHeader header.parentHash (number - 1)) with
    | none => .error .errUnknownAncestor
    | some parent => do
      let parentNumber ← (numberU64 parent).mapError .consensus
      if parentNumber ≠ number - 1 ∨ parent.hash C ≠ header.parentHash then .error .errUnknownAncestor
      else if header.time < parent.time + c.config.period then .error .errInvalidTimestamp
      else if header.gasLimit < header.gasUsed then
        .error (.invalidGasUsed header.gasUsed header.gasLimit)
      else do
        verifyFork c header parent
        (verifySeal C fakeDiff c.snapshot header).mapError .consensus

/-- `now` is the clock. -/
def verifyHeader (fakeDiff : Bool) (now : UInt64) (parents : List Header) : Except HeaderError Unit :=
  match header.number with
  | none => .error .errUnknownBlock
  | some n => do
    let number := bigUint64 n
    if now < header.time then .error .errFutureBlock
    else do
      verifyExtra c header number
      if header.mixDigest ≠ zeros 32 then .error .errInvalidMixDigest
      else if header.uncleHash ≠ calcUncleHashNil C then .error .errInvalidUncleHash
      else if number > 0 ∧ header.difficulty = none then .error .errInvalidDifficulty
      else if maxGasLimit < header.gasLimit then .error (.invalidGasLimit header.gasLimit maxGasLimit)
      else do
        verifyForkHashes C c header n
        verifyCascadingFields C c header fakeDiff number parents

end

section

variable {C : Crypto} {c : Posa ω} {header : Header} {fakeDiff : Bool} {parents : List Header}

theorem verifyCascadingFields_seal {number} (hne : number ≠ 0)
    (h : verifyCascadingFields C c header fakeDiff number parents = .ok ()) :
    verifySeal C fakeDiff c.snapshot header = .ok () := by
  rw [verifyCascadingFields, if_neg hne] at h
  split at h
  · cases h
  obtain ⟨parentNumber, _, h⟩ := bind_eq_ok.mp h
  split at h
  · cases h
  split at h
  · cases h
  split at h
  · cases h
  obtain ⟨_, _, h⟩ := bind_eq_ok.mp h
  exact mapError_eq_ok.mp h

/-- An accepted header above genesis bears a valid seal. -/
theorem verifyHeader_seal {now number} (hn : numberU64 header = .ok number)
    (hne : number ≠ 0) (h : verifyHeader C c header fakeDiff now parents = .ok ()) :
    verifySeal C fakeDiff c.snapshot header = .ok () := by
  rw [numberU64] at hn
  rw [verifyHeader] at h
  cases hnum : header.number with
  | none =>
    rw [hnum] at hn
    cases hn
  | some n =>
    rw [hnum] at hn h
    cases hn
    dsimp only at h
    split at h
    · cases h
    obtain ⟨_, _, h⟩ := bind_eq_ok.mp h
    split at h
    · cases h
    split at h
    · cases h
    split at h
    · cases h
    split at h
    · cases h
    obtain ⟨_, _, h⟩ := bind_eq_ok.mp h
    exact verifyCascadingFields_seal hne h

end

end Geth.Congress.VerifyHeader
