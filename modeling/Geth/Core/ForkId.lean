import Geth.Lib.ExchangeSort
import Geth.Params.Config

namespace Geth.Core.ForkId

open Lib.BigEndian Lib.ExchangeSort Common.Basic Params.Config List Nat

local instance uint64LinearOrder : LinearOrder UInt64 where
  le_refl := UInt64.le_refl
  le_trans _ _ _ := UInt64.le_trans
  lt_iff_le_not_ge _ _ := by
    simp only [UInt64.lt_iff_toNat_lt, UInt64.le_iff_toNat_le]
    omega
  le_antisymm _ _ := UInt64.le_antisymm
  le_total := UInt64.le_total
  toDecidableLE := inferInstance
  toDecidableLT := inferInstance
  toDecidableEq := inferInstance

def ieeeEntry (i : UInt32) : UInt32 :=
  Nat.iterate (fun crc => if crc &&& 1 = 1 then (crc >>> 1) ^^^ 0xedb88320 else crc >>> 1) 8 i

/-- `crc32.Update` with the IEEE table. -/
def crc32Update (crc : UInt32) (p : Bytes) : UInt32 :=
  ~~~ p.foldl (fun crc v => ieeeEntry ((crc ^^^ v.toUInt32) &&& 0xff) ^^^ (crc >>> 8)) (~~~ crc)

def checksumUpdate (hash : UInt32) (fork : UInt64) : UInt32 :=
  crc32Update hash (beBytes 8 fork.toNat)

def checksumToBytes (hash : UInt32) : FixedBytes 4 := ofNat 4 hash.toNat

structure ID where
  hash : FixedBytes 4
  next : UInt64
  deriving DecidableEq

inductive ForkIdError
  | remoteStale
  | localIncompatibleOrStale
  deriving DecidableEq

/-- The block-zero forks belong to the genesis rules and are left out. -/
def skipGenesis : List UInt64 → List UInt64
  | [] => []
  | fork :: forks => if fork = 0 then forks else fork :: forks

def gatherForks (config : ChainConfig) : List UInt64 :=
  skipGenesis (dropRepeats (exchangeSort ((config.forkBlocks.filterMap id).map bigUint64)))

/-- The loop of `NewID` over the forks, from a checksum on. -/
def passForks (head : UInt64) : UInt32 → List UInt64 → ID
  | hash, [] => ⟨checksumToBytes hash, 0⟩
  | hash, fork :: forks =>
    if fork ≤ head then passForks head (checksumUpdate hash fork) forks
    else ⟨checksumToBytes hash, fork⟩

def newID (config : ChainConfig) (genesis : Hash) (head : UInt64) : ID :=
  passForks head (crc32Update 0 genesis.toList) (gatherForks config)

/-- The checksums after no fork, after the first one and so on. -/
def forkSums : UInt32 → List UInt64 → List (FixedBytes 4)
  | hash, [] => [checksumToBytes hash]
  | hash, fork :: forks => checksumToBytes hash :: forkSums (checksumUpdate hash fork) forks

def genesisSums (config : ChainConfig) (genesis : Hash) : List (FixedBytes 4) :=
  forkSums (crc32Update 0 genesis.toList) (gatherForks config)

/-- The rules for the first fork that the local head has not passed, the one with number `i`. -/
def applyRules (sums : List (FixedBytes 4)) (forks : List UInt64) (head : UInt64) (id : ID)
    (i : ℕ) : Option ForkIdError :=
  if sums[i]? = some id.hash then
    if 0 < id.next ∧ id.next ≤ head then some .localIncompatibleOrStale else none
  else
    match (List.range i).find? (fun j => sums[j]? = some id.hash) with
    | some j => if forks[j]? ≠ some id.next then some .remoteStale else none
    | none =>
      if id.hash ∈ sums.drop (i + 1) then none else some .localIncompatibleOrStale

/-- The loop of the filter over the forks that are left, the next of which has number `i`. -/
def filterFrom (sums : List (FixedBytes 4)) (forks : List UInt64) (head : UInt64) (id : ID) :
    ℕ → List UInt64 → Option ForkIdError
  | _, [] => none
  | i, fork :: rest =>
    if fork ≤ head then filterFrom sums forks head id (i + 1) rest
    else applyRules sums forks head id i

/-- The filter of a node whose head is at `head`; it accepts with no error. -/
def newFilter (config : ChainConfig) (genesis : Hash) (head : UInt64) (id : ID) :
    Option ForkIdError :=
  -- the sentry is never passed
  let forks := gatherForks config ++ [UInt64.ofNat (2 ^ 64 - 1)]
  filterFrom (genesisSums config genesis) forks head id 0 forks

section

variable {forks : List UInt64} (config : ChainConfig)

theorem skipGenesis_strict (h : forks.Pairwise (· < ·)) : (skipGenesis forks).Pairwise (· < ·) := by
  cases forks with
  | nil => exact h
  | cons fork forks =>
    simp only [skipGenesis]
    split
    · exact (pairwise_cons.mp h).2
    · exact h

theorem mem_skipGenesis (h : forks.Pairwise (· < ·)) (f : UInt64) :
    f ∈ skipGenesis forks ↔ f ∈ forks ∧ f ≠ 0 := by
  cases forks with
  | nil => simp [skipGenesis]
  | cons fork forks =>
    have hlt := (pairwise_cons.mp h).1
    have hpos : ∀ g ∈ forks, g ≠ 0 := fun g hg h0 =>
      absurd (h0 ▸ hlt g hg) (not_lt.mpr (UInt64.zero_le))
    simp only [skipGenesis]
    split
    next h0 =>
      simp only [h0, mem_cons]
      constructor
      · exact fun hf => ⟨.inr hf, hpos f hf⟩
      rintro ⟨hf | hf, hne⟩
      · exact absurd hf hne
      · exact hf
    next h0 =>
      simp only [mem_cons]
      constructor
      · rintro (rfl | hf)
        · exact ⟨.inl rfl, h0⟩
        · exact ⟨.inr hf, hpos f hf⟩
      · exact fun hf => hf.1

theorem gatherForks_strict : (gatherForks config).Pairwise (· < ·) :=
  skipGenesis_strict (dropRepeats_strict (exchangeSort_sorted _))

theorem mem_gatherForks (f : UInt64) :
    f ∈ gatherForks config ↔ (∃ b, some b ∈ config.forkBlocks ∧ bigUint64 b = f) ∧ f ≠ 0 := by
  rw [gatherForks, mem_skipGenesis (dropRepeats_strict (exchangeSort_sorted _)), mem_dropRepeats,
    (exchangeSort_perm _).mem_iff]
  simp

end

section

def passed (head : UInt64) (forks : List UInt64) : ℕ := forks.findIdx (fun fork => head < fork)

theorem passed_cons (head fork : UInt64) (forks : List UInt64) :
    passed head (fork :: forks) = if fork ≤ head then passed head forks + 1 else 0 := by
  by_cases h : fork ≤ head
  · simp [passed, findIdx_cons, not_lt.mpr h, h]
  · simp [passed, findIdx_cons, not_le.mp h, h]

theorem passed_le (head : UInt64) (forks : List UInt64) : passed head forks ≤ forks.length :=
  findIdx_le_length

theorem lt_of_passed {head fork} {forks} (h : forks[passed head forks]? = some fork) : head < fork := by
  obtain ⟨hlt, rfl⟩ := List.getElem?_eq_some_iff.mp h
  exact of_decide_eq_true (findIdx_getElem (w := hlt))

theorem passForks_spec (head : UInt64) (hash : UInt32) (forks : List UInt64) :
    (forkSums hash forks)[passed head forks]? = some (passForks head hash forks).hash ∧
      (passForks head hash forks).next = forks[passed head forks]?.getD 0 := by
  induction forks generalizing hash with
  | nil => exact ⟨rfl, rfl⟩
  | cons fork forks ih =>
    rw [passed_cons, passForks]
    split
    · simpa [forkSums] using ih (checksumUpdate hash fork)
    · simp [forkSums]

theorem filterFrom_cases (sums : List (FixedBytes 4)) (forks : List UInt64) (head : UInt64)
    (id : ID) (i : ℕ) (rest : List UInt64) :
    filterFrom sums forks head id i rest = none ∨ passed head rest < rest.length ∧
        filterFrom sums forks head id i rest = applyRules sums forks head id (i + passed head rest) := by
  induction rest generalizing i with
  | nil => exact .inl rfl
  | cons fork rest ih =>
    rw [passed_cons, filterFrom]
    split
    · rcases ih (i + 1) with h | ⟨hlt, h⟩
      · exact .inl h
      refine .inr ⟨by simpa using hlt, ?_⟩
      rw [h, add_assoc, add_comm 1]
    · exact .inr ⟨by simp, rfl⟩

theorem passed_append {head last} {forks} (h : passed head (forks ++ [last]) < (forks ++ [last]).length) :
    passed head (forks ++ [last]) = passed head forks := by
  induction forks with
  | nil =>
    by_cases hl : last ≤ head
    · simp [passed_cons, hl] at h
    · simp [passed, hl]
  | cons fork forks ih =>
    rw [cons_append, passed_cons] at h ⊢
    rw [passed_cons]
    split
    next hle =>
      rw [if_pos hle] at h
      rw [ih (by simpa using h)]
    next => rfl

variable {sums : List (FixedBytes 4)} {forks : List UInt64} {head : UInt64} {id : ID} {i k : ℕ}

theorem applyRules_accepts (hnd : sums.Nodup) (hk : sums[k]? = some id.hash)
    (hahead : i = k → 0 < id.next → head < id.next)
    (hnext : k < i → forks[k]? = some id.next) :
    applyRules sums forks head id i = none := by
  obtain ⟨hlt, hget⟩ := List.getElem?_eq_some_iff.mp hk
  have hsame : ∀ j, sums[j]? = some id.hash → j = k := by
    intro j hj
    obtain ⟨hj', hgetj⟩ := List.getElem?_eq_some_iff.mp hj
    exact (hnd.getElem_inj_iff).mp (hgetj.trans hget.symm)
  rcases lt_trichotomy i k with hik | hik | hik
  · have hne : sums[i]? ≠ some id.hash := fun h => absurd (hsame i h) (by omega)
    have hfind : (range i).find? (fun j => sums[j]? = some id.hash) = none := by
      rw [find?_range_eq_none]
      intro j hj
      have : sums[j]? ≠ some id.hash := fun h => absurd (hsame j h) (by omega)
      simpa using this
    have hmem : id.hash ∈ sums.drop (i + 1) := by
      apply mem_drop_iff_getElem.mpr
      exact ⟨k - (i + 1), by omega, by simpa [show i + 1 + (k - (i + 1)) = k by omega] using hget⟩
    simp only [applyRules, if_neg hne, hfind, if_pos hmem]
  · have hno : ¬ (0 < id.next ∧ id.next ≤ head) := fun h =>
      absurd (hahead hik h.1) (not_lt.mpr h.2)
    rw [applyRules, hik, if_pos hk, if_neg hno]
  have hne : sums[i]? ≠ some id.hash := fun h => absurd (hsame i h) (by omega)
  have hfind : (range i).find? (fun j => sums[j]? = some id.hash) = some k := by
    rw [find?_range_eq_some]
    refine ⟨by simpa using hk, by simpa using hik, fun j hj => ?_⟩
    have : sums[j]? ≠ some id.hash := fun h => absurd (hsame j h) (by omega)
    simpa using this
  simp only [applyRules, if_neg hne, hfind, hnext hik, ne_eq, not_true_eq_false, if_false]

theorem newFilter_accepts {config} {genesis : Hash}
    (hnd : (genesisSums config genesis).Nodup) (h1 h2 : UInt64) :
    newFilter config genesis h1 (newID config genesis h2) = none := by
  obtain ⟨hhash, hnext⟩ := passForks_spec h2 (crc32Update 0 genesis.toList) (gatherForks config)
  have hcases := fun forks =>
    filterFrom_cases (genesisSums config genesis) forks h1 (newID config genesis h2) 0 forks
  rcases hcases (gatherForks config ++ [UInt64.ofNat (2 ^ 64 - 1)]) with h | ⟨hlt, h⟩
  · exact h
  rw [newFilter, h, zero_add, passed_append hlt]
  apply applyRules_accepts hnd hhash
  · intro hik hpos
    rw [hnext, ← hik] at hpos ⊢
    cases hf : (gatherForks config)[passed h1 (gatherForks config)]? with
    | none => rw [hf] at hpos; exact absurd hpos (lt_irrefl _)
    | some fork => exact lt_of_passed hf
  intro hki
  have hlen : passed h2 (gatherForks config) < (gatherForks config).length :=
    lt_of_lt_of_le hki (passed_le _ _)
  rw [hnext, getElem?_append_left hlen, getElem?_eq_getElem hlen]
  rfl

end

theorem bigUint64_toNat {b : ℤ} (h : 0 ≤ b ∧ b < 2 ^ 64 - 1) : ((bigUint64 b).toNat : ℤ) = b := by
  obtain ⟨k, rfl⟩ := Int.eq_ofNat_of_zero_le h.1
  have hk : k < 2 ^ 64 := by omega
  rw [bigUint64, Int.natAbs_natCast, UInt64.toNat_ofNat_of_lt' hk]

/-- Two nodes of one chain accept each other at any heads, and the forks they compare are the
block numbers of the configuration after the genesis block, in ascending order. -/
theorem forkId_accepts (config : ChainConfig) (genesis : Hash)
    (hforks : ∀ b, some b ∈ config.forkBlocks → 0 ≤ b ∧ b < 2 ^ 64 - 1) :
    ((genesisSums config genesis).Nodup →
      ∀ h1 h2, newFilter config genesis h1 (newID config genesis h2) = none) ∧
    (gatherForks config).Pairwise (· < ·) ∧ 0 ∉ gatherForks config ∧
    ∀ f : UInt64, f ∈ gatherForks config ↔ f ≠ 0 ∧ some (f.toNat : ℤ) ∈ config.forkBlocks := by
  refine ⟨newFilter_accepts, gatherForks_strict config, fun h0 => ?_, fun f => ?_⟩
  · exact ((mem_gatherForks config 0).mp h0).2 rfl
  rw [mem_gatherForks, and_comm]
  apply and_congr_right
  intro _
  constructor
  · rintro ⟨b, hb, rfl⟩
    rwa [bigUint64_toNat (hforks b hb)]
  intro hf
  refine ⟨f.toNat, hf, UInt64.toNat_inj.mp ?_⟩
  exact Int.ofNat_inj.mp (bigUint64_toNat (hforks _ hf))

def sampleConfig : ChainConfig :=
  { istanbulConfig none with
    berlinBlock := some 5
    redCoastBlock := some 2
    sophonBlock := some 5 }

theorem forkId_accepts_sample :
    gatherForks sampleConfig = [2, 5] ∧
    newFilter sampleConfig (zeros 32) 7 (newID sampleConfig (zeros 32) 3) = none ∧
    newFilter sampleConfig (zeros 32) 3 (newID sampleConfig (zeros 32) 7) = none := by
  have hforks : ∀ b, some b ∈ sampleConfig.forkBlocks → 0 ≤ b ∧ b < 2 ^ 64 - 1 := by
    intro b hb
    simp only [ChainConfig.forkBlocks, sampleConfig, istanbulConfig, mem_cons,
      Option.some.injEq, not_mem_nil, reduceCtorEq, or_false, false_or] at hb
    omega
  have h := (forkId_accepts sampleConfig (zeros 32) hforks).1 (by decide +kernel)
  exact ⟨by decide +kernel, h 7 3, h 3 7⟩

end Geth.Core.ForkId
