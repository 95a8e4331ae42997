import Geth.Params.Config

namespace Geth.Params.Compatibility

open Common.Basic Config List Option UInt64

structure ConfigCompatError where
  what : String
  storedConfig : BigPtr
  newConfig : BigPtr
  rewindTo : UInt64
  deriving DecidableEq

def configNumEqual : BigPtr → BigPtr → Bool
  | none, y => y.isNone
  | some _, none => false
  | some x, some y => decide (x = y)

def isForkIncompatible (s1 s2 head : BigPtr) : Bool :=
  (isForked s1 head || isForked s2 head) && !configNumEqual s1 s2

/-- The lower of the two blocks, or the one that is scheduled. -/
def rewindBlock : BigPtr → BigPtr → BigPtr
  | none, newblock => newblock
  | some stored, none => some stored
  | some stored, some new => if stored < new then some stored else some new

def newCompatError (what : String) (storedblock newblock : BigPtr) : ConfigCompatError where
  what := what
  storedConfig := storedblock
  newConfig := newblock
  rewindTo :=
    match rewindBlock storedblock newblock with
    | some rew => if 0 < rew then bigUint64 rew - 1 else 0
    | none => 0

def mismatch (what : String) (s1 s2 head : BigPtr) : Option ConfigCompatError :=
  if isForkIncompatible s1 s2 head then some (newCompatError what s1 s2) else none

/-- The checks of the unexported `checkCompatible`, in its order. -/
def conflicts (c newcfg : ChainConfig) (head : BigPtr) : List (Option ConfigCompatError) :=
  [mismatch "Homestead fork block" c.homesteadBlock newcfg.homesteadBlock head,
   mismatch "DAO fork block" c.daoForkBlock newcfg.daoForkBlock head,
   if c.isDAOFork head && c.daoForkSupport != newcfg.daoForkSupport then
     some (newCompatError "DAO fork support flag" c.daoForkBlock newcfg.daoForkBlock) else none,
   mismatch "EIP150 fork block" c.eip150Block newcfg.eip150Block head,
   mismatch "EIP155 fork block" c.eip155Block newcfg.eip155Block head,
   mismatch "EIP158 fork block" c.eip158Block newcfg.eip158Block head,
   if c.isEIP158 head && !configNumEqual c.chainID newcfg.chainID then
     some (newCompatError "EIP158 chain ID" c.eip158Block newcfg.eip158Block) else none,
   mismatch "Byzantium fork block" c.byzantiumBlock newcfg.byzantiumBlock head,
   mismatch "Constantinople fork block" c.constantinopleBlock newcfg.constantinopleBlock head,
   -- Petersburg may be set in the past if it is the stored Constantinople block
   if isForkIncompatible c.petersburgBlock newcfg.petersburgBlock head &&
       isForkIncompatible c.constantinopleBlock newcfg.petersburgBlock head then
     some (newCompatError "Petersburg fork block" c.petersburgBlock newcfg.petersburgBlock) else none,
   mismatch "Istanbul fork block" c.istanbulBlock newcfg.istanbulBlock head,
   mismatch "Muir Glacier fork block" c.muirGlacierBlock newcfg.muirGlacierBlock head,
   mismatch "Berlin fork block" c.berlinBlock newcfg.berlinBlock head,
   mismatch "London fork block" c.londonBlock newcfg.londonBlock head,
   mismatch "RedCoast fork block" c.redCoastBlock newcfg.redCoastBlock head,
   mismatch "Arrow Glacier fork block" c.arrowGlacierBlock newcfg.arrowGlacierBlock head,
   mismatch "RewardPool fork block" c.rewardPoolBlock newcfg.rewardPoolBlock head]

/-- The unexported `checkCompatible`: the error of the first check that fails at `head`. -/
def checkCompatibleAt (c newcfg : ChainConfig) (head : BigPtr) : Option ConfigCompatError :=
  (conflicts c newcfg head).findSome? id

/-- The loop of `CheckCompatible`; without a result when it has not ended after `fuel` rounds. -/
def lowestConflict (c newcfg : ChainConfig) :
    ℕ → UInt64 → Option ConfigCompatError → Option (Option ConfigCompatError)
  | 0, _, _ => none
  | fuel + 1, bhead, lasterr =>
    match checkCompatibleAt c newcfg (some bhead.toNat) with
    | none => some lasterr
    | some err =>
      if lasterr.any (fun last => err.rewindTo == last.rewindTo) then some lasterr
      else lowestConflict c newcfg fuel err.rewindTo (some err)

def checkCompatible (c newcfg : ChainConfig) (height : UInt64) :
    Option (Option ConfigCompatError) :=
  lowestConflict c newcfg (height.toNat + 2) height none

section

variable {s s1 s2 : BigPtr} {head : ℕ}

theorem configNumEqual_iff (x y : BigPtr) : configNumEqual x y = true ↔ x = y := by
  cases x <;> cases y <;> simp [configNumEqual]

theorem isForked_iff (s : BigPtr) (n : ℕ) : isForked s (some n) = true ↔ ∃ b, s = some b ∧ b ≤ n := by
  cases s <;> simp [isForked]

theorem isForked_mono {n : ℕ} (hn : n ≤ head) (h : isForked s (some n) = true) :
    isForked s (some head) = true := by
  obtain ⟨b, hb, hle⟩ := (isForked_iff s n).mp h
  apply (isForked_iff s head).mpr
  exact ⟨b, hb, by omega⟩

theorem isForkIncompatible_iff : isForkIncompatible s1 s2 (some head) = true ↔
      (isForked s1 (some head) = true ∨ isForked s2 (some head) = true) ∧ s1 ≠ s2 := by
  have h := configNumEqual_iff s1 s2
  simp [isForkIncompatible, ← h]

/-- A fork block that is a block number, or nil. -/
def Scheduled (s : BigPtr) : Prop := ∀ b, s = some b → 0 ≤ b ∧ b < 2 ^ 63

theorem scheduled_none : Scheduled none := fun _ h => absurd h (by simp)

theorem scheduled_some {b : ℤ} (h : 0 ≤ b ∧ b < 2 ^ 63) : Scheduled (some b) := by
  rintro _ hb
  cases hb
  exact h

theorem forked_of_agree (h1 : Scheduled s1) (hf : isForked s1 (some head) = true)
    (h : ∀ n ≤ head, isForked s1 (some n) = isForked s2 (some n)) :
    ∃ b c, s1 = some b ∧ s2 = some c ∧ c ≤ b ∧ isForked s2 (some head) = true := by
  obtain ⟨b, hb, hle⟩ := (isForked_iff s1 head).mp hf
  obtain ⟨hpos, -⟩ := h1 b hb
  obtain ⟨k, rfl⟩ := Int.eq_ofNat_of_zero_le hpos
  have hk : k ≤ head := by omega
  have hself : isForked s1 (some k) = true := (isForked_iff s1 k).mpr ⟨k, hb, le_refl _⟩
  obtain ⟨c, hc, hck⟩ := (isForked_iff s2 k).mp ((h k hk).symm.trans hself)
  exact ⟨k, c, hb, hc, hck, (h head (le_refl _)).symm.trans hf⟩

/-- Two fork blocks are compatible at a height exactly when the fork is active at the same
blocks up to that height. -/
theorem compatible_iff_agree (h1 : Scheduled s1) (h2 : Scheduled s2) :
    isForkIncompatible s1 s2 (some head) = false ↔
      ∀ n ≤ head, isForked s1 (some n) = isForked s2 (some n) := by
  constructor
  · intro h n hn
    by_cases heq : s1 = s2
    · rw [heq]
    have hoff : ¬ (isForked s1 (some head) = true ∨ isForked s2 (some head) = true) := by
      intro hf
      rw [isForkIncompatible_iff.mpr ⟨hf, heq⟩] at h
      exact absurd h (by decide)
    have hn1 : isForked s1 (some n) = false := by
      apply Bool.eq_false_iff.mpr
      exact fun hf => hoff (.inl (isForked_mono hn hf))
    have hn2 : isForked s2 (some n) = false := by
      apply Bool.eq_false_iff.mpr
      exact fun hf => hoff (.inr (isForked_mono hn hf))
    rw [hn1, hn2]
  intro h
  apply Bool.eq_false_iff.mpr
  intro hinc
  obtain ⟨hf, hne⟩ := isForkIncompatible_iff.mp hinc
  have hf1 : isForked s1 (some head) = true := by
    rcases hf with hf | hf
    · exact hf
    · exact (h head (le_refl _)).trans hf
  obtain ⟨b, d, hb, hd, hdb, hf2⟩ := forked_of_agree h1 hf1 h
  obtain ⟨d', b', hd', hb', hbd, -⟩ := forked_of_agree h2 hf2 (fun n hn => (h n hn).symm)
  apply hne
  rw [hb, hd] at *
  simp only [some.injEq] at hd' hb' ⊢
  omega

theorem mismatch_eq_none (what : String) :
    mismatch what s1 s2 (some head) = none ↔ isForkIncompatible s1 s2 (some head) = false := by
  simp [mismatch]

end

section

variable {s1 s2 : BigPtr}

theorem rewindBlock_le {head : ℕ} (hf : isForked s1 (some head) = true ∨ isForked s2 (some head) = true) :
    ∃ rew, rewindBlock s1 s2 = some rew ∧ rew ≤ head := by
  rw [isForked_iff, isForked_iff] at hf
  rcases s1 with - | b <;> rcases s2 with - | d
  · simp at hf
  · simpa [rewindBlock] using hf
  · simpa [rewindBlock] using hf
  by_cases hlt : b < d
  · refine ⟨b, by simp [rewindBlock, hlt], ?_⟩
    rcases hf with ⟨x, hx, hle⟩ | ⟨x, hx, hle⟩ <;> cases hx <;> omega
  refine ⟨d, by simp [rewindBlock, hlt], ?_⟩
  rcases hf with ⟨x, hx, hle⟩ | ⟨x, hx, hle⟩ <;> cases hx <;> omega

/-- An error at `bhead` asks for a rewind to a lower block, or to the genesis block. -/
theorem newCompatError_lt {what} {bhead}
    (hf : isForked s1 (some bhead.toNat) = true ∨ isForked s2 (some bhead.toNat) = true) :
    (newCompatError what s1 s2).rewindTo < bhead ∨ (newCompatError what s1 s2).rewindTo = 0 := by
  obtain ⟨rew, hrew, hle⟩ := rewindBlock_le hf
  simp only [newCompatError, hrew]
  split
  next hpos =>
    left
    obtain ⟨k, rfl⟩ := Int.eq_ofNat_of_zero_le (le_of_lt hpos)
    have hk : k ≤ bhead.toNat := by omega
    have hsize : k < 2 ^ 64 := lt_of_le_of_lt hk bhead.toNat_lt
    have hto : (bigUint64 (k : ℤ)).toNat = k := by
      rw [bigUint64, Int.natAbs_natCast, toNat_ofNat_of_lt' hsize]
    have hone : (1 : UInt64) ≤ bigUint64 (k : ℤ) := by
      rw [le_iff_toNat_le, hto, toNat_one]
      omega
    rw [lt_iff_toNat_lt, UInt64.toNat_sub_of_le _ _ hone, hto, toNat_one]
    omega
  next => right; rfl

end

section

variable {c newcfg : ChainConfig} {head : BigPtr} {height : UInt64}

variable {err : ConfigCompatError}

theorem mismatch_eq_some {what} {s1 s2} (h : mismatch what s1 s2 head = some err) :
    err = newCompatError what s1 s2 ∧ (isForked s1 head = true ∨ isForked s2 head = true) := by
  simp only [mismatch, isForkIncompatible, Bool.and_eq_true, Bool.or_eq_true,
    ite_none_right_eq_some, some.injEq] at h
  exact ⟨h.2.symm, h.1.1⟩

theorem conflicts_forked (h : some err ∈ conflicts c newcfg head) :
    ∃ what s1 s2, err = newCompatError what s1 s2 ∧
      (isForked s1 head = true ∨ isForked s2 head = true) := by
  have hplain : ∀ what s1 s2, some err = mismatch what s1 s2 head →
      ∃ what s1 s2, err = newCompatError what s1 s2 ∧ (isForked s1 head = true ∨ isForked s2 head = true) :=
    fun what s1 s2 hm => ⟨what, s1, s2, mismatch_eq_some hm.symm⟩
  simp only [conflicts, mem_cons, not_mem_nil, or_false] at h
  rcases h with h | h | h | h | h | h | h | h | h | h | h | h | h | h | h | h | h
  case inr.inr.inl =>
    rw [eq_comm, ite_none_right_eq_some, Bool.and_eq_true] at h
    exact ⟨_, _, _, (some.inj h.2).symm, .inl h.1.1⟩
  case inr.inr.inr.inr.inr.inr.inl =>
    rw [eq_comm, ite_none_right_eq_some, Bool.and_eq_true] at h
    exact ⟨_, _, _, (some.inj h.2).symm, .inl h.1.1⟩
  case inr.inr.inr.inr.inr.inr.inr.inr.inr.inl =>
    rw [eq_comm, ite_none_right_eq_some, Bool.and_eq_true, isForkIncompatible,
      Bool.and_eq_true, Bool.or_eq_true] at h
    exact ⟨_, _, _, (some.inj h.2).symm, h.1.1.1⟩
  all_goals exact hplain _ _ _ h

theorem checkCompatibleAt_lt {bhead} (h : checkCompatibleAt c newcfg (some bhead.toNat) = some err) :
    err.rewindTo < bhead ∨ err.rewindTo = 0 := by
  obtain ⟨e, hmem, he⟩ := exists_of_findSome?_eq_some h
  rw [id] at he
  rw [he] at hmem
  obtain ⟨what, s1, s2, rfl, hf⟩ := conflicts_forked hmem
  exact newCompatError_lt hf

/-- The loop after its first error. Each further error is at a lower block, until one repeats
the rewind to the genesis block. -/
theorem lowestConflict_spec {fuel : ℕ} {last} (hfuel : last.rewindTo.toNat < fuel) :
    ∃ err, lowestConflict c newcfg fuel last.rewindTo (some last) = some (some err) ∧
      (0 < err.rewindTo → checkCompatibleAt c newcfg (some err.rewindTo.toNat) = none) := by
  induction fuel generalizing last with
  | zero => exact absurd hfuel (Nat.not_lt_zero _)
  | succ fuel ih =>
    simp only [lowestConflict]
    cases hat : checkCompatibleAt c newcfg (some last.rewindTo.toNat) with
    | none => exact ⟨last, rfl, fun _ => hat⟩
    | some err =>
      have hlt := checkCompatibleAt_lt hat
      simp only [any_some, beq_iff_eq]
      by_cases hsame : err.rewindTo = last.rewindTo
      · refine ⟨last, if_pos hsame, fun hpos => ?_⟩
        rcases hlt with hlt | hzero
        · exact absurd (hsame ▸ hlt) (UInt64.lt_irrefl _)
        rw [← hsame, hzero] at hpos
        exact absurd hpos (UInt64.lt_irrefl _)
      rw [if_neg hsame]
      apply ih
      rcases hlt with hlt | hzero
      · have := lt_iff_toNat_lt.mp hlt
        omega
      have hne : last.rewindTo.toNat ≠ 0 := fun h0 =>
        hsame (hzero.trans (UInt64.toNat_inj.mp h0.symm))
      rw [hzero, UInt64.toNat_zero]
      omega

theorem checkCompatible_of_none (hat : checkCompatibleAt c newcfg (some height.toNat) = none) :
    checkCompatible c newcfg height = some none := by
  simp only [checkCompatible, lowestConflict, hat]

theorem checkCompatible_of_some (hat : checkCompatibleAt c newcfg (some height.toNat) = some err) :
    ∃ err', checkCompatible c newcfg height = some (some err') ∧
      (0 < err'.rewindTo → checkCompatible c newcfg err'.rewindTo = some none) := by
  have hfuel : err.rewindTo.toNat < height.toNat + 1 := by
    rcases checkCompatibleAt_lt hat with hlt | hzero
    · have := lt_iff_toNat_lt.mp hlt
      omega
    rw [hzero, UInt64.toNat_zero]
    omega
  obtain ⟨err', hrun, hpos⟩ := @lowestConflict_spec c newcfg _ _ hfuel
  refine ⟨err', ?_, fun h => checkCompatible_of_none (hpos h)⟩
  rw [checkCompatible, lowestConflict]
  simp only [hat, any_none, Bool.false_eq_true, if_false]
  exact hrun

end

section

open ChainConfig in
def forkRules : List (ChainConfig → BigPtr → Bool) :=
  [isHomestead, isDAOFork, isEIP150, isEIP155, isEIP158, isByzantium, isConstantinople,
   isMuirGlacier, isPetersburg, isIstanbul, isBerlin, isLondon, isArrowGlacier,
   isRedCoast, isSophon, isRewardPool]

def SameRules (c newcfg : ChainConfig) (n : ℕ) : Prop :=
  ∀ rule ∈ forkRules, rule c (some n) = rule newcfg (some n)

def petersburgFrom (c : ChainConfig) : BigPtr := c.petersburgBlock <|> c.constantinopleBlock

theorem isPetersburg_eq (c : ChainConfig) (num : BigPtr) :
    c.isPetersburg num = isForked (petersburgFrom c) num := by
  cases h : c.petersburgBlock <;> simp [ChainConfig.isPetersburg, petersburgFrom, h, isForked]

variable {c newcfg : ChainConfig} {height : UInt64}
variable (hc : ∀ s ∈ c.forkBlocks, Scheduled s) (hn : ∀ s ∈ newcfg.forkBlocks, Scheduled s)

include hc in
theorem scheduled_petersburgFrom : Scheduled (petersburgFrom c) := by
  cases h : c.petersburgBlock with
  | none =>
    have hfrom : petersburgFrom c = c.constantinopleBlock := by simp [petersburgFrom, h]
    rw [hfrom]
    exact hc _ (by simp [ChainConfig.forkBlocks])
  | some b =>
    have hfrom : petersburgFrom c = c.petersburgBlock := by simp [petersburgFrom, h]
    rw [hfrom]
    exact hc _ (by simp [ChainConfig.forkBlocks])

include hc hn in
/-- A field that the check compares is in force at the same blocks once the check passes. -/
theorem agree_of_compatible {s1 s2} (h : isForkIncompatible s1 s2 (some height.toNat) = false)
    (h1 : s1 ∈ c.forkBlocks) (h2 : s2 ∈ newcfg.forkBlocks) :
    ∀ n ≤ height.toNat, isForked s1 (some n) = isForked s2 (some n) :=
  (compatible_iff_agree (hc _ h1) (hn _ h2)).mp h

include hc hn in
theorem sameRules_of_none (hat : checkCompatibleAt c newcfg (some height.toNat) = none)
    (hs : ∀ n ≤ height.toNat, isForked c.sophonBlock (some n) = isForked newcfg.sophonBlock (some n))
    (hp : ∀ n ≤ height.toNat,
      isForked (petersburgFrom c) (some n) = isForked (petersburgFrom newcfg) (some n)) :
    ∀ n ≤ height.toNat, SameRules c newcfg n := by
  have hall : ∀ e ∈ conflicts c newcfg (some height.toNat), e = none :=
    findSome?_eq_none_iff.mp hat
  simp only [conflicts, forall_mem_cons, mismatch_eq_none] at hall
  obtain ⟨_, _, -, _, _, _, -, _, _, -, _, _, _, _, _, _, _, -⟩ := hall
  intro n hle rule hrule
  simp only [forkRules, mem_cons, not_mem_nil, or_false] at hrule
  rcases hrule with rfl | rfl | rfl | rfl | rfl | rfl | rfl | rfl | rfl | rfl | rfl | rfl | rfl |
    rfl | rfl | rfl
  case inr.inr.inr.inr.inr.inr.inr.inr.inl =>
    rw [isPetersburg_eq, isPetersburg_eq]
    exact hp n hle
  case inr.inr.inr.inr.inr.inr.inr.inr.inr.inr.inr.inr.inr.inr.inl => exact hs n hle
  -- the other rules are each the comparison of one field
  all_goals
    refine agree_of_compatible hc hn ?_ ?_ ?_ n hle
    · assumption
    · simp only [ChainConfig.forkBlocks, mem_cons, true_or, or_true]
    · simp only [ChainConfig.forkBlocks, mem_cons, true_or, or_true]

/-- The check returns, an error with a positive rewind block is repaired by the rewind, and a
passed check means equal rules exactly for the two forks that it compares wrongly. -/
theorem checkCompatible_sound_iff (c newcfg : ChainConfig) (height : UInt64)
    (hc : ∀ s ∈ c.forkBlocks, Scheduled s) (hn : ∀ s ∈ newcfg.forkBlocks, Scheduled s) :
    ∃ result, checkCompatible c newcfg height = some result ∧
      ((result = none → ∀ n ≤ height.toNat, SameRules c newcfg n) ↔
        (result = none →
          isForkIncompatible c.sophonBlock newcfg.sophonBlock (some height.toNat) = false ∧
          isForkIncompatible (petersburgFrom c) (petersburgFrom newcfg) (some height.toNat)
            = false)) ∧
      ∀ err, result = some err → 0 < err.rewindTo →
        checkCompatible c newcfg err.rewindTo = some none := by
  have hsophon : c.sophonBlock ∈ c.forkBlocks ∧ newcfg.sophonBlock ∈ newcfg.forkBlocks := by
    simp [ChainConfig.forkBlocks]
  have hs := @compatible_iff_agree _ _ height.toNat (hc _ hsophon.1) (hn _ hsophon.2)
  have hp := @compatible_iff_agree _ _ height.toNat (scheduled_petersburgFrom hc)
    (scheduled_petersburgFrom hn)
  cases hat : checkCompatibleAt c newcfg (some height.toNat) with
  | some err =>
    obtain ⟨err', hrun, hpos⟩ := checkCompatible_of_some hat
    refine ⟨some err', hrun, by simp, ?_⟩
    rintro e he
    cases he
    exact hpos
  | none =>
    refine ⟨none, checkCompatible_of_none hat, ?_, by simp⟩
    rw [hs, hp]
    constructor
    · intro h _
      have hsmem : ChainConfig.isSophon ∈ forkRules := by simp [forkRules]
      have hpmem : ChainConfig.isPetersburg ∈ forkRules := by simp [forkRules]
      refine ⟨fun n hle => h rfl n hle _ hsmem, fun n hle => ?_⟩
      rw [← isPetersburg_eq, ← isPetersburg_eq]
      exact h rfl n hle _ hpmem
    intro h _
    exact sameRules_of_none hc hn hat (h rfl).1 (h rfl).2

/-- A chain with the given Petersburg and Sophon blocks, Constantinople at block 3 and RedCoast
at block 4. -/
def reforked (petersburg sophon : BigPtr) : ChainConfig :=
  { istanbulConfig none with
    constantinopleBlock := some 3
    petersburgBlock := petersburg
    redCoastBlock := some 4
    sophonBlock := sophon }

theorem reforked_scheduled {petersburg sophon} (hp : Scheduled petersburg)
    (hs : Scheduled sophon) : ∀ s ∈ (reforked petersburg sophon).forkBlocks, Scheduled s := by
  simp [ChainConfig.forkBlocks, reforked, istanbulConfig, hp, hs, scheduled_none, scheduled_some]

/-- At height 10 the check passes a Sophon fork moved from block 5 to block 8, and a Petersburg
fork moved from block 6 to the Constantinople block. -/
theorem checkCompatible_misses_sophon :
    (checkCompatible (reforked (some 3) (some 5)) (reforked (some 3) (some 8)) 10 = some none ∧
      (reforked (some 3) (some 5)).isSophon (some 6) = true ∧
      (reforked (some 3) (some 8)).isSophon (some 6) = false) ∧
    (checkCompatible (reforked (some 6) none) (reforked (some 3) none) 10 = some none ∧
      (reforked (some 6) none).isPetersburg (some 4) = false ∧
      (reforked (some 3) none).isPetersburg (some 4) = true) := by
  decide +kernel

theorem checkCompatible_sound_sample :
    (∀ n ≤ 10, SameRules (reforked none (some 5)) (reforked (some 3) (some 5)) n) ∧
    (checkCompatible (reforked none (some 5)) (reforked (some 3) (some 5)) 10 = some none) := by
  have hthree : Scheduled (some 3) := scheduled_some (by decide)
  have hfive : Scheduled (some 5) := scheduled_some (by decide)
  obtain ⟨result, hrun, hiff, -⟩ := checkCompatible_sound_iff _ _ 10
    (reforked_scheduled scheduled_none hfive) (reforked_scheduled hthree hfive)
  have hpass : checkCompatible (reforked none (some 5)) (reforked (some 3) (some 5)) 10
      = some none := by decide +kernel
  refine ⟨?_, hpass⟩
  exact hiff.mpr (fun _ => by decide +kernel) (some.inj (hrun.symm.trans hpass))

end

end Geth.Params.Compatibility
