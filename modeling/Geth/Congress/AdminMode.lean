import Geth.Congress.Assembly
import Geth.Congress.VerifyHeader

namespace Geth.Congress.AdminMode

open Lib.BigEndian Lib.Programs Common.Basic Types.Block Params.Config
open SnapshotApply VerifySeal SystemCalls SealSpacing Retrieval Finalize Assembly
open VerifyHeader List UInt64 Nat Except

variable {ω : Type} {hs' : List Header}

def snapshotOn (C : Crypto) (config : CongressConfig) (genesis : Header) (hs : List Header)
    (number : UInt64) (hash : Hash) : Except Error Snapshot :=
  let before := hs.take number.toNat
  if before.length = number.toNat ∧ (tip genesis before).hash C = hash then
    fromGenesis C config genesis before
  else .error .errUnknownAncestor

def headerOn (C : Crypto) (genesis : Header) (hs : List Header) (hash : Hash) (number : UInt64) :
    Option Header :=
  (genesis :: hs).find? fun h => decide (h.hash C = hash ∧ numberU64 h = .ok number)

def onChain (C : Crypto) (c : Posa ω) (genesis : Header) (hs : List Header) : Posa ω :=
  { c with
    getHeader := headerOn C genesis hs
    snapshot := snapshotOn C c.config genesis hs }

section

variable (C : Crypto) (c : Posa ω) (fakeDiff : Bool) (genesis : Header)

def Verifies (hs : List Header) (h : Header) : Prop :=
  ∃ now parents, verifyHeader C (onChain C c genesis hs) h fakeDiff now parents = .ok ()

def Finalizes (hs : List Header) (h : Header) : Prop :=
  ∃ txs receipts systemTxs w fin w',
    finalize C (onChain C c genesis hs) h txs receipts systemTxs w = .ok fin w'

/-- A chain in which every block above genesis was verified and finalized on
top of the blocks before it. -/
inductive VerifiedChain : List Header → Prop
  | genesis : VerifiedChain []
  | extend {hs : List Header} {h : Header} : VerifiedChain hs → HeaderChain C genesis (hs ++ [h]) →
    Verifies C c fakeDiff genesis hs h → Finalizes C c genesis hs h → VerifiedChain (hs ++ [h])

structure AdminChain (hs : List Header) : Prop where
  admin : c.adminFeeMode = true
  verified : VerifiedChain C c fakeDiff genesis hs

/-- The set is the one of genesis, and somebody's turn it always is. -/
def KeepsGenesisSet (vs : Slice Address) (s : Snapshot) : Prop :=
  s.validators = ValidatorSet.ofSlice vs ∧
    ∀ number validator, ∃ turn, inturn s number validator = .ok turn

/-- The headers that start an epoch and enter a snapshot list the validators of
genesis, in any order. -/
def AnnouncesGenesisSet (vs : Slice Address) (hs : List Header) : Prop :=
  ∀ hs' h s, hs' ++ [h] <+: hs → fromGenesis C c.config genesis (hs' ++ [h]) = .ok s →
    s.IsEpoch s.number → ∃ vs', extraValidators h.extra = .ok vs' ∧
      ValidatorSet.ofSlice vs' = ValidatorSet.ofSlice vs

end

variable {C : Crypto} {c : Posa ω} {fakeDiff : Bool} {genesis : Header} {hs : List Header}

theorem VerifiedChain.of_prefix (h : VerifiedChain C c fakeDiff genesis hs)
    (hp : hs' <+: hs) : VerifiedChain C c fakeDiff genesis hs' := by
  induction h with
  | genesis =>
    rw [prefix_nil.mp hp]
    exact .genesis
  | extend hc hlink hv hf ih =>
    rcases prefix_concat_iff.mp hp with rfl | hp
    · exact .extend hc hlink hv hf
    · exact ih hp

variable {h : Header} {s : Snapshot} {vs : Slice Address}

theorem snapshotOn_parent {number} (hlink : HeaderChain C genesis (hs ++ [h]))
    (hn : numberU64 h = .ok number) :
    snapshotOn C c.config genesis hs (number - 1) h.parentHash = fromGenesis C c.config genesis hs := by
  generalize hl : hs ++ [h] = l at hlink
  cases hlink with
  | genesis _ => exact (append_ne_nil_of_right_ne_nil hs (cons_ne_nil h []) hl).elim
  | extend _ hlt hnum hparent =>
    obtain ⟨rfl, hh⟩ := append_inj' hl rfl
    cases hh
    rw [hn, ok.injEq] at hnum
    have hlen : (number - 1).toNat = hs.length := by
      have hone : (1 : UInt64) ≤ number := by
        rw [le_iff_toNat_le, hnum, toNat_ofNat', mod_eq_of_lt hlt]
        exact le_add_left 1 hs.length
      rw [UInt64.toNat_sub_of_le _ _ hone, hnum, toNat_ofNat', mod_eq_of_lt hlt]
      rfl
    rw [snapshotOn, hlen, take_length, if_pos ⟨rfl, hparent.symm⟩]

theorem verifies_snapshot (hlink : HeaderChain C genesis (hs ++ [h]))
    (hv : Verifies C c fakeDiff genesis hs h) : ∃ s, fromGenesis C c.config genesis hs = .ok s := by
  have hnum := hlink.tip_number
  rw [tip_append, length_append] at hnum
  have hlt := hlink.length_lt
  rw [length_append] at hlt
  obtain ⟨now, parents, hv⟩ := hv
  have hseal := verifyHeader_seal hnum (ofNat_succ_ne_zero hlt) hv
  obtain ⟨number, hn, hseal⟩ := bind_eq_ok.mp hseal
  split at hseal
  · cases hseal
  obtain ⟨s, hs, _⟩ := bind_eq_ok.mp hseal
  refine ⟨s, ?_⟩
  rw [← snapshotOn_parent hlink hn]
  exact hs

theorem applyOne_validators {s'} (ha : applyOne C s h = .ok s') :
    (¬ s'.IsEpoch s'.number ∧ s'.validators = s.validators) ∨
      (s'.IsEpoch s'.number ∧ ∃ vs, extraValidators h.extra = .ok vs ∧
        s'.validators = ValidatorSet.ofSlice vs) := by
  obtain ⟨hn, t, ht, rfl⟩ := applyOne_eq_ok.mp ha
  obtain ⟨n, v, s₁, hn', _, hs, hc⟩ := applyHeader_eq_ok.mp ht
  rw [hn, ok.injEq] at hn'
  subst hn'
  obtain ⟨_, _, rfl⟩ := recordSigner_eq_ok.mp hs
  obtain ⟨_, ⟨hno, rfl⟩ | ⟨hyes, vs, hvs, rfl⟩⟩ := checkpoint_eq_ok.mp hc
  · exact .inl ⟨hno, rfl⟩
  · exact .inr ⟨hyes, vs, hvs, rfl⟩

theorem fromGenesis_nil_validators {config} (hvs : extraValidators genesis.extra = .ok vs) :
    fromGenesis C config genesis [] = .ok (newSnapshot config 0 (genesis.hash C) vs) := by
  rw [fromGenesis, checkpointSnapshot, hvs]
  rfl

theorem AnnouncesGenesisSet.validators
    (hvs : extraValidators genesis.extra = .ok vs) (ha : AnnouncesGenesisSet C c genesis vs hs) (hp : hs' <+: hs)
    (h : fromGenesis C c.config genesis hs' = .ok s) : s.validators = ValidatorSet.ofSlice vs := by
  induction hs' using reverseRecOn generalizing s with
  | nil =>
    rw [fromGenesis_nil_validators hvs] at h
    cases h
    rfl
  | append_singleton hs' hd ih =>
    obtain ⟨s₀, h₀, hr⟩ := fromGenesis_append.mp h
    rcases applyOne_validators (replay_singleton.mp hr) with ⟨_, hsame⟩ | ⟨hepoch, vs₁, hvs₁, hset⟩
    · rw [hsame]
      exact ih ((prefix_append hs' [hd]).trans hp) h₀
    obtain ⟨vs', hvs', heq⟩ := ha hs' hd s hp h hepoch
    rw [hvs₁, ok.injEq] at hvs'
    rw [hset, hvs', heq]

theorem ofSlice_members_eq_empty : (ValidatorSet.ofSlice vs).members = ∅ ↔ vs.data = [] := by
  rw [ValidatorSet.ofSlice, toFinset_eq_empty_iff]

theorem sorted_length_eq_zero : s.sorted.length = 0 ↔ s.validators.members = ∅ := by
  rw [Snapshot.sorted, Finset.length_sort, Finset.card_eq_zero]

theorem inturn_isOk :
    (∀ number validator, ∃ turn, inturn s number validator = .ok turn) ↔ s.validators.members ≠ ∅ := by
  rw [ne_eq, ← sorted_length_eq_zero]
  constructor
  · intro h hzero
    obtain ⟨turn, hturn⟩ := h 0 (zeros 20)
    rw [inturn, if_pos hzero] at hturn
    cases hturn
  intro hne number validator
  rw [inturn, if_neg hne]
  exact ⟨_, rfl⟩

/-- On a chain with a fee receiver the validators stay those of genesis exactly
when every epoch header happens to list them. -/
theorem adminChain_keeps_iff {vs : Slice Address} (hvs : extraValidators genesis.extra = .ok vs)
    (hc : AdminChain C c fakeDiff genesis hs) :
    (∀ hs' h, hs' ++ [h] <+: hs → ∃ s, fromGenesis C c.config genesis hs' = .ok s) ∧
    ((∀ hs' s, hs' <+: hs → fromGenesis C c.config genesis hs' = .ok s → KeepsGenesisSet vs s) ↔
      vs.data ≠ [] ∧ AnnouncesGenesisSet C c genesis vs hs) := by
  refine ⟨?_, ?_, ?_⟩
  · intro hs' h hp
    generalize hl : hs' ++ [h] = l at hp
    cases hc.verified.of_prefix hp with
    | genesis => exact (append_ne_nil_of_right_ne_nil hs' (cons_ne_nil h []) hl).elim
    | extend _ hlink hv _ =>
      obtain ⟨rfl, hh⟩ := append_inj' hl rfl
      exact verifies_snapshot hlink hv
  · intro hkeeps
    constructor
    · obtain ⟨_, hturn⟩ := hkeeps [] _ nil_prefix (fromGenesis_nil_validators hvs)
      rw [inturn_isOk, newSnapshot, ne_eq, ofSlice_members_eq_empty] at hturn
      exact hturn
    intro hs' h s hp hs hepoch
    obtain ⟨s₀, _, hr⟩ := fromGenesis_append.mp hs
    rcases applyOne_validators (replay_singleton.mp hr) with ⟨hno, _⟩ | ⟨_, vs', hvs', hset⟩
    · exact absurd hepoch hno
    · exact ⟨vs', hvs', hset.symm.trans (hkeeps _ s hp hs).1⟩
  rintro ⟨hne, ha⟩ hs' s hp hs
  have hset := ha.validators hvs hp hs
  refine ⟨hset, inturn_isOk.mpr ?_⟩
  rw [hset, ne_eq, ofSlice_members_eq_empty]
  exact hne

def adminPosa (epoch : UInt64) : Posa Unit :=
  { samplePosa false with
    chainConfig := istanbulConfig (some ⟨3, epoch, false, some addressTwo⟩)
    config := engineConfig ⟨3, epoch, false, some addressTwo⟩
    config_eq := ⟨_, rfl, rfl⟩ }

theorem sampleGenesis_lists : extraValidators sampleGenesis.extra = .ok sampleListed := by
  decide +kernel

theorem adminChain_extend {epoch} {C : Crypto} {fakeDiff} {genesis h : Header} {hs : List Header}
    (hc : VerifiedChain C (adminPosa epoch) fakeDiff genesis hs) (hlink : HeaderChain C genesis (hs ++ [h]))
    (hver : verifyHeader C (onChain C (adminPosa epoch) genesis hs) h fakeDiff 6 [] = .ok ())
    (hadmin : (adminPosa epoch).adminFeeMode = true)
    (hfin : okAnd (fun _ => true)
      (finalize C (onChain C (adminPosa epoch) genesis hs) h [] [] [] sampleState) = true) : AdminChain C (adminPosa epoch) fakeDiff genesis (hs ++ [h]) := by
  obtain ⟨fin, w', hok, _⟩ := exists_ok_of_okAnd hfin
  exact ⟨hadmin, .extend hc hlink ⟨6, [], hver⟩ ⟨[], [], [], sampleState, fin, w', hok⟩⟩

/-- The first block lists nobody, though it starts an epoch. -/
theorem sampleAdminChain : AdminChain sampleCrypto (adminPosa 1) false sampleGenesis [firstBlock.header] :=
  adminChain_extend .genesis sampleChain (by decide +kernel) rfl (by decide +kernel)

theorem pairAdminChain :
    AdminChain pairCrypto (adminPosa 2) true pairGenesis [pairOne.header, pairTwo.header] :=
  adminChain_extend (adminChain_extend .genesis pairChain_one (by decide +kernel) rfl (by decide +kernel)).verified
    pairChain (by decide +kernel) rfl (by decide +kernel)

theorem pair_fits : [addressOne, addressTwo].length < 2 ^ 63 := by decide

def pairListed : Slice Address := ⟨[addressOne, addressTwo], pair_fits⟩

/-- The second block starts an epoch and lists both validators, so that the set stays. -/
theorem adminChain_keeps_second : ∃ s, fromGenesis pairCrypto (adminPosa 2).config pairGenesis
      [pairOne.header, pairTwo.header] = .ok s ∧ s.IsEpoch s.number ∧ KeepsGenesisSet pairListed s := by
  obtain ⟨s₁, hs₁, hno⟩ := exists_ok_of_any (p := fun s : Snapshot => decide (¬ s.IsEpoch s.number))
    (x := fromGenesis pairCrypto (adminPosa 2).config pairGenesis [pairOne.header]) (by decide +kernel)
  obtain ⟨s, hs, hyes⟩ := exists_ok_of_any (p := fun s : Snapshot => decide (s.IsEpoch s.number))
    (x := fromGenesis pairCrypto (adminPosa 2).config pairGenesis [pairOne.header, pairTwo.header])
    (by decide +kernel)
  have hlists : extraValidators pairGenesis.extra = .ok pairListed := by decide +kernel
  obtain ⟨_, hiff⟩ := adminChain_keeps_iff hlists pairAdminChain
  refine ⟨s, hs, of_decide_eq_true hyes, hiff.mpr ⟨by decide, ?_⟩ _ s (prefix_refl _) hs⟩
  intro hs' h s' hp hok hepoch
  rcases prefix_concat_iff.mp (show hs' ++ [h] <+: [pairOne.header] ++ [pairTwo.header] from hp) with hall | hp
  · obtain ⟨rfl, hh⟩ := append_inj' hall rfl
    obtain rfl : h = pairTwo.header := by simpa using hh
    exact ⟨pairListed, by decide +kernel, rfl⟩
  · -- the first block is not the start of an epoch
    rcases prefix_concat_iff.mp (show hs' ++ [h] <+: [] ++ [pairOne.header] from hp) with hall | hnil
    · rw [hall, nil_append, hs₁, ok.injEq] at hok
      rw [← hok] at hepoch
      exact absurd hepoch (of_decide_eq_true hno)
    · exact absurd hnil (by simp)

/-- The sealer of the first epoch block left the list empty, and everybody
accepts the block. From then on nobody can be in turn. -/
theorem adminChain_loses_validators :
    AdminChain sampleCrypto (adminPosa 1) false sampleGenesis [firstBlock.header] ∧
    extraValidators sampleGenesis.extra = .ok sampleListed ∧
    ∃ s, fromGenesis sampleCrypto (adminPosa 1).config sampleGenesis [firstBlock.header] = .ok s ∧
      s.validators.members = ∅ ∧ inturn s 2 addressOne = .error (.panicked .divideByZero) ∧
      ¬ KeepsGenesisSet sampleListed s := by
  obtain ⟨s, hs, hempty⟩ := exists_ok_of_any (p := fun s : Snapshot => decide (s.validators.members = ∅))
    (x := fromGenesis sampleCrypto (adminPosa 1).config sampleGenesis [firstBlock.header])
    (by decide +kernel)
  have hnone := of_decide_eq_true hempty
  refine ⟨sampleAdminChain, sampleGenesis_lists, s, hs, hnone, ?_, ?_⟩
  · rw [inturn, if_pos (sorted_length_eq_zero.mpr hnone)]
  rintro ⟨_, hturn⟩
  exact inturn_isOk.mp hturn hnone

end Geth.Congress.AdminMode
