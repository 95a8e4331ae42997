import Geth.Congress.SnapshotApply
import Geth.Lib.Recency

namespace Geth.Congress.SealSpacing

open Lib.BigEndian Lib.Recency Common.Basic Types.Block Params.Config SnapshotApply List Nat UInt64 Option

def view (r : Recents) : History Address :=
  fun k => if 0 ≤ k ∧ k < 2 ^ 64 then r.lookup (UInt64.ofNat k.toNat) else none

def denote (s : Snapshot) : State Address where
  height := s.number.toNat
  members := s.validators.members
  recent := view s.recents

theorem denote_height (s : Snapshot) : (denote s).height = s.number.toNat := rfl

theorem denote_recent (s : Snapshot) : (denote s).recent = view s.recents := rfl

/-- The rule that keeps a validator from sealing the next block. -/
def Barred (s : Snapshot) (v : Address) : Prop :=
  SignedRecently (dropOldest s.recents (s.number + 1) s.validators.limit) v

instance (s : Snapshot) (v : Address) : Decidable (Barred s v) :=
  inferInstanceAs (Decidable (SignedRecently _ _))

variable {r : Recents} {k number limit : UInt64} {v : Address} {s : Snapshot} {C : Crypto}
    {hs : List Header} {s' : Snapshot} {h : Header} {start : UInt64}

theorem view_eq_some {k : ℤ} :
    view r k = some v ↔ ∃ key : UInt64, (key.toNat : ℤ) = k ∧ r.lookup key = some v := by
  constructor
  · intro h
    by_cases hk : 0 ≤ k ∧ k < 2 ^ 64
    · rw [view, if_pos hk] at h
      refine ⟨ofNat k.toNat, ?_, h⟩
      rw [toNat_ofNat', mod_eq_of_lt (by omega)]
      omega
    rw [view, if_neg hk] at h
    cases h
  rintro ⟨key, rfl, h⟩
  have hlt := key.toNat_lt
  rw [view, if_pos ⟨by omega, by omega⟩, Int.toNat_natCast, UInt64.ofNat_toNat]
  exact h

theorem history_ext {r r' : History Address} (h : ∀ k v, r k = some v ↔ r' k = some v) : r = r' := by
  funext k
  exact ext (h k)

theorem lookup_erase_eq_some {a} : (r.erase a).lookup k = some v ↔ k ≠ a ∧ r.lookup k = some v := by
  by_cases h : k = a
  · subst k; simp
  · simp [h, Finmap.lookup_erase_ne h]

theorem lookup_dropOldest : (dropOldest r number limit).lookup k = some v ↔
      ¬ (limit ≤ number ∧ k = number - limit) ∧ r.lookup k = some v := by
  by_cases h : limit ≤ number
  · simp [dropOldest, h, lookup_erase_eq_some]
  · simp [dropOldest, h]

theorem lookup_pruneRecents (c : ℕ) : (pruneRecents r number limit c).lookup k = some v ↔
      (∀ i < c, k ≠ number - limit - UInt64.ofNat i) ∧ r.lookup k = some v := by
  induction c with
  | zero => simp [pruneRecents]
  | succ c ih =>
    rw [pruneRecents, lookup_erase_eq_some, ih]
    constructor
    · rintro ⟨hc, hlt, h⟩
      refine ⟨fun i hi => ?_, h⟩
      rcases Nat.lt_succ_iff_lt_or_eq.mp hi with hi | rfl
      · exact hlt i hi
      · exact hc
    rintro ⟨hlt, h⟩
    exact ⟨hlt c (lt_succ_self c), fun i hi => hlt i (lt_succ_of_lt hi), h⟩

theorem signedRecently_iff : SignedRecently r v ↔ ∃ k, r.lookup k = some v := by
  constructor
  · rintro ⟨k, _, h⟩
    exact ⟨k, h⟩
  rintro ⟨k, h⟩
  refine ⟨k, ?_, h⟩
  rw [Finmap.mem_keys]
  exact Finmap.mem_of_lookup_eq_some h

theorem signedRecently_iff_view : SignedRecently r v ↔ ∃ k, view r k = some v := by
  rw [signedRecently_iff]
  constructor
  · rintro ⟨k, h⟩
    exact ⟨k.toNat, view_eq_some.mpr ⟨k, rfl, h⟩⟩
  rintro ⟨k, h⟩
  obtain ⟨key, _, hl⟩ := view_eq_some.mp h
  exact ⟨key, hl⟩

theorem limit_toNat (vs : ValidatorSet) :
    vs.limit.toNat = vs.members.card / 2 + 1 ∧ vs.limit.toNat ≤ 2 ^ 62 := by
  have hlt := vs.len_lt
  have h : vs.limit.toNat = vs.members.card / 2 + 1 := by
    rw [ValidatorSet.limit, toNat_ofNat', mod_eq_of_lt (by omega)]
  exact ⟨h, by omega⟩

theorem view_dropOldest {n : ℤ} (hr : Spaced (view r) n limit.toNat) (hn : (number.toNat : ℤ) = n + 1) :
    view (dropOldest r number limit) = keepAfter (n + 1 - limit.toNat) (view r) := by
  apply history_ext
  intro k v
  simp only [keepAfter_eq_some, view_eq_some, lookup_dropOldest]
  constructor
  · rintro ⟨key, rfl, hne, hl⟩
    refine ⟨?_, key, rfl, hl⟩
    have hw := (hr.window key.toNat v (view_eq_some.mpr ⟨key, rfl, hl⟩)).1
    by_contra hle
    have hlim : limit ≤ number := by rw [le_iff_toNat_le]; omega
    apply hne
    refine ⟨hlim, UInt64.toNat_inj.mp ?_⟩
    rw [UInt64.toNat_sub_of_le _ _ hlim]
    omega
  rintro ⟨hlt, key, rfl, hl⟩
  refine ⟨key, rfl, ?_, hl⟩
  rintro ⟨hlim, rfl⟩
  rw [UInt64.toNat_sub_of_le _ _ hlim] at hlt
  rw [le_iff_toNat_le] at hlim
  omega

theorem view_insert (r : Recents) (number : UInt64) (v : Address) :
    view (r.insert number v) = record (view r) number.toNat v := by
  apply history_ext
  intro k w
  rw [record_eq_some, view_eq_some]
  constructor
  · rintro ⟨key, rfl, hl⟩
    by_cases hk : key = number
    · subst key
      rw [Finmap.lookup_insert] at hl
      exact .inl ⟨rfl, some.inj hl⟩
    rw [Finmap.lookup_insert_of_ne _ hk] at hl
    refine .inr ⟨?_, view_eq_some.mpr ⟨key, rfl, hl⟩⟩
    intro he
    exact hk (UInt64.toNat_inj.mp (by omega))
  rintro (⟨rfl, rfl⟩ | ⟨hk, hv⟩)
  · exact ⟨number, rfl, Finmap.lookup_insert _⟩
  obtain ⟨key, rfl, hl⟩ := view_eq_some.mp hv
  have hne : key ≠ number := fun he => hk (congrArg (fun n => (toNat n : ℤ)) he)
  exact ⟨key, rfl, (Finmap.lookup_insert_of_ne _ hne).trans hl⟩

/-- The pruning loop at an epoch cuts the history down to the new window. It
has nothing to do when the window grows. -/
theorem view_pruneRecents {old : ValidatorSet}
    (next : ValidatorSet) (hr : Spaced (view r) number.toNat old.limit.toNat) :
    view (pruneRecents r number next.limit (old.members.card / 2 - next.members.card / 2)) =
      keepAfter (number.toNat - next.limit.toNat) (view r) := by
  obtain ⟨ho, hole⟩ := limit_toNat old
  obtain ⟨hn, hnle⟩ := limit_toNat next
  have hnum := number.toNat_lt
  have hsub (i : ℕ) (hi : i < old.members.card / 2 - next.members.card / 2) :
      ((number - next.limit - UInt64.ofNat i).toNat : ℤ) =
        (number.toNat - next.limit.toNat - i : ℤ) % 2 ^ 64 := by
    rw [UInt64.toNat_sub, UInt64.toNat_sub, toNat_ofNat']
    omega
  apply history_ext
  intro k v
  simp only [keepAfter_eq_some, view_eq_some, lookup_pruneRecents]
  constructor
  · rintro ⟨key, rfl, hne, hl⟩
    refine ⟨?_, key, rfl, hl⟩
    have hw := hr.window key.toNat v (view_eq_some.mpr ⟨key, rfl, hl⟩)
    by_contra hle
    have hi : number.toNat - next.limit.toNat - key.toNat <
        old.members.card / 2 - next.members.card / 2 := by omega
    apply hne _ hi
    have hs := hsub _ hi
    refine UInt64.toNat_inj.mp ?_
    omega
  rintro ⟨hlt, key, rfl, hl⟩
  refine ⟨key, rfl, ?_, hl⟩
  have hw := hr.window key.toNat v (view_eq_some.mpr ⟨key, rfl, hl⟩)
  rintro i hi rfl
  have hs := hsub i hi
  omega

theorem spacing_iff :
    (denote s).Spacing ↔ Spaced (view s.recents) s.number.toNat s.validators.limit.toNat := by
  rw [State.Spacing, State.limit, (limit_toNat s.validators).1]
  rfl

theorem toNat_succ {n : UInt64} (hlt : n.toNat + 1 < 2 ^ 64) : (n + 1).toNat = n.toNat + 1 := by
  rw [UInt64.toNat_add]
  exact mod_eq_of_lt hlt

theorem view_barring (hs : (denote s).Spacing) (hlt : s.number.toNat + 1 < 2 ^ 64) :
    view (dropOldest s.recents (s.number + 1) s.validators.limit) = (denote s).barring := by
  have hn : ((s.number + 1).toNat : ℤ) = s.number.toNat + 1 := by
    rw [toNat_succ hlt]
    rfl
  rw [view_dropOldest (spacing_iff.mp hs) hn, (limit_toNat s.validators).1]
  rfl

theorem barred_iff (hs : (denote s).Spacing) (hlt : s.number.toNat + 1 < 2 ^ 64) :
    Barred s v ↔ ∃ k, (denote s).barring k = some v := by
  rw [Barred, signedRecently_iff_view, view_barring hs hlt]

theorem recordSigner_simulates {s₁ : Snapshot} (hs : (denote s).Spacing)
    (hlt : s.number.toNat + 1 < 2 ^ 64) (ha : recordSigner s (s.number + 1) v = .ok s₁) :
    (denote s).Allowed v ∧ s₁.validators = s.validators ∧
      view s₁.recents = record (denote s).barring (s.number.toNat + 1) v ∧
      Spaced (view s₁.recents) (s.number + 1).toNat s.validators.limit.toNat := by
  obtain ⟨hmem, hr, rfl⟩ := recordSigner_eq_ok.mp ha
  have hallowed : (denote s).Allowed v := by
    refine ⟨hmem, fun k hk => hr ?_⟩
    exact (barred_iff hs hlt).mpr ⟨k, hk⟩
  have hview : view ((dropOldest s.recents (s.number + 1) s.validators.limit).insert (s.number + 1) v)
      = record (denote s).barring (s.number.toNat + 1) v := by
    rw [view_insert, view_barring hs hlt, toNat_succ hlt]
    rfl
  refine ⟨hallowed, rfl, hview, ?_⟩
  have hspaced := Spaced.record hs hallowed
  rw [toNat_succ hlt, hview, (limit_toNat s.validators).1]
  exact hspaced

theorem allowed_iff (hs : (denote s).Spacing) (hlt : s.number.toNat + 1 < 2 ^ 64) :
    (denote s).Allowed v ↔ v ∈ s.validators.members ∧ ¬ Barred s v := by
  rw [barred_iff hs hlt, not_exists]
  rfl

theorem applyOne_simulates (hs : (denote s).Spacing)
    (hlt : s.number.toNat + 1 < 2 ^ 64) (ha : applyOne C s h = .ok s') :
    ∃ v, ecrecover C h = .ok v ∧ (denote s).Allowed v ∧
      denote s' = (denote s).sealBy v s'.validators.members := by
  obtain ⟨hn, t, ht, rfl⟩ := applyOne_eq_ok.mp ha
  obtain ⟨n, v, s₁, hn', hv, hadm, hck⟩ := applyHeader_eq_ok.mp ht
  rw [hn] at hn'
  cases hn'
  obtain ⟨hallowed, hvs, hview, hspaced⟩ := recordSigner_simulates hs hlt hadm
  refine ⟨v, hv, hallowed, ?_⟩
  have hheight : ((s.number + 1).toNat : ℤ) = (denote s).height + 1 := by
    rw [toNat_succ hlt]
    rfl
  have hrecent : view t.recents = keepAfter ((denote s).height + 1 - t.validators.limit.toNat)
        (record (denote s).barring ((denote s).height + 1) v) := by
    obtain ⟨_, ⟨_, rfl⟩ | ⟨_, vs, _, rfl⟩⟩ := checkpoint_eq_ok.mp hck
    · rw [hvs, ← hheight]
      have hcut := hspaced.keepAfter_eq
      rw [hview] at hcut ⊢
      rw [hheight] at hcut ⊢
      exact hcut.symm
    rw [← hvs] at hspaced
    rw [← hheight]
    have hcut := view_pruneRecents (ValidatorSet.ofSlice vs) hspaced
    rw [hview] at hcut
    rw [hheight] at hcut ⊢
    exact hcut
  rw [(limit_toNat t.validators).1] at hrecent
  simp only [denote, State.sealBy, Snapshot.stamp, State.mk.injEq]
  exact ⟨hheight, trivial, hrecent⟩

/-- `v` signed block `k` of the headers that follow block `start`. -/
def BlockSigner (C : Crypto) (start : UInt64) (hs : List Header) (k : UInt64) (v : Address) : Prop :=
  ∃ i h, hs[i]? = some h ∧ k.toNat = start.toNat + i + 1 ∧ numberU64 h = .ok k ∧
    ecrecover C h = .ok v

theorem BlockSigner.append
    (h : BlockSigner C start hs k v) (hs' : List Header) : BlockSigner C start (hs ++ hs') k v := by
  obtain ⟨i, hd, hi, hk, hn, hv⟩ := h
  refine ⟨i, hd, ?_, hk, hn, hv⟩
  have hlt : i < hs.length := (List.getElem?_eq_some_iff.mp hi).1
  rw [getElem?_append_left hlt]
  exact hi

/-- What holds of a snapshot reached from block `start` by applying `hs`. -/
structure Reached (C : Crypto) (start : UInt64) (hs : List Header) (s : Snapshot) : Prop where
  number : s.number.toNat = start.toNat + hs.length
  spacing : (denote s).Spacing
  signer : ∀ k v, s.recents.lookup k = some v → BlockSigner C start hs k v

theorem Reached.applyOne (hr : Reached C start hs s) (hlt : start.toNat + hs.length + 1 < 2 ^ 64)
    (ha : applyOne C s h = .ok s') : Reached C start (hs ++ [h]) s' := by
  have hnlt : s.number.toNat + 1 < 2 ^ 64 := by rw [hr.number]; exact hlt
  obtain ⟨hn, t, _, hs'⟩ := applyOne_eq_ok.mp ha
  obtain ⟨v, hv, hallowed, hden⟩ := applyOne_simulates hr.spacing hnlt ha
  have hnum : s'.number = s.number + 1 := by rw [hs']; rfl
  refine ⟨?_, ?_, ?_⟩
  · rw [hnum, toNat_succ hnlt, hr.number, length_append]
    rfl
  · rw [hden]
    exact Spacing.sealBy hr.spacing hallowed _
  intro k w hk
  have hview : view s'.recents k.toNat = some w := view_eq_some.mpr ⟨k, rfl, hk⟩
  rw [← denote_recent, hden] at hview
  rcases record_eq_some.mp (keepAfter_eq_some.mp hview).2 with ⟨hkn, rfl⟩ | ⟨_, hbar⟩
  · have hkey : k = s.number + 1 := by
      apply UInt64.toNat_inj.mp
      rw [denote_height] at hkn
      rw [toNat_succ hnlt]
      omega
    subst k
    refine ⟨hs.length, h, by simp, ?_, hn, hv⟩
    rw [toNat_succ hnlt, hr.number]
  have hold := (keepAfter_eq_some.mp hbar).2
  rw [denote_recent] at hold
  obtain ⟨key, hkey, hl⟩ := view_eq_some.mp hold
  have he : key = k := UInt64.toNat_inj.mp (by exact_mod_cast hkey)
  subst key
  exact (hr.signer k w hl).append [h]

theorem reached_replay {start} (h0 : start.recents = ∅) (hs : List Header)
    (hlt : start.number.toNat + hs.length < 2 ^ 64) (hr : replay C start hs = .ok s) :
    Reached C start.number hs s := by
  induction hs using reverseRecOn generalizing s with
  | nil =>
    cases hr
    have hnone : ∀ k v, start.recents.lookup k ≠ some v := by simp [h0]
    have hview : ∀ k v, (denote start).recent k ≠ some v := by
      intro k v hk
      rw [denote_recent] at hk
      obtain ⟨key, _, hl⟩ := view_eq_some.mp hk
      exact hnone key v hl
    refine ⟨rfl, ⟨?_, ?_⟩, ?_⟩
    · intro k v hk
      exact (hview k v hk).elim
    · intro j k v hj
      exact (hview j v hj).elim
    intro k v hk
    exact (hnone k v hk).elim
  | append_singleton hs h ih =>
    rw [length_append, length_singleton] at hlt
    obtain ⟨s₁, h₁, ha⟩ := replay_append.mp hr
    rw [replay, foldlM_cons, bind_eq_ok] at ha
    obtain ⟨s₂, ha, hp⟩ := ha
    cases hp
    exact (ih (by omega) h₁).applyOne (by omega) ha

/-- Snapshots that accept the headers `hs` on top of `start`, in batches. -/
inductive Applied (C : Crypto) (start : Snapshot) : List Header → Snapshot → Prop
  | start : Applied C start [] start
  | batch {hs bs : List Header} {s s' : Snapshot} :
    Applied C start hs s → apply C s bs = .ok s' → Applied C start (hs ++ bs) s'

theorem Applied.replay {start} (h : Applied C start hs s) : replay C start hs = .ok s := by
  induction h with
  | start => rfl
  | batch _ ha ih => exact replay_append.mpr ⟨_, ih, apply_iff_replay.mp ha⟩

/-- Seal spacing: the recorded signers lie in the window, are who signed those
blocks, and are distinct, so somebody may always seal the next block. -/
theorem apply_spacing {C : Crypto} {config : CongressConfig} {number : UInt64} {hash : Hash}
    {validators : Slice Address} {hs : List Header} {s : Snapshot}
    (h : Applied C (newSnapshot config number hash validators) hs s)
    (hlt : number.toNat + hs.length < 2 ^ 64) :
    (∀ k v, s.recents.lookup k = some v →
      (s.number.toNat : ℤ) - (s.validators.members.card / 2 + 1 : ℕ) < k.toNat ∧
        k.toNat ≤ s.number.toNat ∧ BlockSigner C number hs k v) ∧
    (∀ j k v, s.recents.lookup j = some v → s.recents.lookup k = some v → j = k) ∧
    (s.number.toNat + 1 < 2 ^ 64 → s.validators.members.Nonempty →
      ∃ v ∈ s.validators.members, ¬ Barred s v) := by
  have hr : Reached C number hs s := reached_replay rfl hs hlt h.replay
  have hlookup : ∀ k v, s.recents.lookup k = some v → (denote s).recent k.toNat = some v := by
    intro k v hk
    rw [denote_recent]
    exact view_eq_some.mpr ⟨k, rfl, hk⟩
  refine ⟨?_, ?_, ?_⟩
  · intro k v hk
    obtain ⟨hlo, hhi⟩ := hr.spacing.window k.toNat v (hlookup k v hk)
    rw [denote_height] at hlo hhi
    exact ⟨hlo, by omega, hr.signer k v hk⟩
  · intro j k v hj hk
    have he := hr.spacing.distinct j.toNat k.toNat v (hlookup j v hj) (hlookup k v hk)
    exact UInt64.toNat_inj.mp (by omega)
  intro hnext hne
  obtain ⟨v, hv⟩ := exists_allowed hr.spacing hne
  obtain ⟨hmem, hbar⟩ := (allowed_iff hr.spacing hnext).mp hv
  exact ⟨v, hmem, hbar⟩

def sampleSealed (number : Int) (coinbase : Address) (extra : Slice UInt8) : Header :=
  { Header.zero with
    coinbase := coinbase
    difficulty := some 2
    number := some number
    extra := extra }

def blockOne : Recorded where
  header := sampleSealed 1 addressOne
    ⟨List.replicate 32 0 ++ (ofNat 65 0x014543ae9930ab5c50eb5bbf58b03084d803136cca1c8bd1091b920a9b85d6167d5e97af4833cbf028398fba3edba54eed2cd62551d5f60be231e493d250244a00).toList, by simp⟩
  sealHash := hexToHash 0x1480669916e26aca2494b91a710d2770863878d3e324a33b948d818e739ae677
  hash := hexToHash 0x5d6e60d5110d34519461db56c85060d52d5b53e94262d3ce90486d6a2972190e
  pub := pubOne

/-- The second block ends an epoch and drops the second validator. -/
def blockTwo : Recorded where
  header := sampleSealed 2 addressTwo
    ⟨List.replicate 32 0 ++ addressOne.toList ++ (ofNat 65 0x3c9c304b89b39536cf6063b1bf1f9dfb0bc052e26091ae4a8155a4fda057b12a03145312d84386060b929886529890dbd7366e20f23e4e52c964cf4e2dbf127001).toList, by simp⟩
  sealHash := hexToHash 0xc889819e3477c7ab0a58e0d94920c971dd27270a1a5fc3540c8aa3c53c68946f
  hash := hexToHash 0x9eaf0e0884282b60b433797590f624d80f59ee0208ee51dbd110134c98e13e7b
  pub := pubTwo

def lastBlock : Recorded where
  header := sampleSealed 18446744073709551615 addressOne
    ⟨List.replicate 32 0 ++ (ofNat 65 0x7fdee920391f67c508cb91931b9d41dc607dbd74d0cd3a77e5a5631410daea27083817357af9027a09ce41d12c89b8bd8f9cd6ccb58e69b0af0631de7757c5df00).toList, by simp⟩
  sealHash := hexToHash 0x8e02f8aae130dfb15d3e1dc824866a7d9222f159ded7a6486ab1a18700c0d0fb
  hash := hexToHash 0x3ab906c8189974ecb2462a653aa32fcdc491cc8354f2c51ab71f861665fc63d9
  pub := pubOne

def blockZero : Recorded where
  header := sampleSealed 0 addressTwo
    ⟨List.replicate 32 0 ++ (ofNat 65 0x2d89620f0c25adf00bafcf1a6afd5072b60efb4a4dbbf12fd3133e67456bd8630f27c92f608a57bad272ffd96453ea54cb968f8540de1371d05878066abfb18400).toList, by simp⟩
  sealHash := hexToHash 0x18db88ef47a5b160869f17b9596a4df78347c1fc5c8006dee1272dfd769e5b5f
  hash := hexToHash 0x39f3dec30ea3c176e8c2bbb4c4dfaa6ce83b570dfd38be9fa17586bd552990c6
  pub := pubTwo

def sampleConfig (epoch : UInt64) : CongressConfig := ⟨3, epoch, false, none⟩

def sampleStart (epoch number : UInt64) : Snapshot :=
  newSnapshot (sampleConfig epoch) number (zeros 32) ⟨[addressOne, addressTwo], by decide⟩

def sampleListed : Slice Address := ⟨[addressOne], by decide⟩

def sampleExtra : Slice UInt8 :=
  ⟨List.replicate 32 0 ++ addressOne.toList ++ List.replicate 65 0, by simp⟩

theorem exists_applied (C : Crypto) (start : Snapshot) (hs : List Header) (p : Snapshot → Bool)
    (h : (apply C start hs).toOption.any p = true) : ∃ s, Applied C start hs s ∧ p s = true := by
  obtain ⟨s, ha, hp⟩ := exists_ok_of_any h
  have hb := Applied.batch Applied.start ha
  rw [nil_append] at hb
  exact ⟨s, hb, hp⟩

/-- The set shrinks from two validators to one at block two, and the one that
is left may seal block three. -/
theorem apply_spacing_shrinking : ∃ s, Applied (recordedCrypto sampleKeys [blockOne, blockTwo])
      (sampleStart 2 0) [blockOne.header, blockTwo.header] s ∧
    s.validators.members = {addressOne} ∧ ∃ v ∈ s.validators.members, ¬ Barred s v := by
  obtain ⟨s, hs, hp⟩ := exists_applied (recordedCrypto sampleKeys [blockOne, blockTwo])
    (sampleStart 2 0) [blockOne.header, blockTwo.header]
    (fun s => decide (s.number = 2 ∧ s.validators.members = {addressOne})) (by decide +kernel)
  obtain ⟨hn, hv⟩ := of_decide_eq_true hp
  refine ⟨s, hs, hv, ?_⟩
  apply (apply_spacing hs (by decide)).2.2
  · rw [hn]
    decide
  rw [hv]
  exact Finset.singleton_nonempty addressOne

/-- Past the largest block number the counter wraps: the key of block
2^64 - 1 stays recorded at block 0 and nobody may seal block 1. -/
theorem apply_spacing_wraps : ∃ s, Applied (recordedCrypto sampleKeys [lastBlock, blockZero])
      (sampleStart 200 18446744073709551614) [lastBlock.header, blockZero.header] s ∧
    (∃ k v, s.recents.lookup k = some v ∧ s.number < k) ∧
    s.validators.members.Nonempty ∧ ∀ v ∈ s.validators.members, Barred s v := by
  obtain ⟨s, hs, hp⟩ := exists_applied (recordedCrypto sampleKeys [lastBlock, blockZero])
    (sampleStart 200 18446744073709551614) [lastBlock.header, blockZero.header]
    (fun s => decide (s.recents.lookup 18446744073709551615 = some addressOne ∧ s.number = 0 ∧
      s.validators.members = {addressOne, addressTwo} ∧ Barred s addressOne ∧ Barred s addressTwo))
    (by decide +kernel)
  obtain ⟨hl, hn, hv, hone, htwo⟩ := of_decide_eq_true hp
  refine ⟨s, hs, ⟨_, _, hl, ?_⟩, ?_, ?_⟩
  · rw [hn]
    decide
  · rw [hv]
    exact Finset.insert_nonempty _ _
  rw [hv]
  simpa using ⟨hone, htwo⟩

end Geth.Congress.SealSpacing
