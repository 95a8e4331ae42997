import Geth.Congress.Assembly

namespace Geth.Congress.Punishment

open Lib.BigEndian Common.Basic Types.Block Params.Config
open SnapshotApply SealSpacing VerifySeal SystemCalls List Nat Lib.Recency
open Assembly (samplePosa)

/-- Whom the block after a snapshot gets punished: its in-turn validator, unless that one is
among the recent signers. -/
def punished (snap : Snapshot) (number : UInt64) : Option Address :=
  let validators := snap.sorted
  let outTurnValidator := validators.getD (number % UInt64.ofNat validators.length).toNat (zeros 20)
  if SignedRecently snap.recents outTurnValidator then none else some outTurnValidator

theorem length_sorted (s : Snapshot) : s.sorted.length = s.validators.members.card :=
  Finset.length_sort _

variable {n : UInt64} {v : Address}

theorem inturn_spec {s} (h : inturn s n v = .ok true) : v ∈ s.sorted ∧ n.toNat % s.sorted.length = s.sorted.idxOf v ∧
    (n % UInt64.ofNat s.sorted.length).toNat = s.sorted.idxOf v := by
  have hfits (k) (hk : k ≤ s.sorted.length) : (UInt64.ofNat k).toNat = k := by
    rw [length_sorted] at hk
    exact UInt64.toNat_ofNat_of_lt' ((hk.trans_lt s.validators.len_lt).trans (by decide))
  rw [inturn] at h
  split at h
  next => cases h
  next hne =>
    have hturn := congrArg UInt64.toNat (of_decide_eq_true (Except.ok.inj h))
    rw [hfits _ idxOf_le_length] at hturn
    have hmod := hturn
    rw [UInt64.toNat_mod, hfits _ le_rfl] at hmod
    refine ⟨idxOf_lt_length_iff.mp ?_, hmod, hturn⟩
    rw [← hmod]
    exact mod_lt _ (Nat.pos_of_ne_zero hne)

theorem inturn_eq_true {s} (h : inturn s n v = .ok true) :
    s.sorted.length ≠ 0 ∧ s.sorted.getD (n % UInt64.ofNat s.sorted.length).toNat (zeros 20) = v := by
  obtain ⟨hmem, -, hturn⟩ := inturn_spec h
  have hlt := idxOf_lt_length_iff.mpr hmem
  refine ⟨by omega, ?_⟩
  rw [hturn, getD_eq_getElem?_getD, getElem?_eq_getElem hlt, Option.getD_some, getElem_idxOf]

def punishOne {ω : Type} (c : Posa ω) (header : Header) : Option Address → Sys ω Unit
  | none => return ()
  | some v => c.punishValidator v header

theorem tryPunishValidator_eq {ω : Type} (c : Posa ω) {header} {s}
    (hn : numberU64 header = .ok n) (hsnap : c.snapshot (n - 1) header.parentHash = .ok s)
    (hne : s.sorted.length ≠ 0) :
    c.tryPunishValidator header = punishOne c header (punished s n) := by
  have hnumber : ofExcept ((numberU64 header).mapError SysError.consensus) = (pure n : Sys ω UInt64) := by
    rw [hn]
    rfl
  have hsnapshot : ofExcept ((c.snapshot (n - 1) header.parentHash).mapError SysError.consensus) =
      (pure s : Sys ω Snapshot) := by
    rw [hsnap]
    rfl
  rw [Posa.tryPunishValidator, hnumber, pure_bind, hsnapshot, pure_bind, punished]
  dsimp only
  rw [if_neg hne]
  split <;> rfl

variable {C : Crypto} {config : CongressConfig} {number : UInt64} {hash : Hash}
  {validators : Slice Address} {hs : List Header} {s : Snapshot}

theorem signedRecently_split {r} {limit} : SignedRecently r v ↔
      SignedRecently (dropOldest r n limit) v ∨ r.lookup (n - limit) = some v := by
  simp only [signedRecently_iff, lookup_dropOldest]
  constructor
  · rintro ⟨k, hk⟩
    by_cases heq : k = n - limit
    · exact .inr (heq ▸ hk)
    · exact .inl ⟨k, fun hold => heq hold.2, hk⟩
  rintro (⟨k, -, hk⟩ | hk)
  · exact ⟨k, hk⟩
  · exact ⟨_, hk⟩

/-- The block that leaves the window was not signed by one who is still in it. -/
theorem not_barred_of_oldest (hspacing : (denote s).Spacing) (hlimit : s.validators.limit ≤ s.number + 1)
    (hold : s.recents.lookup (s.number + 1 - s.validators.limit) = some v) : ¬ Barred s v := by
  rw [Barred, signedRecently_iff]
  rintro ⟨k, hk⟩
  rw [lookup_dropOldest] at hk
  have hspaced := spacing_iff.mp hspacing
  have hsame := hspaced.distinct _ _ v (view_eq_some.mpr ⟨k, rfl, hk.2⟩) (view_eq_some.mpr ⟨_, rfl, hold⟩)
  exact hk.1 ⟨hlimit, UInt64.toNat_inj.mp (by exact_mod_cast hsame)⟩

/-- The in-turn validator is punished exactly when the verifier would have let it seal, unless
it sealed the block that leaves the window, or any block of a chain shorter than the window. -/
theorem punished_iff_allowed
    (hr : Applied C (newSnapshot (engineConfig config) number hash validators) hs s)
    (hlt : number.toNat + hs.length + 1 < 2 ^ 64) {v : Address}
    (hv : inturn s (s.number + 1) v = .ok true) {ω : Type} (c : Posa ω) {header : Header}
    (hn : numberU64 header = .ok (s.number + 1))
    (hsnap : c.snapshot s.number header.parentHash = .ok s) :
    c.tryPunishValidator header = punishOne c header (punished s (s.number + 1)) ∧
    ((punished s (s.number + 1) = some v ↔ ¬ SeenSince s (s.number + 1) v) ↔
      ¬ ((s.number + 1 < s.validators.limit ∧ SignedRecently s.recents v) ∨
        (s.validators.limit ≤ s.number + 1 ∧
          s.recents.lookup (s.number + 1 - s.validators.limit) = some v))) := by
  have hreached : Reached C number hs s :=
    reached_replay rfl hs (by exact lt_of_succ_lt hlt) hr.replay
  have hnext : s.number.toNat + 1 < 2 ^ 64 := by rw [hreached.number]; exact hlt
  obtain ⟨hne, hturn⟩ := inturn_eq_true hv
  have hpunished : punished s (s.number + 1) = some v ↔ ¬ SignedRecently s.recents v := by
    rw [punished, hturn]
    split
    next h => simp [h]
    next h => simp [h]
  constructor
  · apply tryPunishValidator_eq c hn _ hne
    rw [UInt64.add_sub_cancel]
    exact hsnap
  rw [hpunished, not_iff_not, seenSince_iff hreached.spacing hnext,
    mustWait_iff_barred hreached.spacing hnext]
  by_cases hshort : s.number + 1 < s.validators.limit
  · have hnot := UInt64.not_le.mpr hshort
    simp [hshort, hnot]
  have hlimit := UInt64.not_lt.mp hshort
  have hsplit : SignedRecently s.recents v ↔ Barred s v ∨
      s.recents.lookup (s.number + 1 - s.validators.limit) = some v := signedRecently_split
  have hexcl := not_barred_of_oldest hreached.spacing (v := v) hlimit
  by_cases hold : s.recents.lookup (s.number + 1 - s.validators.limit) = some v
  · have hfree := hexcl hold
    simp [hlimit, hsplit, hold, hfree]
  · simp [hlimit, hshort, hsplit, hold]

theorem sorted_eq {vs} (h : s.validators.members = vs.toFinset) (hnodup : vs.Nodup)
    (hsorted : vs.Pairwise (· ≤ ·)) : s.sorted = vs := by
  rw [Snapshot.sorted, h]
  exact (toFinset_sort (· ≤ ·) hnodup).mpr hsorted

/-- A first block out of turn. -/
def blockOneEarly : Recorded where
  header :=
    { sampleSealed 1 addressTwo
        ⟨List.replicate 32 0 ++ (ofNat 65 0xf8a14c729d67daa0c8e87d50f9cde2db6fc1a7dc5fac22f067ff23a988faabd6511e3dcb42562d2a756bdb35dd260721bbff196d90f5e97617ecadeead383c2700).toList, by simp⟩ with
      difficulty := some 1 }
  sealHash := hexToHash 0x2161762d43056f8fc3dc148c397b8f7d44be254b9d8920d1f75dc145e0fda1b4
  hash := hexToHash 0x5e6ae745a9ca165c4a912e132e749031600d030f056dadbe00632dc7067453d4
  pub := pubTwo

def blockTwoEarly : Recorded where
  header :=
    { sampleSealed 2 addressOne
        ⟨List.replicate 32 0 ++ (ofNat 65 0x2768356f8dbf2dd8fca91aac2fbf413f2d9621b9214b6f1fb105bad036e1412473924180c642e00cf57cc56052b3abb00690bc7db047da475405239b0557131b00).toList, by simp⟩ with
      difficulty := some 1 }
  sealHash := hexToHash 0xda0d1e58d8cb0f79760543430e8483be5ca7631a9b36224564ec1019e3bedf9b
  hash := hexToHash 0xa18db98e83c51b23653441951f20a7727729ca2e1e96d065495068e965c0ce70
  pub := pubOne

def addressThree : Address := hexToAddress 0xf000000000000000000000000000000000000003

/-- With three validators the second one may seal block three after block one, and so may the third,
but the second is not punished when the third takes its turn. -/
theorem punished_misses_oldest : ∃ s,
    Applied (recordedCrypto sampleKeys [blockOneEarly, blockTwoEarly])
      (newSnapshot (engineConfig (sampleConfig 200)) 0 (zeros 32)
        ⟨[addressOne, addressTwo, addressThree], by decide⟩) [blockOneEarly.header, blockTwoEarly.header] s ∧
    s.number = 2 ∧ inturn s 3 addressTwo = .ok true ∧ punished s 3 = none ∧
    ¬ SeenSince s 3 addressTwo ∧ checkSigner s 3 addressThree = .ok () := by
  obtain ⟨s, hs, hp⟩ := exists_applied (recordedCrypto sampleKeys [blockOneEarly, blockTwoEarly])
    (newSnapshot (engineConfig (sampleConfig 200)) 0 (zeros 32)
      ⟨[addressOne, addressTwo, addressThree], by decide⟩) [blockOneEarly.header, blockTwoEarly.header]
    (fun s => decide (s.number = 2 ∧
      s.validators.members = [addressTwo, addressOne, addressThree].toFinset ∧
      SignedRecently s.recents addressTwo ∧ ¬ SeenSince s 3 addressTwo ∧
      checkSigner s 3 addressThree = .ok ())) (by decide +kernel)
  obtain ⟨hnum, hmembers, hsigned, hseen, hother⟩ := of_decide_eq_true hp
  have hsorted := sorted_eq hmembers (by decide) (by decide)
  refine ⟨s, hs, hnum, ?_, ?_, hseen, hother⟩
  · rw [inturn, hsorted]
    decide
  rw [punished, hsorted]
  exact if_pos hsigned

/-- With five validators the third in order is punished for block two. -/
theorem punished_iff_allowed_sample : ∃ s,
    Applied (recordedCrypto sampleKeys [blockOne, blockTwo])
      (newSnapshot (engineConfig (sampleConfig 200)) 0 (zeros 32) fiveValidators)
      [blockOne.header] s ∧
    punished s (s.number + 1) = some (hexToAddress 5) ∧ ¬ SeenSince s (s.number + 1) (hexToAddress 5) := by
  obtain ⟨s, hs, hp⟩ := exists_applied (recordedCrypto sampleKeys [blockOne, blockTwo])
    (newSnapshot (engineConfig (sampleConfig 200)) 0 (zeros 32) fiveValidators)
    [blockOne.header]
    (fun s => decide (s.number = 1 ∧ s.validators.members =
        [hexToAddress 3, hexToAddress 4, hexToAddress 5, addressTwo, addressOne].toFinset ∧
      ¬ SignedRecently s.recents (hexToAddress 5) ∧ s.validators.limit = 3)) (by decide +kernel)
  obtain ⟨hnum, hmembers, hsigned, hlimit⟩ := of_decide_eq_true hp
  have hsorted := sorted_eq hmembers (by decide) (by decide)
  have hnext : s.number + 1 = 2 := by rw [hnum]; rfl
  have hturn : inturn s (s.number + 1) (hexToAddress 5) = .ok true := by
    rw [inturn, hsorted, hnext]
    decide
  have hpunished : punished s (s.number + 1) = some (hexToAddress 5) := by
    rw [punished, hsorted, hnext]
    exact if_neg hsigned
  have hnumber : numberU64 blockTwo.header = .ok (s.number + 1) := by
    rw [hnext]
    decide
  have hboth := punished_iff_allowed hs (by decide) hturn
    { samplePosa false with snapshot := fun _ _ => .ok s } hnumber rfl
  have hiff := hboth.2.mpr (by
    rintro (⟨-, h⟩ | ⟨h, -⟩)
    · exact hsigned h
    rw [hlimit, hnext] at h
    exact absurd h (by decide))
  exact ⟨s, hs, hpunished, hiff.mp hpunished⟩

theorem le_of_inturn {s} {k : UInt64} (hk : inturn s k v = .ok true) (hn : inturn s n v = .ok true)
    (hlt : n.toNat < k.toNat + s.sorted.length) : n.toNat ≤ k.toNat := by
  have hmod := (inturn_spec hn).2.1.trans (inturn_spec hk).2.1.symm
  have hzero := eq_zero_of_dvd_of_lt (dvd_of_mod_eq_zero (sub_mod_eq_zero_of_mod_eq hmod))
  omega

/-- On a chain whose blocks are all sealed in turn, nobody who is in turn has to wait. -/
theorem inturn_admitted {C : Crypto} {config : CongressConfig} {number : UInt64} {hash : Hash}
    {validators : Slice Address} {hs : List Header} {s : Snapshot} {v : Address}
    (hr : Applied C (newSnapshot (engineConfig config) number hash validators) hs s)
    (hlt : number.toNat + hs.length + 1 < 2 ^ 64)
    (hturns : ∀ k w, BlockSigner C number hs k w → inturn s k w = .ok true)
    (hv : inturn s (s.number + 1) v = .ok true) :
    checkSigner s (s.number + 1) v = .ok () ∧ sealAllowed s (s.number + 1) v = .ok true := by
  have hreached : Reached C number hs s := reached_replay rfl hs (by exact lt_of_succ_lt hlt) hr.replay
  have hnext : s.number.toNat + 1 < 2 ^ 64 := by rw [hreached.number]; exact hlt
  have hmem : v ∈ s.validators.members := (Finset.mem_sort _).mp (inturn_spec hv).1
  have hfree : ¬ MustWait s (s.number + 1) v := by
    rw [mustWait_iff_barred hreached.spacing hnext, Barred, signedRecently_iff]
    rintro ⟨k, hk⟩
    have hbarring := view_eq_some.mpr ⟨k, rfl, hk⟩
    rw [view_barring hreached.spacing hnext] at hbarring
    have hwindow := barring_window hreached.spacing hbarring
    rw [lookup_dropOldest] at hk
    have hle := le_of_inturn (hturns k v (hreached.signer k v hk.2)) hv
    rw [toNat_succ hnext, length_sorted] at hle
    have hpos := Finset.card_pos.mpr ⟨v, hmem⟩
    simp only [denote, State.limit] at hwindow
    omega
  rw [checkSigner_eq_ok, sealAllowed_eq_true, seenSince_iff hreached.spacing hnext]
  exact ⟨⟨hmem, fun h => hfree h.2⟩, hmem, hfree⟩

/-- After two blocks in turn the first of two validators may seal the third. -/
theorem inturn_admitted_third : ∃ s,
    Applied (recordedCrypto sampleKeys [blockOne, blockTwo])
      (newSnapshot (engineConfig (sampleConfig 200)) 0 (zeros 32) ⟨[addressOne, addressTwo], by decide⟩)
      [blockOne.header, blockTwo.header] s ∧
    s.number = 2 ∧ checkSigner s (s.number + 1) addressOne = .ok () ∧
    sealAllowed s (s.number + 1) addressOne = .ok true := by
  obtain ⟨s, hs, hp⟩ := exists_applied (recordedCrypto sampleKeys [blockOne, blockTwo])
    (newSnapshot (engineConfig (sampleConfig 200)) 0 (zeros 32) ⟨[addressOne, addressTwo], by decide⟩)
    [blockOne.header, blockTwo.header]
    (fun s => decide (s.number = 2 ∧ s.validators.members = [addressTwo, addressOne].toFinset)) (by decide +kernel)
  obtain ⟨hnum, hmembers⟩ := of_decide_eq_true hp
  have hsorted := sorted_eq hmembers (by decide) (by decide)
  have hone : ecrecover (recordedCrypto sampleKeys [blockOne, blockTwo]) blockOne.header = .ok addressOne := by
    decide +kernel
  have htwo : ecrecover (recordedCrypto sampleKeys [blockOne, blockTwo]) blockTwo.header = .ok addressTwo := by
    decide +kernel
  refine ⟨s, hs, hnum, inturn_admitted hs (by decide) ?_ ?_⟩
  · rintro k w ⟨i, h, hi, hk, hn, hw⟩
    rw [inturn, hsorted]
    rcases i with - | _ | i
    · cases hi
      cases hn
      cases hone.symm.trans hw
      decide
    · cases hi
      cases hn
      cases htwo.symm.trans hw
      decide
    · cases hi
  · rw [inturn, hsorted, hnum]
    decide

end Geth.Congress.Punishment
