import Geth.Common.Basic

namespace Geth.Fetcher.TxFetcher

open Lib.BigEndian Common.Basic Function List Nat

def maxTxAnnounces : ℕ := 4096

/-- The maps in which `notify` keeps an announcement. Where only the length of a set is read, an empty one
is not told from one that is not there. -/
structure Stages where
  waitlist : Hash → Option (Finset String)
  waittime : Hash → Option ℤ
  waitslots : String → Finset Hash
  announces : String → Finset Hash
  announced : Hash → Option (Finset String)
  alternates : Hash → Option (Finset String)

def newTxFetcher : Stages := ⟨fun _ => none, fun _ => none, fun _ => ∅, fun _ => ∅, fun _ => none, fun _ => none⟩

section

variable (now : Hash → ℤ) (origin : String)

def track (slots : String → Finset Hash) (hash : Hash) : String → Finset Hash :=
  update slots origin (insert hash (slots origin))

def join (peers : Hash → Option (Finset String)) (hash : Hash) : Hash → Option (Finset String) :=
  update peers hash ((peers hash).map (insert origin))

def noteHash (f : Stages) (hash : Hash) : Stages :=
  if (f.alternates hash).isSome then
    { f with alternates := join origin f.alternates hash, announces := track origin f.announces hash }
  else if (f.announced hash).isSome then
    { f with announced := join origin f.announced hash, announces := track origin f.announces hash }
  else if (f.waitlist hash).isSome then
    { f with waitlist := join origin f.waitlist hash, waitslots := track origin f.waitslots hash }
  else
    { f with
      waitlist := update f.waitlist hash (some {origin})
      waittime := update f.waittime hash (some (now hash))
      waitslots := track origin f.waitslots hash }

def used (f : Stages) : ℕ := (f.waitslots origin).card + (f.announces origin).card

/-- Beyond the limit as many hashes are kept as there are too many. -/
def capped (used : ℕ) (hashes : List Hash) : List Hash :=
  let want := used + hashes.length
  if maxTxAnnounces < want then hashes.take (want - maxTxAnnounces) else hashes

/-- Without the timer, and without the fetches that may be scheduled at the end: they move hashes from
`announced` to `alternates` and leave what the peer has announced. -/
def notify (hashes : List Hash) (f : Stages) : Stages :=
  if maxTxAnnounces ≤ used origin f then f
  else (capped (used origin f) hashes).foldl (noteHash now origin) f

def Untracked (f : Stages) (h : Hash) : Prop := h ∉ f.waitslots origin ∧ h ∉ f.announces origin

theorem noteHash_slots (f : Stages) (hash : Hash) : let f' := noteHash now origin f hash
    (f'.waitslots origin = f.waitslots origin ∧ f'.announces origin = insert hash (f.announces origin)) ∨
    (f'.waitslots origin = insert hash (f.waitslots origin) ∧ f'.announces origin = f.announces origin) := by
  rw [noteHash]
  split_ifs
  · exact .inl ⟨rfl, update_self ..⟩
  · exact .inl ⟨rfl, update_self ..⟩
  · exact .inr ⟨update_self .., rfl⟩
  · exact .inr ⟨update_self .., rfl⟩

variable {now origin} {f : Stages} {hash : Hash} {hashes : List Hash}

theorem used_noteHash (hnew : Untracked origin f hash) :
    used origin (noteHash now origin f hash) = used origin f + 1 := by
  obtain ⟨hw, ha⟩ | ⟨hw, ha⟩ := noteHash_slots now origin f hash
  · rw [used, hw, ha, Finset.card_insert_of_notMem hnew.2, used, add_assoc]
  · rw [used, hw, ha, Finset.card_insert_of_notMem hnew.1, used, add_right_comm]

theorem untracked_noteHash {h : Hash} (hne : h ≠ hash) (hnew : Untracked origin f h) :
    Untracked origin (noteHash now origin f hash) h := by
  obtain ⟨hw, ha⟩ | ⟨hw, ha⟩ := noteHash_slots now origin f hash
  all_goals
    rw [Untracked, hw, ha]
    simpa [hne, Untracked] using hnew

theorem used_foldl (hnodup : hashes.Nodup) (hnew : ∀ h ∈ hashes, Untracked origin f h) :
    used origin (hashes.foldl (noteHash now origin) f) = used origin f + hashes.length := by
  induction hashes generalizing f with
  | nil => rfl
  | cons h hashes ih =>
    obtain ⟨hnot, hnodup⟩ := nodup_cons.mp hnodup
    have hrest : ∀ h' ∈ hashes, Untracked origin (noteHash now origin f h) h' := fun h' hh' =>
      untracked_noteHash (ne_of_mem_of_not_mem hh' hnot) (hnew h' (mem_cons_of_mem _ hh'))
    rw [foldl_cons, ih hnodup hrest, used_noteHash (hnew h mem_cons_self), length_cons]
    omega

theorem capped_sublist (u : ℕ) (hashes : List Hash) : (capped u hashes).Sublist hashes := by
  rw [capped]
  split_ifs
  · exact take_sublist _ _
  · exact List.Sublist.refl _

theorem length_capped {u : ℕ} (hu : u < maxTxAnnounces) : (capped u hashes).length =
    if u + hashes.length ≤ maxTxAnnounces then hashes.length else u + hashes.length - maxTxAnnounces := by
  rw [capped]
  split_ifs
  · omega
  · rw [length_take]
    omega
  · rfl
  · omega

theorem used_notify (hnodup : hashes.Nodup) (hnew : ∀ h ∈ hashes, Untracked origin f h)
    (hused : used origin f < maxTxAnnounces) : used origin (notify now origin hashes f) =
      used origin f + (capped (used origin f) hashes).length := by
  have hsub := capped_sublist (used origin f) hashes
  rw [notify, if_neg hused.not_ge]
  exact used_foldl (hnodup.sublist hsub) fun h hh => hnew h (hsub.subset hh)

end

/-- The peer gets as many announcements as fit exactly if all do, or if as many are too many as fit. -/
theorem notify_fills_limit {now : Hash → ℤ} {origin : String} {f : Stages} {hashes : List Hash}
    (hnodup : hashes.Nodup) (hnew : ∀ h ∈ hashes, Untracked origin f h) :
    let f' := notify now origin hashes f
    (used origin f < maxTxAnnounces → (used origin f' = min (used origin f + hashes.length) maxTxAnnounces ↔
        used origin f + hashes.length ≤ maxTxAnnounces ∨
          2 * used origin f + hashes.length = 2 * maxTxAnnounces)) ∧
      (maxTxAnnounces ≤ used origin f → f' = f) := by
  refine ⟨fun hused => ?_, fun hfull => if_pos hfull⟩
  rw [used_notify hnodup hnew hused, length_capped hused]
  split_ifs <;> omega

def someHashes (n : ℕ) : List Hash := (List.range n).map hexToHash

theorem nodup_someHashes {n : ℕ} (hn : n ≤ 2 ^ 256) : (someHashes n).Nodup := by
  refine List.Nodup.map_on (fun a ha b hb hab => ?_) nodup_range
  have h := congrArg (fun h : Hash => beNat h.val) hab
  simp only [hexToHash, ofNat, beNat_beBytes] at h
  have ha := mem_range.mp ha
  have hb := mem_range.mp hb
  rwa [mod_eq_of_lt (by omega), mod_eq_of_lt (by omega)] at h

theorem newTxFetcher_untracked (n : ℕ) : ∀ h ∈ someHashes n, Untracked "peer" newTxFetcher h :=
  fun _ _ => ⟨Finset.notMem_empty _, Finset.notMem_empty _⟩

/-- Of one announcement too many for the limit only one is kept. -/
theorem notify_keeps_excess : used "peer" newTxFetcher = 0 ∧
    used "peer" (notify (fun _ => 0) "peer" (someHashes 4097) newTxFetcher) = 1 := by
  refine ⟨rfl, ?_⟩
  rw [used_notify (nodup_someHashes (by decide)) (newTxFetcher_untracked 4097) (by decide),
    length_capped (by decide), someHashes, length_map, length_range]
  rfl

theorem notify_fills_limit_two :
    used "peer" (notify (fun _ => 0) "peer" (someHashes 2) newTxFetcher) = min (0 + 2) maxTxAnnounces :=
  ((notify_fills_limit (nodup_someHashes (by decide)) (newTxFetcher_untracked 2)).1 (by decide)).mpr
    (.inl (by decide))

end Geth.Fetcher.TxFetcher
