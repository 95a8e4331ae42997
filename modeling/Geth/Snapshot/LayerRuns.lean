import Geth.Snapshot.Survivors

namespace Geth.Snapshot.LayerRuns

open Lib.BigEndian Common.Basic LayerTree Answers Merging Survivors Function Option

variable {B : BloomFilter} {t t' : Tree B} {D : ℕ} {W : Hash → World} {r : Hash} {i n : ℕ}

/-- The trees that updates under new roots lead to, with `Cap`s that do not
replace a layer which others are built on. `W r` is what the recorded changes
up to the layer with root `r` amount to. -/
inductive Reached : Tree B → (Hash → World) → Prop
  | start (root : Hash) (db : World) (genAbort : Bool) : Reached (newTree B root db genAbort) fun _ => db
  | update {t t' : Tree B} {W : Hash → World} {root parent : Hash} {data : Changes}
    (h : Reached t W) (hfresh : t.layers.lookup root = none)
    (hupdate : t.update root parent data = .ok t') :
    Reached t' (update W root (data.apply [] (W parent)))
  | cap {t t' : Tree B} {W : Hash → World} {root : Hash} {limit : UInt64} {n : ℕ}
    (h : Reached t W)
    (hleaves : n ≠ 0 → ∀ i, t.layers.lookup root = some i → leavesOthers limit t i n = true)
    (hcap : t.cap limit root n = .ok t') : Reached t' W
  | cacheAccount {t : Tree B} {W : Hash → World} (h : Reached t W) (hash : Hash) (present : Bool) :
    Reached (t.cacheAccount hash present) W
  | cacheStorage {t : Tree B} {W : Hash → World} (h : Reached t W) (a k : Hash) (present : Bool) :
    Reached (t.cacheStorage a k present) W

theorem cap_outcome {limit} {dl} (hs : Sound t D W)
    (hr : t.layers.lookup r = some i) (hd : t.diffLayer i = some dl) (n : ℕ) :
    ∃ t', t.cap limit r n = .ok t' ∧ Outcome t t' W r (n = 0 ∨ leavesOthers limit t i n = true) := by
  by_cases hn : n = 0
  · obtain ⟨t', hcap, hout⟩ := capAll_spec hs hr hd
    refine ⟨t', ?_, hout.congr (by simp only [hn, true_or])⟩
    rw [Tree.cap, hr]
    dsimp only
    rw [hd, isNone_some, if_neg Bool.false_ne_true, if_pos hn]
    exact hcap
  obtain ⟨t', hcap, hout⟩ := cap_spec hs hr hd hn
  exact ⟨t', hcap, hout.congr (by simp only [hn, false_or])⟩

theorem Reached.sound (h : Reached t W) : ∃ D, Sound t D W := by
  induction h with
  | start root db genAbort => exact ⟨0, newTree_sound genAbort rfl⟩
  | @update t t' W root parent data h hfresh hupdate ih =>
    obtain ⟨D, hs⟩ := ih
    cases hp : t.layers.lookup parent with
    | none =>
      rw [Tree.update, hp] at hupdate
      split at hupdate
      · cases hupdate
      · cases hupdate
    | some i =>
      obtain ⟨t'', hup, hs'⟩ := hs.update data hfresh hp
      rw [hup] at hupdate
      cases hupdate
      exact ⟨D, hs'⟩
  | @cap t t' W root limit n h hleaves hcap ih =>
    obtain ⟨D, hs⟩ := ih
    cases hr : t.layers.lookup root with
    | none =>
      rw [Tree.cap, hr] at hcap
      cases hcap
    | some i =>
      cases hd : t.diffLayer i with
      | none =>
        rw [Tree.cap, hr] at hcap
        dsimp only at hcap
        rw [hd] at hcap
        cases hcap
      | some dl =>
        obtain ⟨t'', hcap', hout⟩ := cap_outcome hs hr hd n
        rw [hcap'] at hcap
        cases hcap
        apply hout.sound
        by_cases hn : n = 0
        · exact .inl hn
        · exact .inr (hleaves hn i hr)
  | cacheAccount _ hash present ih =>
    obtain ⟨D, hs⟩ := ih
    exact ⟨D, hs.cacheAccount hash present⟩
  | cacheStorage _ a k present ih =>
    obtain ⟨D, hs⟩ := ih
    exact ⟨D, hs.cacheStorage a k present⟩

/-- In every tree reached each registered layer answers what the recorded
changes amount to, the store holds the state of the disk layer, and the
operations return. -/
theorem layers_denote_changes (h : Reached t W) :
    (∀ r i, t.layers.lookup r = some i →
      (∀ hash, t.accountRLP i hash = .ok ((W r).account hash)) ∧
      ∀ a k, t.storage i a k = .ok ((W r).storage a k)) ∧
    t.diskdb = W t.snapshotRoot ∧
    (∃ D, t.layers.lookup t.snapshotRoot = some D ∧
      t.diskLayer D = some ⟨t.snapshotRoot, false, t.genAbort D⟩) ∧
    (∀ root parent data, t.layers.lookup root = none → (t.layers.lookup parent).isSome →
      ∃ t', t.update root parent data = .ok t') ∧
    ∀ limit root i n, t.layers.lookup root = some i → (t.diffLayer i).isSome →
      ∃ t', t.cap limit root n = .ok t' ∧ (t'.layers.lookup root).isSome := by
  obtain ⟨D, hs⟩ := h.sound
  refine ⟨fun r i hr => ⟨hs.accountRLP_eq hr, hs.storage_eq hr⟩, hs.stored,
    ⟨D, hs.disk, diskLayer_eq_some hs.base⟩, ?_, ?_⟩
  · intro root parent data hfresh hparent
    obtain ⟨i, hi⟩ := isSome_iff_exists.mp hparent
    obtain ⟨t', hup, -⟩ := hs.update data hfresh hi
    exact ⟨t', hup⟩
  intro limit root i n hr hd
  obtain ⟨dl, hd⟩ := isSome_iff_exists.mp hd
  obtain ⟨t', hcap, hout⟩ := cap_outcome hs hr hd n
  obtain ⟨k, hk⟩ := hout.root
  exact ⟨t', hcap, by rw [hk]; rfl⟩

def alwaysHits : BloomFilter where
  Filter := Unit
  new := ()
  add _ _ := ()
  contains _ _ := true
  contains_add _ _ := rfl
  contains_mono _ _ _ _ := rfl

def oneAccount (hash : Hash) (data : Bytes) : Changes where
  destructs := ∅
  accounts := (∅ : AList fun _ : Hash => Bytes).insert hash data
  storage := ∅

def noWorld : World := ⟨fun _ => [], fun _ _ => []⟩

/-- Two layers on top of each other over the disk, and two layers on the upper
one. -/
def forked : Except SnapshotError (Tree alwaysHits) := do
  let t := newTree alwaysHits (hexToHash 0) noWorld false
  let t ← t.update (hexToHash 1) (hexToHash 0) (oneAccount (hexToHash 17) [1])
  let t ← t.update (hexToHash 2) (hexToHash 1) (oneAccount (hexToHash 18) [2])
  let t ← t.update (hexToHash 3) (hexToHash 2) (oneAccount (hexToHash 19) [3])
  t.update (hexToHash 4) (hexToHash 2) (oneAccount (hexToHash 20) [4])

/-- After a `Cap` of the one branch a `Cap` of the other one returns, and the
layer it was called on does not answer for an account written below. -/
theorem capped_layer_stale :
    (do
      let t ← forked
      let t ← t.cap 1000 (hexToHash 3) 1
      let t ← t.cap 1000 (hexToHash 4) 2
      return (t.layers.lookup (hexToHash 4)).map fun i => t.accountRLP i (hexToHash 17)) =
    Except.ok (some (Except.error SnapshotError.stale)) := by
  rfl

/-- Three layers on top of each other over the disk. -/
def chained : Except SnapshotError (Tree alwaysHits) := do
  let t := newTree alwaysHits (hexToHash 0) noWorld false
  let t ← t.update (hexToHash 1) (hexToHash 0) (oneAccount (hexToHash 17) [1])
  let t ← t.update (hexToHash 2) (hexToHash 1) (oneAccount (hexToHash 18) [2])
  t.update (hexToHash 3) (hexToHash 2) (oneAccount (hexToHash 19) [3])

def chainTree : Tree alwaysHits := chained.toOption.getD (newTree alwaysHits (hexToHash 0) noWorld false)

def chainWorld : Hash → World :=
  update (update (update (fun _ => noWorld)
    (hexToHash 1) ((oneAccount (hexToHash 17) [1]).apply [] noWorld))
    (hexToHash 2) ((oneAccount (hexToHash 18) [2]).apply []
      ((oneAccount (hexToHash 17) [1]).apply [] noWorld)))
    (hexToHash 3) ((oneAccount (hexToHash 19) [3]).apply []
      ((oneAccount (hexToHash 18) [2]).apply []
        ((oneAccount (hexToHash 17) [1]).apply [] noWorld)))

theorem chainTree_reached : Reached chainTree chainWorld := by
  have h₁ := @Reached.update alwaysHits _ _ _ (hexToHash 1) (hexToHash 0)
    (oneAccount (hexToHash 17) [1]) (.start (hexToHash 0) noWorld false) rfl rfl
  have h₂ := @Reached.update alwaysHits _ _ _ (hexToHash 2) (hexToHash 1)
    (oneAccount (hexToHash 18) [2]) h₁ rfl rfl
  exact @Reached.update alwaysHits _ _ _ (hexToHash 3) (hexToHash 2)
    (oneAccount (hexToHash 19) [3]) h₂ rfl rfl

theorem layers_denote_changes_chain : ∃ t', chainTree.cap 1000 (hexToHash 3) 1 = .ok t' ∧
    ∃ i, t'.layers.lookup (hexToHash 3) = some i ∧ t'.accountRLP i (hexToHash 17) = .ok [1] := by
  obtain ⟨-, -, -, -, hcaps⟩ := layers_denote_changes chainTree_reached
  obtain ⟨t', hcap, hroot⟩ := hcaps 1000 (hexToHash 3) 3 1 rfl rfl
  obtain ⟨i, hi⟩ := isSome_iff_exists.mp hroot
  have hreached : Reached t' chainWorld := by
    refine .cap chainTree_reached (fun _ i hi => ?_) hcap
    obtain rfl : 3 = i := some.inj hi
    rfl
  obtain ⟨hanswers, -⟩ := layers_denote_changes hreached
  exact ⟨t', hcap, i, hi, (hanswers _ i hi).1 (hexToHash 17)⟩

theorem Below.not_stale {j : ℕ} (hl : Live t D W r i n) (hb : Below t i j) : t.isStale j = false := by
  induction hb generalizing r n with
  | parent ho =>
    obtain ⟨_, _, -, -, -, -, -, -, hp⟩ := hl.of_diff ho
    exact hp.not_stale
  | step ho _ ih =>
    obtain ⟨_, _, -, -, -, -, -, -, hp⟩ := hl.of_diff ho
    exact ih hp

/-- Every layer that is left answers as before, no layer below it is stale, and
it can be capped again. -/
structure Usable (t t' : Tree B) : Prop where
  answers : ∀ r k, t'.layers.lookup r = some k → ∃ k₀, t.layers.lookup r = some k₀ ∧
    (∀ hash, ∃ v, t'.accountRLP k hash = .ok v ∧ t.accountRLP k₀ hash = .ok v) ∧
    ∀ a s, ∃ v, t'.storage k a s = .ok v ∧ t.storage k₀ a s = .ok v
  parents : ∀ r k s, t'.layers.lookup r = some k → Below t' k s → t'.isStale s = false
  caps : ∀ r k limit n, t'.layers.lookup r = some k → (t'.diffLayer k).isSome →
    ∃ t'', t'.cap limit r n = .ok t''

theorem Outcome.usable {good : Prop} (hs : Sound t D W) (h : Outcome t t' W r good) :
    Usable t t' ↔ good := by
  refine ⟨fun hu => ?_, fun hgood => ?_⟩
  · by_contra hbad
    obtain ⟨q, k, s, hq, hb, hst⟩ := h.stale hbad
    rw [hu.parents q k s hq hb] at hst
    cases hst
  obtain ⟨D', hs'⟩ := h.sound hgood
  refine ⟨?_, ?_, ?_⟩
  · intro q k hq
    obtain ⟨k₀, hk₀⟩ := h.registered q k hq
    exact ⟨k₀, hk₀, fun hash => ⟨_, hs'.accountRLP_eq hq hash, hs.accountRLP_eq hk₀ hash⟩,
      fun a s => ⟨_, hs'.storage_eq hq a s, hs.storage_eq hk₀ a s⟩⟩
  · intro q k s hq hb
    obtain ⟨n, -, hl⟩ := hs'.live q k hq
    exact Below.not_stale hl hb
  intro q k limit n hq hd
  obtain ⟨dl, hd⟩ := isSome_iff_exists.mp hd
  obtain ⟨t'', hcap, -⟩ := cap_outcome hs' hq hd n
  exact ⟨t'', hcap⟩

/-- A `Cap` of a tree with any branching leaves usable layers if and only if it
does not replace a layer that several registered layers are built on. -/
theorem survivors_usable_iff (h : Reached t W) (limit : UInt64) (hr : t.layers.lookup r = some i)
    (hd : (t.diffLayer i).isSome) (hn : n ≠ 0) :
    ∃ t', t.cap limit r n = .ok t' ∧ (Usable t t' ↔ leavesOthers limit t i n = true) := by
  obtain ⟨D, hs⟩ := h.sound
  obtain ⟨dl, hd⟩ := isSome_iff_exists.mp hd
  obtain ⟨t', hcap, hout⟩ := cap_spec hs hr hd hn
  exact ⟨t', hcap, Outcome.usable hs hout⟩

theorem survivors_usable_chain :
    ∃ t', chainTree.cap 1000 (hexToHash 3) 1 = .ok t' ∧ Usable chainTree t' := by
  obtain ⟨t', hcap, hiff⟩ :=
    survivors_usable_iff chainTree_reached 1000 (show chainTree.layers.lookup (hexToHash 3) = some 3
      from rfl) rfl Nat.one_ne_zero
  exact ⟨t', hcap, hiff.mpr rfl⟩

/-- The other branch of a fork stays registered, answers with an error and
cannot be capped. -/
theorem sibling_unusable :
    (do
      let t ← forked
      let t ← t.cap 1000 (hexToHash 3) 1
      return (t.layers.lookup (hexToHash 4)).map fun i =>
        (t.accountRLP i (hexToHash 17), (t.cap 1000 (hexToHash 4) 1).map fun _ => ())) =
    Except.ok (some (Except.error SnapshotError.stale,
      Except.error (SnapshotError.panic Panic.explicit))) := by
  rfl

end Geth.Snapshot.LayerRuns
