import Geth.Snapshot.Merging

namespace Geth.Snapshot.Capping

open Lib.Overlay Lib.Descent Common.Basic LayerTree Answers Merging Function Option List Nat

variable {B : BloomFilter} {t t₂ : Tree B} {D D' : ℕ} {W : Hash → World} {r pr rj : Hash}
  {i p j f m n : ℕ} {dj : DiffLayer B} {limit : UInt64}

theorem mem_childrenOf (hnd : t.layers.lookup r = some i) (hp : t.parentRoot i = some pr) :
    r ∈ t.childrenOf pr := by
  rw [Tree.childrenOf, List.mem_map]
  refine ⟨⟨r, i⟩, mem_filter.mpr ⟨AList.mem_lookup_iff.mp hnd, ?_⟩, rfl⟩
  exact decide_eq_true hp

theorem of_mem_childrenOf (h : r ∈ t.childrenOf pr) :
    ∃ i, t.layers.lookup r = some i ∧ t.parentRoot i = some pr := by
  rw [Tree.childrenOf, List.mem_map] at h
  obtain ⟨⟨r', i⟩, he, rfl⟩ := h
  obtain ⟨he, hp⟩ := mem_filter.mp he
  exact ⟨i, AList.mem_lookup_iff.mpr he, of_decide_eq_true hp⟩

/-- What is kept: layers that are not stale, with their parents. A set of
layers that contains all parents and no stale layer is kept. -/
structure Kept (t : Tree B) (kept : AList fun _ : Hash => ℕ) : Prop where
  lookup : ∀ r i, kept.lookup r = some i → t.layers.lookup r = some i
  not_stale : ∀ r i, kept.lookup r = some i → t.isStale i = false
  parent : ∀ r i pr k, kept.lookup r = some i → t.parentRoot i = some pr →
    t.layers.lookup pr = some k → kept.lookup pr = some k
  closed : ∀ P : Hash → Prop, (∀ p c, c ∈ t.childrenOf p → P c → P p) →
    (∀ r i, P r → t.layers.lookup r = some i → t.isStale i = false) →
    ∀ r i, P r → t.layers.lookup r = some i → kept.lookup r = some i

theorem removeStale_spec
    (hvisit : ∀ r i, t.layers.lookup r = some i → ∃ l, visit t.childrenOf t.next r = some l) :
    ∃ kept, t.removeStale = some kept ∧ Kept t kept := by
  let stale := (t.layers.entries.filter fun e => t.isStale e.2).map Sigma.fst
  have hstale : ∀ r, r ∈ stale ↔ ∃ i, t.layers.lookup r = some i ∧ t.isStale i = true := by
    intro r
    refine ⟨fun h => ?_, fun ⟨i, hi, hs⟩ => ?_⟩
    · obtain ⟨⟨r', i⟩, he, rfl⟩ := mem_map.mp h
      obtain ⟨he, hs⟩ := mem_filter.mp he
      exact ⟨i, AList.mem_lookup_iff.mpr he, hs⟩
    exact mem_map.mpr ⟨⟨r, i⟩, mem_filter.mpr ⟨AList.mem_lookup_iff.mp hi, hs⟩, rfl⟩
  obtain ⟨gone, hgone⟩ : ∃ gone, stale.mapM (visit t.childrenOf t.next) = some gone := by
    apply exists_mapM
    intro r hr
    obtain ⟨i, hi, -⟩ := (hstale r).mp hr
    exact hvisit r i hi
  obtain ⟨hfrom, hto⟩ := mem_of_mapM hgone
  have hkept : ∀ r, (without t.layers gone.flatten).lookup r =
      if r ∈ gone.flatten then none else t.layers.lookup r := fun r => lookup_without _ _ r
  have hnot : ∀ r i, (without t.layers gone.flatten).lookup r = some i →
      r ∉ gone.flatten ∧ t.layers.lookup r = some i := by
    intro r i h
    rw [hkept] at h
    split at h
    · cases h
    · next hr => exact ⟨hr, h⟩
  refine ⟨without t.layers gone.flatten, by rw [Tree.removeStale, hgone]; rfl, ?_, ?_, ?_, ?_⟩
  · exact fun r i h => (hnot r i h).2
  · intro r i h
    obtain ⟨hr, hi⟩ := hnot r i h
    by_contra hs
    obtain ⟨l, hl, hv⟩ := hto r ((hstale r).mpr ⟨i, hi, Bool.eq_true_of_not_eq_false hs⟩)
    exact hr (mem_flatten.mpr ⟨l, hl, mem_visit_self hv⟩)
  · intro r i pr k h hp hk
    obtain ⟨hr, hi⟩ := hnot r i h
    rw [hkept, if_neg, hk]
    intro hpr
    obtain ⟨l, hl, hprl⟩ := mem_flatten.mp hpr
    obtain ⟨s, -, hv⟩ := hfrom l hl
    exact hr (mem_flatten.mpr ⟨l, hl, mem_visit_child hv hprl (mem_childrenOf hi hp)⟩)
  intro P hP hPs r i hr hi
  rw [hkept, if_neg, hi]
  intro hmem
  obtain ⟨l, hl, hrl⟩ := mem_flatten.mp hmem
  obtain ⟨s, hs, hv⟩ := hfrom l hl
  obtain ⟨k, hk, hks⟩ := (hstale s).mp hs
  rw [hPs s k (start_of_mem_visit hv hrl hP hr) hk] at hks
  cases hks

/-- A registered layer with all below it, whatever the filters say. -/
inductive Linked (t : Tree B) (D : ℕ) (W : Hash → World) : Hash → ℕ → ℕ → Prop
  | disk {r : Hash} {g : Bool} (hl : t.layers.lookup r = some D)
    (ho : t.objects D = some (.disk ⟨r, false, g⟩)) :
    Linked t D W r D 0
  | diff {r pr : Hash} {i n : ℕ} {dl : DiffLayer B} (hl : t.layers.lookup r = some i)
    (ho : t.objects i = some (.diff dl)) (hroot : dl.root = r) (hstale : dl.stale = false)
    (hworld : W r = dl.data.apply [] (W pr)) (hparent : Linked t D W pr dl.parent n) :
    Linked t D W r i (n + 1)

/-- The filters of all registered layers are right. -/
def Bloomed (t : Tree B) (D : ℕ) (W : Hash → World) : Prop :=
  ∀ r i dl, t.layers.lookup r = some i → t.objects i = some (.diff dl) →
    dl.origin = D ∧ Misses t.diskdb (W r) dl.diffed

theorem Linked.live (h : Linked t D W r i n) (hb : Bloomed t D W) : Live t D W r i n := by
  induction h with
  | disk hl ho => exact .disk hl ho
  | diff hl ho hroot hstale hworld _ ih =>
    obtain ⟨horigin, hmiss⟩ := hb _ _ _ hl ho
    exact .diff hl ho hroot hstale horigin hmiss hworld ih

/-- The tree after the layer `p` with root `pr` was flattened to `f`, and
possibly written to disk: only the layer `j` with root `rj` links to `f`. -/
structure Rebased (t t₂ : Tree B) (D D' : ℕ) (W : Hash → World) (pr rj : Hash) (p j f m : ℕ)
    (dj : DiffLayer B) : Prop where
  above : Live t D W rj j (m + 2)
  object : t.objects j = some (.diff dj)
  parent : dj.parent = p
  world : W rj = dj.data.apply [] (W pr)
  below : Live t D W pr p (m + 1)
  lookup_self : t₂.layers.lookup pr = some f
  lookup_ne : ∀ r, r ≠ pr → t₂.layers.lookup r = t.layers.lookup r
  rewired : t₂.objects j = some (.diff { dj with parent := f })
  others : ∀ r k, r ≠ pr → r ≠ rj → t.layers.lookup r = some k →
    t₂.objects k = t.objects k ∨ t₂.isStale k = true
  upper : ∀ r k n, r ≠ pr → r ≠ rj → Live t D W r k (n + 2) → t₂.objects k = t.objects k
  parents : ∀ r k, r ≠ pr → r ≠ rj → t.layers.lookup r = some k → t₂.parentRoot k = t.parentRoot k
  roots : ∀ k < t.next, t₂.rootOf k = t.rootOf k
  next : t.next ≤ t₂.next
  fresh : ∀ k, t₂.next ≤ k → t₂.objects k = none
  dangling : f ≠ p → ∃ s, Below t₂ p s ∧ t₂.isStale s = true
  base : (D' = D ∧ t₂.objects D = t.objects D ∧ t₂.diskdb = t.diskdb ∧
      t₂.snapshotRoot = t.snapshotRoot ∧
      ∃ fl : DiffLayer B, t₂.objects f = some (.diff fl) ∧ fl.root = pr ∧ fl.stale = false ∧
        fl.origin = D ∧ fl.parent = D ∧ Misses t.diskdb (W pr) fl.diffed ∧
        W pr = fl.data.apply [] (W t.snapshotRoot)) ∨
    (D' = f ∧ t₂.objects f = some (.disk ⟨pr, false, false⟩) ∧ t₂.isStale D = true ∧ f ≠ p ∧
      t₂.diskdb = W pr ∧ t₂.snapshotRoot = pr)
  cachedAccount : ∀ h v, t₂.accountCache h = some v → v = t₂.diskdb.account h
  cachedStorage : ∀ a k v, t₂.storageCache a k = some v → v = t₂.diskdb.storage a k

theorem parentRoot_diff {dl} (ho : t.objects i = some (.diff dl)) :
    t.parentRoot i = t.rootOf dl.parent := by
  rw [Tree.parentRoot, diffLayer_eq_some ho, bind_some]

theorem parentRoot_disk {dl} (ho : t.objects i = some (.disk dl)) : t.parentRoot i = none := by
  rw [Tree.parentRoot, diffLayer_disk ho]
  rfl

/-- A disk layer that is not stale has no parent, so that nothing removes it. -/
theorem Kept.disk {kept} {root : Hash} {g : Bool} (hk : Kept t kept)
    (ho : t.objects i = some (.disk ⟨root, false, g⟩)) (hl : t.layers.lookup r = some i) :
    kept.lookup r = some i := by
  refine hk.closed (· = r) ?_ ?_ _ _ rfl hl
  · rintro q c hc rfl
    obtain ⟨k, hk, hp⟩ := of_mem_childrenOf hc
    obtain rfl : i = k := some.inj (hl.symm.trans hk)
    rw [parentRoot_disk ho] at hp
    cases hp
  rintro c k rfl hk
  obtain rfl : i = k := some.inj (hl.symm.trans hk)
  rw [Tree.isStale, ho]
  rfl

/-- The layers whose parents lead to the root `pr`. -/
inductive Through (t : Tree B) (pr : Hash) : Hash → Prop
  | refl : Through t pr pr
  | step {r px : Hash} {k : ℕ} (hl : t.layers.lookup r = some k) (hp : t.parentRoot k = some px)
    (h : Through t pr px) : Through t pr r

namespace Rebased

section

variable (h : Rebased t t₂ D D' W pr rj p j f m dj)
include h

theorem ne_above : rj ≠ pr := by
  rintro rfl
  obtain rfl : j = p := some.inj (h.above.lookup.symm.trans h.below.lookup)
  exact absurd (h.above.unique h.below).2 (by omega)

theorem rootOf_flat : t₂.rootOf f = some pr := by
  obtain ⟨-, -, -, -, fl, ho, hroot, -⟩ | ⟨-, ho, -⟩ := h.base
  · rw [Tree.rootOf, ho, map_some]
    exact congrArg some hroot
  rw [Tree.rootOf, ho]
  rfl

end

variable (hs : Sound t D W) (h : Rebased t t₂ D D' W pr rj p j f m dj) {k k₀ : ℕ}
include hs h

theorem exists_live (hk : t₂.layers.lookup r = some k) :
    ∃ k₀ n, n < t.next ∧ Live t D W r k₀ n ∧ (r ≠ pr → k₀ = k) := by
  by_cases hr : r = pr
  · subst hr
    obtain ⟨n, hn, hl⟩ := hs.live r p h.below.lookup
    exact ⟨p, n, hn, hl, fun hne => absurd rfl hne⟩
  rw [h.lookup_ne r hr] at hk
  obtain ⟨n, hn, hl⟩ := hs.live r k hk
  exact ⟨k, n, hn, hl, fun _ => rfl⟩

theorem height_child {q c : Hash} (hq : Live t D W q k₀ n) (hc : c ∈ t₂.childrenOf q) :
    ∃ n', n < n' ∧ n' < t.next ∧ ∃ k, Live t D W c k n' := by
  obtain ⟨k, hk, hp⟩ := of_mem_childrenOf hc
  obtain ⟨k₁, n', hn', hl, hk₁⟩ := h.exists_live hs hk
  refine ⟨n', ?_, hn', k₁, hl⟩
  by_cases hcp : c = pr
  · -- the flattened layer lies on the disk
    subst hcp
    obtain rfl : f = k := some.inj (h.lookup_self.symm.trans hk)
    obtain ⟨rfl, hD, -, -, fl, ho, -, -, -, hpar, -⟩ | ⟨-, ho, -⟩ := h.base
    · rw [parentRoot_diff ho, hpar, Tree.rootOf, hD, hs.base] at hp
      obtain rfl : t.snapshotRoot = q := some.inj hp
      obtain rfl : D' = k₀ := some.inj (hs.disk.symm.trans hq.lookup)
      have h0 := hs.live_disk
      obtain rfl : p = k₁ := some.inj (h.below.lookup.symm.trans hl.lookup)
      have := (hq.unique h0).2
      have := (hl.unique h.below).2
      omega
    rw [parentRoot_disk ho] at hp
    cases hp
  obtain rfl : k₁ = k := hk₁ hcp
  by_cases hcj : c = rj
  · subst hcj
    obtain rfl : j = k₁ := some.inj (h.above.lookup.symm.trans hl.lookup)
    rw [parentRoot_diff h.rewired, h.rootOf_flat] at hp
    obtain rfl : pr = q := some.inj hp
    obtain rfl : p = k₀ := some.inj (h.below.lookup.symm.trans hq.lookup)
    have := (hq.unique h.below).2
    have := (hl.unique h.above).2
    omega
  rw [h.parents c k₁ hcp hcj hl.lookup] at hp
  cases hl with
  | disk _ ho =>
    rw [parentRoot_disk ho] at hp
    cases hp
  | diff _ ho _ _ _ _ _ hpar =>
    rw [parentRoot_diff ho, hpar.rootOf] at hp
    obtain rfl : _ = q := some.inj hp
    obtain rfl : _ = k₀ := some.inj (hpar.lookup.symm.trans hq.lookup)
    rw [(hpar.unique hq).2]
    exact lt_succ_self n

theorem exists_visit (hk : t₂.layers.lookup r = some k) : ∃ l, visit t₂.childrenOf t₂.next r = some l := by
  obtain ⟨k₀, n, hn, hl, -⟩ := h.exists_live hs hk
  refine Lib.Descent.exists_visit (fun q n => ∃ k, Live t D W q k n) ?_ ⟨k₀, hl⟩ hn
    (h.next.trans (le_add_right _ n))
  rintro q n ⟨k, hq⟩ c hc
  exact h.height_child hs hq hc

/-- What is kept links down to the disk, if the flattened layer had no other
child or is the layer itself. -/
theorem linked_of_kept {kept} (hk : Kept t₂ kept)
    (halone : f = p ∨ ∀ r k dk, t.layers.lookup r = some k → t.objects k = some (.diff dk) →
      dk.parent = p → k = j) (hold : Live t D W r k₀ n) (hr : kept.lookup r = some k) :
    ∃ n', n' ≤ n ∧ Linked { t₂ with layers := kept } D' W r k n' := by
  induction n using Nat.strong_induction_on generalizing r k₀ k with
  | _ n ih =>
    by_cases hrp : r = pr
    · subst hrp
      obtain rfl : f = k := some.inj (h.lookup_self.symm.trans (hk.lookup r k hr))
      obtain ⟨rfl, hD, -, -, fl, ho, hroot, hstale, -, hpar, -, hworld⟩ | ⟨rfl, ho, -⟩ := h.base
      · have hsr : kept.lookup t.snapshotRoot = some D' := by
          refine hk.parent r f _ _ hr ?_ ?_
          · rw [parentRoot_diff ho, hpar, Tree.rootOf, hD, hs.base]
            rfl
          rw [h.lookup_ne, hs.disk]
          rintro rfl
          have h0 := hs.live_disk
          obtain rfl : D' = p := some.inj (hs.disk.symm.trans h.below.lookup)
          exact absurd (h0.unique h.below).2 (by omega)
        obtain rfl : p = k₀ := some.inj (h.below.lookup.symm.trans hold.lookup)
        have hn := (hold.unique h.below).2
        refine ⟨1, by omega, .diff hr ho hroot hstale hworld ?_⟩
        rw [hpar]
        exact .disk hsr (hD.trans hs.base)
      · exact ⟨0, zero_le n, .disk hr ho⟩
    have hkk : k₀ = k := by
      have := hk.lookup r k hr
      rw [h.lookup_ne r hrp, hold.lookup] at this
      exact some.inj this
    subst hkk
    by_cases hrj : r = rj
    · subst hrj
      obtain rfl : j = k₀ := Option.some.inj (h.above.lookup.symm.trans hold.lookup)
      have hn := (hold.unique h.above).2
      have hpr : kept.lookup pr = some f := by
        refine hk.parent r j pr f hr ?_ h.lookup_self
        rw [parentRoot_diff h.rewired]
        exact h.rootOf_flat
      obtain ⟨n', hn', hl⟩ := ih (m + 1) (by omega) h.below hpr
      obtain ⟨-, -, -, hroot, hstale, -⟩ := h.above.of_diff h.object
      exact ⟨n' + 1, by omega, .diff hr h.rewired hroot hstale h.world hl⟩
    have hsame : t₂.objects k₀ = t.objects k₀ := by
      obtain hsame | hstale := h.others r k₀ hrp hrj hold.lookup
      · exact hsame
      rw [hk.not_stale r k₀ hr] at hstale
      cases hstale
    cases hold with
    | disk hl ho =>
      have hsr : r = t.snapshotRoot := hs.root_of_disk (.disk hl ho : Live t D W r D 0)
      obtain ⟨rfl, -⟩ | ⟨-, -, hstale, -⟩ := h.base
      · exact ⟨0, le_rfl, .disk hr (hsame.trans ho)⟩
      rw [hk.not_stale r D hr] at hstale
      cases hstale
    | @diff _ px _ n dl hl ho hroot hstale horigin hmiss hworld hparent =>
      have hpx : kept.lookup px = some dl.parent := by
        refine hk.parent r k₀ px dl.parent hr ?_ ?_
        · rw [h.parents r k₀ hrp hrj hl, parentRoot_diff ho, hparent.rootOf]
        by_cases hpp : px = pr
        · subst hpp
          have hdp : dl.parent = p :=
            Option.some.inj (hparent.lookup.symm.trans h.below.lookup)
          obtain hfp | halone := halone
          · rw [h.lookup_self, hfp, hdp]
          obtain rfl : k₀ = j := halone r k₀ dl hl ho hdp
          exact absurd (hs.inj hl h.above.lookup) hrj
        · rw [h.lookup_ne px hpp, hparent.lookup]
      obtain ⟨n', hn', hl'⟩ := ih n (Nat.lt_succ_self n) hparent hpx
      exact ⟨n' + 1, by omega, .diff hr (hsame.trans ho) hroot hstale hworld hl'⟩

end Rebased

section

variable {s s' : Tree B} {origin : ℕ}

/-- Nothing but filters and origins changed. -/
structure Rebloomed (s s' : Tree B) : Prop where
  layers : s'.layers = s.layers
  next : s'.next = s.next
  diskdb : s'.diskdb = s.diskdb
  snapshotRoot : s'.snapshotRoot = s.snapshotRoot
  accountCache : s'.accountCache = s.accountCache
  storageCache : s'.storageCache = s.storageCache
  diff : ∀ k dl, s.objects k = some (.diff dl) →
    ∃ o d, s'.objects k = some (.diff { dl with origin := o, diffed := d })
  other : ∀ k, s.diffLayer k = none → s'.objects k = s.objects k

theorem Rebloomed.refl (s : Tree B) : Rebloomed s s :=
  ⟨rfl, rfl, rfl, rfl, rfl, rfl, fun _ dl h => ⟨dl.origin, dl.diffed, h⟩, fun _ _ => rfl⟩

theorem diffLayer_eq_none (h : s.diffLayer i = none) (ho : s'.objects i = s.objects i) :
    s'.diffLayer i = none := by
  rw [Tree.diffLayer, ho]
  exact h

theorem Rebloomed.trans {s s₁ s₂ : Tree B} (h : Rebloomed s s₁) (h' : Rebloomed s₁ s₂) :
    Rebloomed s s₂ := by
  refine ⟨h'.layers.trans h.layers, h'.next.trans h.next, h'.diskdb.trans h.diskdb,
    h'.snapshotRoot.trans h.snapshotRoot, h'.accountCache.trans h.accountCache,
    h'.storageCache.trans h.storageCache, ?_, ?_⟩
  · intro k dl hk
    obtain ⟨o, d, h₁⟩ := h.diff k dl hk
    obtain ⟨o', d', h₂⟩ := h'.diff k _ h₁
    exact ⟨o', d', h₂⟩
  intro k hk
  have h₁ := h.other k hk
  exact (h'.other k (diffLayer_eq_none hk h₁)).trans h₁

theorem rebloom_rebloomed (s : Tree B) (i origin : ℕ) : Rebloomed s (s.rebloom i origin) := by
  rw [Tree.rebloom]
  split
  · next dl hdl =>
    refine ⟨rfl, rfl, rfl, rfl, rfl, rfl, ?_, ?_⟩
    · intro k dk hk
      by_cases hki : k = i
      · subst hki
        rw [object_of_diffLayer hdl] at hk
        cases hk
        exact ⟨_, _, update_self ..⟩
      · exact ⟨dk.origin, dk.diffed, (update_of_ne hki _ _).trans hk⟩
    intro k hk
    refine update_of_ne ?_ _ _
    rintro rfl
    rw [hdl] at hk
    cases hk
  · exact .refl s

/-- The action of `rebloomAll` at one root. -/
def rebloomAt (origin : ℕ) (s : Tree B) (r : Hash) : Tree B :=
  ((s.layers.lookup r).map fun i => s.rebloom i origin).getD s

theorem rebloomAt_eq (h : s.layers.lookup r = some i) : rebloomAt origin s r = s.rebloom i origin := by
  rw [rebloomAt, h]
  rfl

theorem rebloomAt_rebloomed (origin : ℕ) (s : Tree B) (r : Hash) : Rebloomed s (rebloomAt origin s r) := by
  rw [rebloomAt]
  cases s.layers.lookup r with
  | none => exact .refl s
  | some i => exact rebloom_rebloomed s i origin

theorem rebloomAll_rebloomed (origin : ℕ) (roots : List Hash) (s : Tree B) :
    Rebloomed s (Tree.rebloomAll origin s roots) := by
  induction roots generalizing s with
  | nil => exact .refl s
  | cons r roots ih => exact (rebloomAt_rebloomed origin s r).trans (ih _)

theorem rebloom_object {dl} (ho : s.objects i = some (.diff dl)) :
    (s.rebloom i origin).objects i = some (.diff { dl with origin, diffed := s.bloomOver dl.parent dl.data }) := by
  rw [Tree.rebloom, diffLayer_eq_some ho]
  exact update_self ..

theorem rebloom_object_ne {k : ℕ} (hk : k ≠ i) : (s.rebloom i origin).objects k = s.objects k := by
  rw [Tree.rebloom]
  split
  · exact update_of_ne hk _ _
  · rfl

section

variable (hdisk : ∀ r, Live s D W r D 0 → s.diskdb = W r) (h : Live s D W r i n)
include hdisk h

theorem rebloom_live {x : ℕ} : Live (s.rebloom x D) D W r i n := by
  have hr := rebloom_rebloomed s x D
  induction h with
  | disk hl ho =>
    exact .disk (hr.layers ▸ hl) ((hr.other _ (diffLayer_disk ho)).trans ho)
  | @diff r pr i n dl hl ho hroot hstale horigin hmiss hworld hparent ih =>
    by_cases hx : i = x
    · subst hx
      refine .diff (hr.layers ▸ hl) (rebloom_object ho) hroot hstale rfl ?_ hworld ih
      rw [hr.diskdb, hworld]
      exact hparent.misses_bloomOver (hdisk pr)
    refine .diff (hr.layers ▸ hl) ((rebloom_object_ne hx).trans ho) hroot hstale horigin ?_ hworld ih
    rw [hr.diskdb]
    exact hmiss

theorem rebloomAt_live {x : Hash} : Live (rebloomAt D s x) D W r i n := by
  rw [rebloomAt]
  cases s.layers.lookup x with
  | none => exact h
  | some k => exact rebloom_live hdisk h

end

namespace Linked

theorem lookup (h : Linked t D W r i n) : t.layers.lookup r = some i := by
  cases h with
  | disk hl _ => exact hl
  | diff hl _ _ _ _ _ => exact hl

theorem rootOf (h : Linked t D W r i n) : t.rootOf i = some r := by
  cases h with
  | disk _ ho => rw [Tree.rootOf, ho]; rfl
  | diff _ ho hroot _ _ _ =>
    rw [Tree.rootOf, ho, map_some]
    exact congrArg some hroot

end Linked

/-- After the filters of all layers above a disk layer are made anew, parents
first, the layers that link down to it are right. -/
theorem rebloomAll_live {children : Hash → List Hash} {fuel : ℕ} {r₀ : Hash} {roots : List Hash}
    (hvisit : visit children fuel r₀ = some roots)
    (hlookup : s.layers.lookup r₀ = some D)
    {g : Bool} (hdiskRoot : s.objects D = some (.disk ⟨r₀, false, g⟩)) (hdb : s.diskdb = W r₀)
    (hchild : ∀ p c i, c ∈ children p → s.layers.lookup c = some i → s.parentRoot i = some p)
    (hcover : ∀ r i n, Linked s D W r i n → r ∈ roots) (h : Linked s D W r i n) :
    Live (Tree.rebloomAll D s roots) D W r i n := by
  have hdisk : ∀ {s'}, Rebloomed s s' → ∀ r, Live s' D W r D 0 → s'.diskdb = W r := by
    intro s' hs' r hl
    have hroot := hl.rootOf
    rw [Tree.rootOf, hs'.other D (diffLayer_disk hdiskRoot), hdiskRoot] at hroot
    obtain rfl : r₀ = r := some.inj hroot
    rw [hs'.diskdb, hdb]
  have hall := foldl_visit (f := rebloomAt D)
    (P := fun s' y => Rebloomed s s' ∧ ∀ i n, Linked s D W y i n → Live s' D W y i n)
    ?_ ?_ hvisit (s := s) ?_ r (hcover r i n h)
  · exact hall.2 i n h
  · rintro s' x y ⟨hs', hy⟩
    refine ⟨hs'.trans (rebloomAt_rebloomed D s' x), fun i n hl => ?_⟩
    exact rebloomAt_live (hdisk hs') (hy i n hl)
  · rintro s' p c ⟨hs', hp⟩ hc
    refine ⟨hs'.trans (rebloomAt_rebloomed D s' c), fun i n hl => ?_⟩
    have hlookup : s'.layers.lookup c = some i := by
      rw [hs'.layers]
      exact hl.lookup
    have hroot := hchild p c i hc hl.lookup
    rw [rebloomAt_eq hlookup]
    cases hl with
    | disk _ ho =>
      rw [parentRoot_disk ho] at hroot
      cases hroot
    | diff hl ho hroot' hstale hworld hparent =>
      rw [parentRoot_diff ho, hparent.rootOf] at hroot
      obtain rfl := some.inj hroot
      have hlp := hp _ _ hparent
      obtain ⟨o, d, ho'⟩ := hs'.diff _ _ ho
      have hr := rebloom_rebloomed s' i D
      refine .diff (hr.layers ▸ hlookup) (rebloom_object ho') hroot' hstale rfl ?_ hworld
        (rebloom_live (hdisk hs') hlp)
      rw [hr.diskdb, hworld]
      exact hlp.misses_bloomOver (hdisk hs' _)
  refine ⟨rebloomAt_rebloomed D s r₀, fun i n hl => ?_⟩
  cases hl with
  | disk hl ho =>
    have hr := rebloomAt_rebloomed D s r₀
    exact .disk (hr.layers ▸ hl) ((hr.other D (diffLayer_disk ho)).trans ho)
  | diff hl ho _ _ _ _ =>
    obtain rfl : D = i := some.inj (hlookup.symm.trans hl)
    rw [hdiskRoot] at ho
    cases ho

end

namespace Rebased

variable (hs : Sound t D W) (h : Rebased t t₂ D D' W pr rj p j f m dj)
include hs h

variable {kept : AList fun _ : Hash => ℕ}

theorem sound_of_flat (hk : Kept t₂ kept) (hD : D' = D)
    (hfD : f ≠ D) (halone : f = p ∨ ∀ r k dk, t.layers.lookup r = some k →
      t.objects k = some (.diff dk) → dk.parent = p → k = j) : Sound { t₂ with layers := kept } D W := by
  subst hD
  obtain ⟨-, hbase, hdb, hsr, fl, ho, hroot, hstale, horigin, hpar, hmiss, hworld⟩ | ⟨hf, -⟩ := h.base
  · have hbloomed : Bloomed { t₂ with layers := kept } D' W := by
      intro r k dl hr hdl
      rw [hdb]
      by_cases hrp : r = pr
      · subst hrp
        obtain rfl : f = k := some.inj (h.lookup_self.symm.trans (hk.lookup r k hr))
        rw [ho] at hdl
        cases hdl
        exact ⟨horigin, hmiss⟩
      have hk' := hk.lookup r k hr
      rw [h.lookup_ne r hrp] at hk'
      obtain ⟨n, hn, hl⟩ := hs.live r k hk'
      by_cases hrj : r = rj
      · subst hrj
        obtain rfl : j = k := some.inj (h.above.lookup.symm.trans hk')
        rw [h.rewired] at hdl
        cases hdl
        obtain ⟨-, -, -, -, -, horigin', hmiss', -, -⟩ := h.above.of_diff h.object
        exact ⟨horigin', hmiss'⟩
      obtain hsame | hst := h.others r k hrp hrj hk'
      · rw [hsame] at hdl
        obtain ⟨-, -, -, -, -, horigin', hmiss', -, -⟩ := hl.of_diff hdl
        exact ⟨horigin', hmiss'⟩
      rw [hk.not_stale r k hr] at hst
      cases hst
    refine ⟨?_, ?_, ?_, ?_, h.fresh, h.cachedAccount, h.cachedStorage⟩
    · intro r k hr
      obtain ⟨k₀, n, hn, hl, -⟩ := h.exists_live hs (hk.lookup r k hr)
      obtain ⟨n', hn', hlinked⟩ := h.linked_of_kept hs hk halone hl hr
      exact ⟨n', (hn'.trans_lt hn).trans_le h.next, hlinked.live hbloomed⟩
    · change kept.lookup t₂.snapshotRoot = some D'
      have hlookup : t₂.layers.lookup t.snapshotRoot = some D' := by
        rw [h.lookup_ne, hs.disk]
        rintro rfl
        have h0 := hs.live_disk
        obtain rfl : D' = p := some.inj (hs.disk.symm.trans h.below.lookup)
        exact absurd (h0.unique h.below).2 (by omega)
      rw [hsr]
      exact hk.disk (hbase.trans hs.base) hlookup
    · change t₂.objects D' = some (.disk ⟨t₂.snapshotRoot, false, t₂.genAbort D'⟩)
      rw [hsr]
      exact base_of (hbase.trans hs.base)
    change t₂.diskdb = W t₂.snapshotRoot
    rw [hdb, hsr, hs.stored]
  · exact absurd hf.symm hfD

theorem sound_of_written {roots} (hk : Kept t₂ kept)
    (hD : D' = f) (hfD : f ≠ D) (hvisit : visit t₂.childrenOf t₂.next pr = some roots)
    (halone : ∀ r k dk, t.layers.lookup r = some k →
      t.objects k = some (.diff dk) → dk.parent = p → k = j) :
    Sound (Tree.rebloomAll f { t₂ with layers := kept } roots) f W := by
  obtain ⟨hD', -⟩ | ⟨-, ho, -, -, hdb, hsr⟩ := h.base
  · exact absurd (hD.symm.trans hD') hfD
  subst hD
  have hr := rebloomAll_rebloomed D' roots { t₂ with layers := kept }
  have hpr : kept.lookup pr = some D' := hk.disk ho h.lookup_self
  have hcover : ∀ r i n, Linked { t₂ with layers := kept } D' W r i n → r ∈ roots := by
    intro r i n hl
    induction hl with
    | disk hl hod =>
      rw [ho] at hod
      cases hod
      exact mem_visit_self hvisit
    | diff hl hod hroot hstale hworld hparent ih =>
      refine mem_visit_child hvisit ih (mem_childrenOf (hk.lookup _ _ hl) ?_)
      change t₂.objects _ = _ at hod
      rw [parentRoot_diff hod]
      exact hparent.rootOf
  have hchild : ∀ p c i, c ∈ t₂.childrenOf p → kept.lookup c = some i → t₂.parentRoot i = some p := by
    intro p c i hc hi
    obtain ⟨k, hk', hp⟩ := of_mem_childrenOf hc
    obtain rfl : k = i := some.inj (hk'.symm.trans (hk.lookup c i hi))
    exact hp
  refine ⟨?_, ?_, ?_, ?_, ?_, ?_, ?_⟩
  · intro r k hrk
    rw [hr.layers] at hrk
    obtain ⟨k₀, n, hn, hl, -⟩ := h.exists_live hs (hk.lookup r k hrk)
    obtain ⟨n', hn', hlinked⟩ := h.linked_of_kept hs hk (.inr halone) hl hrk
    refine ⟨n', ?_, rebloomAll_live hvisit hpr ho hdb hchild hcover hlinked⟩
    rw [hr.next]
    exact (hn'.trans_lt hn).trans_le h.next
  · rw [hr.layers, hr.snapshotRoot]
    rw [hsr]
    exact hpr
  · rw [hr.snapshotRoot]
    refine base_of (g := false) ((hr.other D' (diffLayer_disk ho)).trans ?_)
    rw [ho, hsr]
  · rw [hr.diskdb, hr.snapshotRoot]
    rw [hdb, hsr]
  · intro k hkn
    rw [hr.next] at hkn
    have hnone := h.fresh k hkn
    rw [hr.other k]
    · exact hnone
    · exact diffLayer_fresh hnone
  · rw [hr.accountCache, hr.diskdb]
    exact h.cachedAccount
  rw [hr.storageCache, hr.diskdb]
  exact h.cachedStorage

theorem height_through (hr : Through t pr r) : r = pr ∨ ∃ k n, Live t D W r k (n + m + 2) := by
  induction hr with
  | refl => exact .inl rfl
  | @step r px k hl hp _ ih =>
    obtain ⟨n, -, hlive⟩ := hs.live r k hl
    right
    cases hlive with
    | disk _ ho =>
      rw [parentRoot_disk ho] at hp
      cases hp
    | @diff _ px' _ n dl _ ho hroot hstale horigin hmiss hworld hparent =>
      have hlive : Live t D W r k (n + 1) :=
        .diff hl ho hroot hstale horigin hmiss hworld hparent
      rw [parentRoot_diff ho, hparent.rootOf] at hp
      obtain rfl : px' = px := some.inj hp
      obtain rfl | ⟨k', n', hl'⟩ := ih
      · obtain hdp : p = dl.parent := some.inj (h.below.lookup.symm.trans hparent.lookup)
        rw [← hdp] at hparent
        have := (hparent.unique h.below).2
        refine ⟨k, 0, ?_⟩
        convert hlive using 1
        omega
      obtain rfl : k' = dl.parent := some.inj (hl'.lookup.symm.trans hparent.lookup)
      have := (hparent.unique hl').2
      refine ⟨k, n' + 1, ?_⟩
      convert hlive using 1
      omega

theorem kept_of_through (hk : Kept t₂ kept) (hfD : f ≠ D)
    (hr : Through t pr r) {k : ℕ} (hrk : t₂.layers.lookup r = some k) : kept.lookup r = some k := by
  have hother : ∀ q k, Through t pr q → q ≠ pr → q ≠ rj → t₂.layers.lookup q = some k →
      t.layers.lookup q = some k ∧ t₂.objects k = t.objects k := by
    intro q k hq hqp hqj hqk
    rw [h.lookup_ne q hqp] at hqk
    obtain hq | ⟨k', n, hl⟩ := h.height_through hs hq
    · exact absurd hq hqp
    obtain rfl : k' = k := some.inj (hl.lookup.symm.trans hqk)
    exact ⟨hqk, h.upper q k' (n + m) hqp hqj hl⟩
  have habove : t₂.layers.lookup rj = some j := (h.lookup_ne rj h.ne_above).trans h.above.lookup
  refine hk.closed (fun q => Through t pr q ∨ q = t.snapshotRoot ∧ D' = D) ?_ ?_ r k (.inl hr) hrk
  · rintro q c hc hP
    obtain ⟨k, hk, hp⟩ := of_mem_childrenOf hc
    by_cases hcp : c = pr
    · subst hcp
      obtain rfl : f = k := some.inj (h.lookup_self.symm.trans hk)
      obtain ⟨hD, hbase, -, -, fl, ho, -, -, -, hpar, -⟩ | ⟨-, ho, -⟩ := h.base
      · rw [parentRoot_diff ho, hpar, Tree.rootOf, hbase, hs.base] at hp
        exact .inr ⟨(some.inj hp).symm, hD⟩
      rw [parentRoot_disk ho] at hp
      cases hp
    by_cases hcj : c = rj
    · subst hcj
      obtain rfl : j = k := some.inj (habove.symm.trans hk)
      rw [parentRoot_diff h.rewired, h.rootOf_flat] at hp
      obtain rfl : pr = q := some.inj hp
      exact .inl .refl
    obtain hc | ⟨rfl, hD⟩ := hP
    · obtain ⟨hl, -⟩ := hother c k hc hcp hcj hk
      rw [h.parents c k hcp hcj hl] at hp
      cases hc with
      | refl => exact absurd rfl hcp
      | step hl' hp' hthrough =>
        obtain rfl := some.inj (hl.symm.trans hl')
        obtain rfl := some.inj (hp.symm.trans hp')
        exact .inl hthrough
    obtain ⟨-, hbase, -⟩ | ⟨hf, -⟩ := h.base
    · rw [h.lookup_ne _ hcp, hs.disk] at hk
      obtain rfl : D = k := some.inj hk
      rw [parentRoot_disk (hbase.trans hs.base)] at hp
      cases hp
    · exact absurd (hf.symm.trans hD) hfD
  rintro q k hP hqk
  by_cases hqp : q = pr
  · subst hqp
    obtain rfl : f = k := some.inj (h.lookup_self.symm.trans hqk)
    obtain ⟨-, -, -, -, fl, ho, -, hst, -⟩ | ⟨-, ho, -⟩ := h.base
    · rw [Tree.isStale, ho]
      exact hst
    rw [Tree.isStale, ho]
    rfl
  by_cases hqj : q = rj
  · subst hqj
    obtain rfl : j = k := some.inj (habove.symm.trans hqk)
    obtain ⟨-, -, -, -, hst, -⟩ := h.above.of_diff h.object
    rw [Tree.isStale, h.rewired]
    exact hst
  obtain hq | ⟨rfl, hD⟩ := hP
  · obtain ⟨hl, ho⟩ := hother q k hq hqp hqj hqk
    obtain ⟨n, -, hlive⟩ := hs.live q k hl
    have hst := hlive.not_stale
    rw [Tree.isStale, ho]
    exact hst
  obtain ⟨-, hbase, -⟩ | ⟨hf, -⟩ := h.base
  · rw [h.lookup_ne _ hqp, hs.disk] at hqk
    obtain rfl : D = k := some.inj hqk
    rw [Tree.isStale, hbase, hs.base]
    rfl
  · exact absurd (hf.symm.trans hD) hfD

theorem stale_below (hk : Kept t₂ kept) (hfD : f ≠ D)
    (hfp : f ≠ p) {k : ℕ} {dk} (hr : t.layers.lookup r = some k)
    (ho : t.objects k = some (.diff dk)) (hpar : dk.parent = p) (hne : k ≠ j) :
    kept.lookup r = some k ∧ ∃ s, Below t₂ k s ∧ t₂.isStale s = true := by
  obtain ⟨n, hn, hl⟩ := hs.live r k hr
  obtain ⟨pr', n', rfl, -, hst, -, -, -, hlp⟩ := hl.of_diff ho
  rw [hpar] at hlp
  obtain ⟨rfl, rfl⟩ := hlp.unique h.below
  have hrp : r ≠ pr' := by
    rintro rfl
    obtain rfl : k = p := some.inj (hr.symm.trans h.below.lookup)
    exact absurd (hl.unique h.below).2 (by omega)
  have hrj : r ≠ rj := by
    rintro rfl
    exact hne (some.inj (hr.symm.trans h.above.lookup))
  have hsame : t₂.objects k = some (.diff dk) := (h.upper r k m hrp hrj hl).trans ho
  refine ⟨?_, ?_⟩
  · have hlk : t₂.layers.lookup r = some k := (h.lookup_ne r hrp).trans hr
    refine h.kept_of_through hs hk hfD (.step hr ?_ .refl) hlk
    rw [parentRoot_diff ho, hpar, hlp.rootOf]
  obtain ⟨s, hb, hs'⟩ := h.dangling hfp
  rw [← hpar] at hb
  exact ⟨s, .step hsame hb, hs'⟩

end Rebased

end Geth.Snapshot.Capping
