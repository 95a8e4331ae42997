import Geth.Snapshot.Capping

namespace Geth.Snapshot.Survivors

open Common.Basic LayerTree Answers Merging Capping Function Option
open AList Nat

variable {B : BloomFilter} {t t₁ t₂ t' : Tree B} {D D' : ℕ} {W : Hash → World} {r pr rj br : Hash}
  {i p j f b m n : ℕ} {dj fl : DiffLayer B} {limit : UInt64}

section

/-- The links of the layer `j` are set to `f`, which is registered. -/
def relink (t : Tree B) (root : Hash) (j f : ℕ) : Tree B := (t.register root f).setParent j f

theorem relink_objects (h : t.objects j = some (.diff dj)) :
    (relink t pr j f).objects = update t.objects j (some (.diff { dj with parent := f })) := by
  rw [relink, Tree.setParent, show (t.register pr f).diffLayer j = some dj from diffLayer_eq_some h]
  rfl

theorem relink_fields (pr : Hash) (f : ℕ) (h : t.objects j = some (.diff dj)) :
    (relink t pr j f).layers = t.layers.insert pr f ∧ (relink t pr j f).next = t.next ∧
      (relink t pr j f).diskdb = t.diskdb ∧ (relink t pr j f).snapshotRoot = t.snapshotRoot ∧
      (relink t pr j f).accountCache = t.accountCache ∧
      (relink t pr j f).storageCache = t.storageCache := by
  rw [relink, Tree.setParent, show (t.register pr f).diffLayer j = some dj from diffLayer_eq_some h]
  exact ⟨rfl, rfl, rfl, rfl, rfl, rfl⟩

theorem parentRoot_congr {k : ℕ} (ho : t'.objects k = t.objects k)
    (hroots : ∀ k < n, t'.rootOf k = t.rootOf k)
    (hparent : ∀ dl, t.objects k = some (.diff dl) → dl.parent < n) :
    t'.parentRoot k = t.parentRoot k := by
  rw [Tree.parentRoot, Tree.parentRoot, Tree.diffLayer, Tree.diffLayer, ho]
  split
  · next dl hdl => exact hroots _ (hparent dl hdl)
  · rfl

theorem Live.parent_lt {dl} (hs : Sound t D W) (h : Live t D W r i n)
    (ho : t.objects i = some (.diff dl)) : dl.parent < t.next := by
  obtain ⟨_, _, -, -, -, -, -, -, hp⟩ := h.of_diff ho
  obtain ⟨l, hl, -, -⟩ := hp.object
  exact hs.lt_next hl

variable (hs : Sound t D W) (habove : Live t D W rj j (m + 2)) (hj : t.objects j = some (.diff dj))
  (hparent : dj.parent = p) (hworld : W rj = dj.data.apply [] (W pr))
  (hbelow : Live t D W pr p (m + 1)) (hb : Live t D W br b 1)
  (hflat : Flattened t D W pr p m b f t₁)
include hs habove hj hparent hworld hbelow hb hflat

theorem rebased_flat : f ≠ D ∧ Rebased t (relink t₁ pr j f) D D W pr rj p j f m dj ∧
    ∀ r k dl, r ≠ rj → t.layers.lookup r = some k →
      (relink t₁ pr j f).objects k = some (.diff dl) → dl.parent < t.next := by
  have hjlt : j < t.next := hs.lt_next hj
  have hjb : j ≠ b := habove.ne hb (by omega)
  have hdisk := hs.live_disk
  have hDb : D ≠ b := hdisk.ne hb (by omega)
  have hDj : D ≠ j := hdisk.ne habove (by omega)
  have hDlt : D < t.next := hs.lt_next hs.base
  have hj₁ : t₁.objects j = some (.diff dj) := (hflat.frame j hjlt hjb).trans hj
  have hobj : (relink t₁ pr j f).objects =
      update t₁.objects j (some (.diff { dj with parent := f })) := relink_objects hj₁
  obtain ⟨hlayers, hnext, hdb, hsr, hac, hsc⟩ := relink_fields pr f hj₁
  obtain ⟨fl, hfl, hroot, hstale, horigin, hpar, hmiss, hfw⟩ := hflat.layer
  have hfj : f ≠ j := by
    obtain hm | hm := Nat.eq_zero_or_pos m
    · rw [(hflat.single hm).1]
      exact hbelow.ne habove (by omega)
    · exact (hjlt.trans_le (hflat.several hm).1).ne'
  have hfD : f ≠ D := by
    obtain hm | hm := Nat.eq_zero_or_pos m
    · rw [(hflat.single hm).1]
      exact hbelow.ne hdisk (by omega)
    · exact (hDlt.trans_le (hflat.several hm).1).ne'
  have hDobj : (relink t₁ pr j f).objects D = t.objects D := by
    rw [hobj, update_of_ne hDj]
    exact hflat.frame D hDlt hDb
  have hroots : ∀ k < t.next, (relink t₁ pr j f).rootOf k = t.rootOf k := by
    intro k hk
    rw [Tree.rootOf, hobj]
    by_cases hkj : k = j
    · subst hkj
      rw [update_self, Tree.rootOf, hj]
      rfl
    rw [update_of_ne hkj]
    by_cases hkb : k = b
    · subst hkb
      exact hflat.root
    rw [hflat.frame k hk hkb]
    rfl
  have hne : ∀ r k, r ≠ rj → t.layers.lookup r = some k → k ≠ j := by
    rintro r k hr hk rfl
    exact hr (hs.inj hk habove.lookup)
  have hsame : ∀ r k, r ≠ rj → t.layers.lookup r = some k → k ≠ b →
      (relink t₁ pr j f).objects k = t.objects k := by
    intro r k hr hk hkb
    rw [hobj, update_of_ne (hne r k hr hk)]
    exact hflat.frame k (hs.lookup_lt hk) hkb
  -- the layer that took the data in was not registered for itself
  have hbottom : ∀ r, r ≠ pr → t.layers.lookup r = some b → 0 < m := by
    intro r hr hrb
    by_contra hm
    rw [(hflat.single (Nat.eq_zero_of_not_pos hm)).2.1] at hrb
    exact hr (hs.inj hrb hbelow.lookup)
  refine ⟨hfD, ⟨habove, hj, hparent, hworld, hbelow, ?_, ?_, ?_, ?_, ?_, ?_, hroots, ?_, ?_, ?_, ?_, ?_,
    ?_⟩, ?_⟩
  · rw [hlayers, lookup_insert]
  · intro r hr
    rw [hlayers, lookup_insert_ne hr, hflat.layers]
  · rw [hobj, update_self]
  · intro r k hr hrj hk
    by_cases hkb : k = b
    · subst hkb
      right
      rw [Tree.isStale, hobj, update_of_ne (hne r k hrj hk)]
      exact (hflat.several (hbottom r hr hk)).2.2
    · exact .inl (hsame r k hrj hk hkb)
  · intro r k n hr hrj hl
    refine hsame r k hrj hl.lookup ?_
    exact hl.ne hb (by omega)
  · intro r k hr hrj hk
    obtain ⟨n, -, hl⟩ := hs.live r k hk
    by_cases hkb : k = b
    · subst hkb
      obtain ⟨bl, hob, hbp⟩ := hflat.bottom
      have hob' : (relink t₁ pr j f).objects k = some (.diff bl) := by
        rw [hobj, update_of_ne (hne r k hrj hk), hob]
      rw [parentRoot_diff hob', hbp, hroots D hDlt]
      obtain ⟨dl, hdl⟩ := hb.exists_diff
      obtain ⟨_, n', hn', -, -, -, -, -, hp⟩ := hb.of_diff hdl
      obtain rfl : n' = 0 := by omega
      rw [parentRoot_diff hdl, hp.eq_disk]
    · exact parentRoot_congr (hsame r k hrj hk hkb) hroots fun dl hdl => Live.parent_lt hs hl hdl
  · rw [hnext]
    exact hflat.next
  · intro k hk
    rw [hnext] at hk
    rw [hobj, update_of_ne (hjlt.trans_le (hflat.next.trans hk)).ne']
    exact hflat.fresh k hk
  · intro hfp
    have hm : 0 < m := pos_of_ne_zero fun hm => hfp (hflat.single hm).1
    refine ⟨b, hflat.below_of_same hs hb hm hbelow ?_, ?_⟩
    · intro q k n hl hn
      rw [hobj, update_of_ne]
      exact hl.ne habove (by omega)
    rw [Tree.isStale, hobj, update_of_ne hjb.symm]
    exact (hflat.several hm).2.2
  · refine .inl ⟨rfl, hDobj, hdb.trans hflat.diskdb, hsr.trans hflat.snapshotRoot, fl, ?_, hroot, hstale,
      horigin, hpar, hmiss, hfw⟩
    rw [hobj, update_of_ne hfj, hfl]
  · rw [hac, hdb, hflat.accountCache, hflat.diskdb]
    exact hs.cachedAccount
  · rw [hsc, hdb, hflat.storageCache, hflat.diskdb]
    exact hs.cachedStorage
  intro r k dl hr hk ho
  by_cases hkb : k = b
  · subst hkb
    obtain ⟨bl, hob, hbp⟩ := hflat.bottom
    rw [hobj, update_of_ne (hne r k hr hk), hob] at ho
    cases ho
    rwa [hbp]
  rw [hsame r k hr hk hkb] at ho
  obtain ⟨n, -, hl⟩ := hs.live r k hk
  exact Live.parent_lt hs hl ho

/-- The flattened layer is written to disk and the layer above it linked to
the new disk layer. -/
theorem rebased_written {t₃} {f' : ℕ} (hdisk : (relink t₁ pr j f).diffToDisk f = .ok (f', t₃)) :
    f' ≠ D ∧ Rebased t (relink t₃ pr j f') D f' W pr rj p j f' m dj := by
  obtain ⟨hfD, h, hbounded⟩ := rebased_flat hs habove hj hparent hworld hbelow hb hflat
  set t₂ := relink t₁ pr j f with ht₂
  obtain ⟨-, hbase, hdb, hsr, fl, hfl, hroot, hstale, horigin, hpar, hmiss, hfw⟩ | ⟨hD, -⟩ := h.base
  swap
  · exact absurd hD.symm hfD
  have hD₂ : t₂.objects fl.parent = some (.disk ⟨t.snapshotRoot, false, t.genAbort D⟩) := by
    rw [hpar, hbase, hs.base]
  obtain ⟨t₃', hto, hobj₃, hnext₃, hlayers₃, hsr₃, hdb₃, hac₃, hsc₃⟩ := diffToDisk_spec hfl hD₂
  rw [hto] at hdisk
  cases hdisk
  rw [hpar] at hobj₃
  have hjlt : j < t.next := hs.lt_next hj
  have hDlt : D < t.next := hs.lt_next hs.base
  have hlive := hs.live_disk
  have hDj : D ≠ j := hlive.ne habove (by omega)
  have hnew : ∀ k < t.next, k ≠ t₂.next := fun k hk => (hk.trans_le h.next).ne
  have hj₃ : t₃.objects j = some (.diff { dj with parent := f }) := by
    rw [hobj₃, update_of_ne (hnew j hjlt), update_of_ne hDj.symm, h.rewired]
  have hobj : (relink t₃ pr j t₂.next).objects =
      update t₃.objects j (some (.diff { dj with parent := t₂.next })) := by
    rw [relink_objects hj₃]
  obtain ⟨hlayers, hnext, hdb₄, hsr₄, hac, hsc⟩ := relink_fields pr t₂.next hj₃
  have hold : ∀ k < t.next, k ≠ j → k ≠ D → (relink t₃ pr j t₂.next).objects k = t₂.objects k := by
    intro k hk hkj hkD
    rw [hobj, update_of_ne hkj, hobj₃, update_of_ne (hnew k hk), update_of_ne hkD]
  have hDobj : (relink t₃ pr j t₂.next).objects D = some (.disk ⟨t.snapshotRoot, true, t.genAbort D⟩) := by
    rw [hobj, update_of_ne hDj, hobj₃, update_of_ne (hnew D hDlt), update_self]
  have hfobj : (relink t₃ pr j t₂.next).objects t₂.next = some (.disk ⟨pr, false, false⟩) := by
    rw [hobj, update_of_ne (hnew j hjlt).symm, hobj₃, update_self, hroot]
  have hroots : ∀ k < t.next, (relink t₃ pr j t₂.next).rootOf k = t.rootOf k := by
    intro k hk
    by_cases hkj : k = j
    · subst hkj
      rw [Tree.rootOf, hobj, update_self, Tree.rootOf, hj]
      rfl
    by_cases hkD : k = D
    · subst hkD
      rw [Tree.rootOf, hDobj, Tree.rootOf, hs.base]
      rfl
    rw [Tree.rootOf, hold k hk hkj hkD]
    exact h.roots k hk
  have hne : ∀ r k, r ≠ rj → t.layers.lookup r = some k → k ≠ j := by
    rintro r k hr hk rfl
    exact hr (hs.inj hk habove.lookup)
  have hp : p ≠ t₂.next := hnew p (hs.lookup_lt hbelow.lookup)
  refine ⟨(hnew D hDlt).symm, habove, hj, hparent, hworld, hbelow, ?_, ?_, ?_, ?_, ?_, ?_, hroots, ?_,
    ?_, ?_, ?_, ?_, ?_⟩
  · rw [hlayers, lookup_insert]
  · intro r hr
    rw [hlayers, lookup_insert_ne hr, hlayers₃]
    exact h.lookup_ne r hr
  · rw [hobj, update_self]
  · intro r k hr hrj hk
    by_cases hkD : k = D
    · right
      rw [hkD, Tree.isStale, hDobj]
      rfl
    have hk₂ := hold k (hs.lookup_lt hk) (hne r k hrj hk) hkD
    obtain hsame | hst := h.others r k hr hrj hk
    · exact .inl (hk₂.trans hsame)
    right
    rw [Tree.isStale, hk₂]
    exact hst
  · intro r k n hr hrj hl
    refine (hold k (hs.lookup_lt hl.lookup) (hne r k hrj hl.lookup) ?_).trans (h.upper r k n hr hrj hl)
    exact hl.ne hlive (by omega)
  · intro r k hr hrj hk
    by_cases hkD : k = D
    · rw [hkD, parentRoot_disk hDobj, parentRoot_disk hs.base]
    rw [← h.parents r k hr hrj hk]
    have hk₂ := hold k (hs.lookup_lt hk) (hne r k hrj hk) hkD
    refine parentRoot_congr hk₂ (fun k hk => (hroots k hk).trans (h.roots k hk).symm) ?_
    exact fun dl => hbounded r k dl hrj hk
  · rw [hnext, hnext₃]
    exact h.next.trans (le_succ _)
  · intro k hk
    rw [hnext, hnext₃] at hk
    have := h.next
    rw [hobj, update_of_ne (by omega), hobj₃, update_of_ne (by omega), update_of_ne (by omega)]
    exact h.fresh k (by omega)
  · intro _
    have hlow : ∀ q k n, Live t D W q k (n + 1) → n ≤ m →
        (relink t₃ pr j t₂.next).objects k = t₂.objects k := by
      intro q k n hl hn
      refine hold k (hs.lookup_lt hl.lookup) ?_ ?_
      · exact hl.ne habove (by omega)
      · exact hl.ne hlive (by omega)
    obtain hm | hm := Nat.eq_zero_or_pos m
    · obtain ⟨rfl, -, -⟩ := hflat.single hm
      refine ⟨D, ?_, ?_⟩
      · rw [← hpar]
        exact .parent ((hlow pr f m hbelow le_rfl).trans hfl)
      rw [Tree.isStale, hDobj]
      rfl
    have hj₁ : t₁.objects j = some (.diff dj) := by
      rw [hflat.frame j hjlt, hj]
      exact habove.ne hb (by omega)
    have hlow₁ : ∀ q k n, Live t D W q k (n + 1) → n ≤ m →
        (relink t₃ pr j t₂.next).objects k = t₁.objects k := by
      intro q k n hl hn
      rw [hlow q k n hl hn, ht₂, relink_objects hj₁, update_of_ne]
      exact hl.ne habove (by omega)
    refine ⟨b, hflat.below_of_same hs hb hm hbelow hlow₁, ?_⟩
    rw [Tree.isStale, hlow₁ br b 0 hb (zero_le m)]
    exact (hflat.several hm).2.2
  · right
    refine ⟨rfl, hfobj, ?_, hp.symm, ?_, ?_⟩
    · rw [Tree.isStale, hDobj]
      rfl
    · rw [hdb₄, hdb₃, hdb, hs.stored]
      exact hfw.symm
    · rw [hsr₄, hsr₃, hroot]
  · rw [hac, hdb₄]
    exact hac₃ h.cachedAccount
  rw [hsc, hdb₄]
  exact hsc₃ h.cachedStorage

end

section

def onlyChild (t : Tree B) (j parent : ℕ) : Bool :=
  t.layers.entries.all fun e =>
    (t.diffLayer e.2).all fun dk => decide (dk.parent ≠ parent ∨ e.2 = j)

/-- Whether a `Cap` replaces no layer that more than one registered layer is
built on. -/
def leavesOthers (limit : UInt64) (t : Tree B) (i layers : ℕ) : Bool :=
  match t.dive (layers - 1) i with
  | none => true
  | some j =>
    match t.diffLayer j with
    | none => true
    | some dl =>
      match t.diffLayer dl.parent with
      | none => true
      | some p =>
        ((t.diffLayer p.parent).isNone && (decide (p.memory < limit) && !t.genAbort p.parent)) ||
          onlyChild t j dl.parent

theorem onlyChild_iff : onlyChild t j p = true ↔ ∀ r k dk, t.layers.lookup r = some k →
    t.objects k = some (.diff dk) → dk.parent = p → k = j := by
  rw [onlyChild, List.all_eq_true]
  refine ⟨fun h r k dk hk ho hp => ?_, fun h e he => ?_⟩
  · have := h ⟨r, k⟩ (AList.mem_lookup_iff.mp hk)
    rw [diffLayer_eq_some ho, all_some, decide_eq_true_iff] at this
    exact this.resolve_left (not_not.mpr hp)
  obtain ⟨r, k⟩ := e
  cases hdk : t.diffLayer k with
  | none => rfl
  | some dk =>
    rw [all_some, decide_eq_true_iff]
    by_cases hp : dk.parent = p
    · exact .inr (h r k dk (AList.mem_lookup_iff.mpr he) (object_of_diffLayer hdk) hp)
    · exact .inl hp

end

section

theorem dive_spec {x : ℕ} (hs : Sound t D W) (h : Live t D W r i (n + 1)) (hd : t.dive x i = some j) :
    ∃ rj n', Live t D W rj j (n' + 1) ∧ ∀ pr, Through t pr rj → Through t pr r := by
  induction x generalizing r i n with
  | zero =>
    obtain rfl : i = j := some.inj hd
    exact ⟨r, n, h, fun _ hr => hr⟩
  | succ x ih =>
    obtain ⟨dl, ho⟩ := h.exists_diff
    obtain ⟨px, n', hn', -, -, -, -, -, hp⟩ := h.of_diff ho
    obtain rfl : n = n' := by omega
    rw [Tree.dive, diffLayer_eq_some ho] at hd
    dsimp only at hd
    split at hd
    · next hsome =>
      cases n with
      | zero =>
        rw [hp.eq_disk, diffLayer_disk hs.base] at hsome
        cases hsome
      | succ n =>
        obtain ⟨rj, n', hj, hthrough⟩ := ih hp hd
        refine ⟨rj, n', hj, fun pr hr => .step h.lookup ?_ (hthrough pr hr)⟩
        rw [parentRoot_diff ho, hp.rootOf]
    · cases hd

end

section

theorem cleanUp_none (hs : Sound t D W) : t.cleanUp none = .ok t := by
  have hstale : t.removeStale = some t.layers := by
    have hnil : (t.layers.entries.filter fun e => t.isStale e.2) = [] := by
      rw [List.filter_eq_nil_iff]
      rintro ⟨r, k⟩ he
      obtain ⟨n, -, hl⟩ := hs.live r k (AList.mem_lookup_iff.mpr he)
      rw [hl.not_stale]
      exact Bool.false_ne_true
    rw [Tree.removeStale, hnil]
    rfl
  rw [Tree.cleanUp, hstale]

/-- What `Cap` does to a sound tree. -/
structure Outcome (t t' : Tree B) (W : Hash → World) (r : Hash) (good : Prop) : Prop where
  registered : ∀ q k, t'.layers.lookup q = some k → ∃ k₀, t.layers.lookup q = some k₀
  root : ∃ k, t'.layers.lookup r = some k
  sound : good → ∃ D', Sound t' D' W
  stale : ¬good → ∃ q k s, t'.layers.lookup q = some k ∧ Below t' k s ∧ t'.isStale s = true

variable {good : Prop} {dl : DiffLayer B}

theorem Outcome.refl (hs : Sound t D W) (hr : t.layers.lookup r = some i)
    (hgood : good) : Outcome t t W r good :=
  ⟨fun _ k hk => ⟨k, hk⟩, ⟨i, hr⟩, fun _ => ⟨D, hs⟩, fun hn => absurd hgood hn⟩

theorem exists_old (hs : Sound t D W) (h : Rebased t t₂ D D' W pr rj p j f m dj) {k : ℕ}
    (hk : t₂.layers.lookup r = some k) : ∃ k₀, t.layers.lookup r = some k₀ := by
  obtain ⟨k₀, n, -, hl, -⟩ := h.exists_live hs hk
  exact ⟨k₀, hl.lookup⟩

theorem lookup_through (h : Rebased t t₂ D D' W pr rj p j f m dj)
    (hr : t.layers.lookup r = some i) : ∃ k, t₂.layers.lookup r = some k := by
  by_cases hrp : r = pr
  · exact ⟨f, hrp ▸ h.lookup_self⟩
  · exact ⟨i, (h.lookup_ne r hrp).trans hr⟩

theorem cleanUp_flat (hs : Sound t D W) (h : Rebased t t₂ D D W pr rj p j f m dj) (hfD : f ≠ D)
    (hr : t.layers.lookup r = some i) (hthrough : Through t pr r) :
    ∃ t', t₂.cleanUp none = .ok t' ∧ Outcome t t' W r (f = p ∨ onlyChild t j p = true) := by
  obtain ⟨kept, hkept, hk⟩ := removeStale_spec fun r k hrk => h.exists_visit hs hrk
  refine ⟨{ t₂ with layers := kept }, by rw [Tree.cleanUp, hkept], ?_, ?_, ?_, ?_⟩
  · exact fun q k hq => exists_old hs h (hk.lookup q k hq)
  · obtain ⟨k, hrk⟩ := lookup_through h hr
    exact ⟨k, h.kept_of_through hs hk hfD hthrough hrk⟩
  · intro hgood
    refine ⟨D, h.sound_of_flat hs hk rfl hfD ?_⟩
    rwa [onlyChild_iff] at hgood
  intro hbad
  rw [onlyChild_iff] at hbad
  push Not at hbad
  obtain ⟨hfp, q, k, dk, hq, ho, hpar, hne⟩ := hbad
  obtain ⟨hkq, s, hb, hst⟩ := h.stale_below hs hk hfD hfp hq ho hpar hne
  exact ⟨q, k, s, hkq, hb.mono fun _ dl hdl => ⟨dl, hdl, rfl⟩, hst⟩

theorem cleanUp_written (hs : Sound t D W) (h : Rebased t t₂ D f W pr rj p j f m dj) (hfD : f ≠ D)
    (hr : t.layers.lookup r = some i) (hthrough : Through t pr r) :
    ∃ t', t₂.cleanUp (some f) = .ok t' ∧ Outcome t t' W r (onlyChild t j p = true) := by
  obtain ⟨kept, hkept, hk⟩ := removeStale_spec fun r k hrk => h.exists_visit hs hrk
  obtain ⟨roots, hroots⟩ := h.exists_visit hs h.lookup_self
  have hreb := rebloomAll_rebloomed f roots { t₂ with layers := kept }
  refine ⟨Tree.rebloomAll f { t₂ with layers := kept } roots, ?_, ?_, ?_, ?_, ?_⟩
  · rw [Tree.cleanUp, hkept]
    dsimp only
    rw [h.rootOf_flat, bind_some, hroots]
  · intro q k hq
    rw [hreb.layers] at hq
    exact exists_old hs h (hk.lookup q k hq)
  · obtain ⟨k, hrk⟩ := lookup_through h hr
    rw [hreb.layers]
    exact ⟨k, h.kept_of_through hs hk hfD hthrough hrk⟩
  · intro hgood
    exact ⟨f, h.sound_of_written hs hk rfl hfD hroots (onlyChild_iff.mp hgood)⟩
  intro hbad
  rw [onlyChild_iff] at hbad
  push Not at hbad
  obtain ⟨q, k, dk, hq, ho, hpar, hne⟩ := hbad
  have hfp : f ≠ p := by
    obtain ⟨hD, -⟩ | ⟨-, -, -, hfp, -⟩ := h.base
    · exact absurd hD hfD
    · exact hfp
  obtain ⟨hkq, s, hb, hst⟩ := h.stale_below hs hk hfD hfp hq ho hpar hne
  refine ⟨q, k, s, ?_, hb.mono ?_, ?_⟩
  · rw [hreb.layers]
    exact hkq
  · intro x dl hdl
    obtain ⟨o, d, hx⟩ := hreb.diff x dl hdl
    exact ⟨_, hx, rfl⟩
  rw [Tree.isStale] at hst ⊢
  cases hos : t₂.objects s with
  | none =>
    rw [hos] at hst
    cases hst
  | some l =>
    rw [hos] at hst
    cases l with
    | disk dl =>
      rw [hreb.other s (diffLayer_disk hos)]
      rw [hos]
      exact hst
    | diff dl =>
      obtain ⟨o, d, hx⟩ := hreb.diff s dl hos
      rw [hx]
      exact hst

theorem Outcome.congr {good' : Prop} (hiff : good ↔ good') (h : Outcome t t' W r good) :
    Outcome t t' W r good' :=
  ⟨h.registered, h.root, fun hg => h.sound (hiff.mpr hg), fun hg => h.stale fun hg' => hg (hiff.mp hg')⟩

/-- `Cap` without the disk, from the layer where the layers below are merged. -/
theorem merge_spec (limit : UInt64) {pl} (hs : Sound t D W)
    (habove : Live t D W rj j (m + 2)) (hj : t.objects j = some (.diff dj))
    (hpl : t.objects dj.parent = some (.diff pl)) (hr : t.layers.lookup r = some i)
    (hthrough : ∀ pr, Through t pr rj → Through t pr r) :
    ∃ f t₁ fl, t.flatten t.next dj.parent = .ok (f, t₁) ∧ t₁.diffLayer f = some fl ∧
      ∃ persisted t₂ t', (relink t₁ fl.root j f).persist limit j f fl = .ok (persisted, t₂) ∧
        t₂.cleanUp persisted = .ok t' ∧
        Outcome t t' W r ((t.diffLayer pl.parent).isNone = true ∧
            (pl.memory < limit ∧ t.genAbort pl.parent = false) ∨ onlyChild t j dj.parent = true) := by
  obtain ⟨pr, m', hm', -, -, -, -, hworld, hbelow⟩ := habove.of_diff hj
  obtain rfl : m' = m + 1 := by omega
  obtain ⟨n, hn, hl⟩ := hs.live pr _ hbelow.lookup
  have hmn := (hbelow.unique hl).2
  obtain ⟨b, br, f, t₁, hflat, hb, hF⟩ := flatten_spec hs hbelow (show m < t.next by omega)
  obtain ⟨fl, hfl, hroot, hstale, horigin, hpar, hmiss, hfw⟩ := hF.layer
  obtain ⟨hfD, hR, -⟩ := rebased_flat hs habove hj rfl hworld hbelow hb hF
  have hthr : Through t pr r := by
    refine hthrough pr (.step habove.lookup ?_ .refl)
    rw [parentRoot_diff hj, hbelow.rootOf]
  -- nothing is merged if and only if the layer lies on the disk
  have hsingle : f = dj.parent ∧ (fl.memory < limit ∧ t.genAbort D = false) ↔
      (t.diffLayer pl.parent).isNone = true ∧ (pl.memory < limit ∧ t.genAbort pl.parent = false) := by
    obtain ⟨_, n', hn', -, -, -, -, -, hp⟩ := hbelow.of_diff hpl
    obtain rfl : n' = m := by omega
    cases n' with
    | zero =>
      obtain ⟨hf, -, rfl⟩ := hF.single rfl
      rw [hf, hpl] at hfl
      cases hfl
      rw [hp.eq_disk, diffLayer_disk hs.base]
      simp only [hf, isNone_none]
    | succ n' =>
      obtain ⟨gl, hgl⟩ := hp.exists_diff
      have hne : f ≠ dj.parent :=
        ((hs.lt_next hpl).trans_le (hF.several (succ_pos n')).1).ne'
      rw [diffLayer_eq_some hgl]
      simp only [hne, isNone_some, false_and, Bool.false_eq_true]
  refine ⟨f, t₁, fl, hflat, diffLayer_eq_some hfl, ?_⟩
  rw [hroot]
  obtain ⟨-, hbase, -, -, fl', hfl', hroot', -, -, hpar', -⟩ | ⟨hD, -⟩ := hR.base
  · have hdisk : (relink t₁ pr j f).objects fl.parent =
        some (.disk ⟨t.snapshotRoot, false, t.genAbort D⟩) := by
      rw [hpar, hbase, hs.base]
    by_cases hstop : fl.memory < limit ∧ t.genAbort D = false
    · obtain ⟨t', hclean, hout⟩ := cleanUp_flat hs hR hfD hr hthr
      refine ⟨none, _, t', ?_, hclean, hout.congr ?_⟩
      · rw [Tree.persist, if_pos hstop.1, diskLayer_eq_some hdisk]
        dsimp only
        rw [hstop.2, if_neg Bool.false_ne_true]
      · rw [← hsingle, and_iff_left hstop]
    · obtain ⟨t₃, hto, -⟩ := diffToDisk_spec hfl'
        (show _ = some (Layer.disk ⟨t.snapshotRoot, false, t.genAbort D⟩) by rw [hpar', hbase, hs.base])
      obtain ⟨hfD', hR'⟩ := rebased_written hs habove hj rfl hworld hbelow hb hF hto
      obtain ⟨t', hclean, hout⟩ := cleanUp_written hs hR' hfD' hr hthr
      refine ⟨some _, _, t', ?_, hclean, hout.congr ?_⟩
      · have hdown : (relink t₁ pr j f).persist limit j f fl = (relink t₁ pr j f).writeDown j f fl.root := by
          rw [Tree.persist, diskLayer_eq_some hdisk]
          dsimp only
          by_cases hmem : fl.memory < limit
          · have habort : t.genAbort D = true := Bool.not_eq_false _ ▸ fun h => hstop ⟨hmem, h⟩
            rw [if_pos hmem, habort, if_pos rfl]
          · rw [if_neg hmem]
        rw [hdown, Tree.writeDown, hto, hroot]
        rfl
      · rw [← hsingle, or_iff_right fun h => hstop h.2]
  · exact absurd hD.symm hfD

section

variable (hs : Sound t D W) (hr : t.layers.lookup r = some i) (hd : t.diffLayer i = some dl)
include hs hr hd

theorem cap_spec {layers : ℕ} (hn : layers ≠ 0) : ∃ t', t.cap limit r layers = .ok t' ∧
      Outcome t t' W r (leavesOthers limit t i layers = true) := by
  obtain ⟨n, -, hl⟩ := hs.live r i hr
  obtain ⟨-, n, rfl, -⟩ := hl.of_diff (object_of_diffLayer hd)
  have hcap : ∀ {persisted t₂}, t.capFrom limit i layers = .ok (persisted, t₂) →
      t.cap limit r layers = t₂.cleanUp persisted := by
    intro persisted t₂ hfrom
    rw [Tree.cap, hr]
    dsimp only
    rw [hd, isNone_some, if_neg Bool.false_ne_true, if_neg hn, hfrom]
  have hidle : t.capFrom limit i layers = .ok (none, t) → leavesOthers limit t i layers = true →
      ∃ t', t.cap limit r layers = .ok t' ∧ Outcome t t' W r (leavesOthers limit t i layers = true) := by
    intro hfrom hgood
    refine ⟨t, ?_, .refl hs hr hgood⟩
    rw [hcap hfrom]
    exact cleanUp_none hs
  cases hdive : t.dive (layers - 1) i with
  | none =>
    refine hidle ?_ ?_
    · rw [Tree.capFrom, hdive]
    · rw [leavesOthers, hdive]
  | some j =>
    obtain ⟨rj, n', habove, hthrough⟩ := dive_spec hs hl hdive
    obtain ⟨dj, hj⟩ := habove.exists_diff
    cases n' with
    | zero =>
      obtain ⟨_, n', hn', -, -, -, -, -, hp⟩ := habove.of_diff hj
      obtain rfl : n' = 0 := by omega
      have hnone : t.diffLayer dj.parent = none := by
        rw [hp.eq_disk]
        exact diffLayer_disk hs.base
      refine hidle ?_ ?_
      · rw [Tree.capFrom, hdive]
        dsimp only
        rw [diffLayer_eq_some hj]
        dsimp only
        rw [hnone, isNone_none, if_pos rfl]
      rw [leavesOthers, hdive]
      dsimp only
      rw [diffLayer_eq_some hj]
      dsimp only
      rw [hnone]
    | succ m =>
      obtain ⟨_, n', hn', -, -, -, -, -, hp⟩ := habove.of_diff hj
      obtain rfl : n' = m + 1 := by omega
      obtain ⟨pl, hpl⟩ := hp.exists_diff
      obtain ⟨f, t₁, fl, hflat, hfl, persisted, t₂, t', hpersist, hclean, hout⟩ :=
        merge_spec limit hs habove hj hpl hr hthrough
      refine ⟨t', ?_, hout.congr ?_⟩
      · have hfrom : t.capFrom limit i layers = .ok (persisted, t₂) := by
          rw [Tree.capFrom, hdive]
          dsimp only
          rw [diffLayer_eq_some hj]
          dsimp only
          rw [diffLayer_eq_some hpl, isNone_some, if_neg Bool.false_ne_true, hflat]
          dsimp only
          rw [hfl]
          exact hpersist
        rw [hcap hfrom, hclean]
      rw [leavesOthers, hdive]
      dsimp only
      rw [diffLayer_eq_some hj]
      dsimp only
      rw [diffLayer_eq_some hpl]
      dsimp only
      rw [Bool.or_eq_true, Bool.and_eq_true, Bool.and_eq_true, decide_eq_true_iff, Bool.not_eq_true']

theorem capAll_spec : ∃ t', t.capAll i = .ok t' ∧ Outcome t t' W r True := by
  obtain ⟨n, hn, hl⟩ := hs.live r i hr
  obtain ⟨-, m, rfl, -⟩ := hl.of_diff (object_of_diffLayer hd)
  obtain ⟨b, br, f, t₁, hflat, hb, hF⟩ := flatten_spec hs hl (show m < t.next by omega)
  obtain ⟨fl, hfl, hroot, hstale, horigin, hpar, hmiss, hfw⟩ := hF.layer
  have hdisk := hs.live_disk
  have hDb : D ≠ b := hdisk.ne hb (by omega)
  have hbase : t₁.objects fl.parent = some (.disk ⟨t.snapshotRoot, false, t.genAbort D⟩) := by
    rw [hpar, hF.frame D (hs.lt_next hs.base) hDb, hs.base]
  obtain ⟨t₂, hto, hobj, hnext, -, hsr, hdb, hac, hsc⟩ := diffToDisk_spec hfl hbase
  have hnew : t₂.objects t₁.next = some (.disk ⟨r, false, false⟩) := by
    rw [hobj, update_self, hroot]
  have hlookup : ∀ q, ((∅ : AList fun _ : Hash => ℕ).insert r t₁.next).lookup q =
      if q = r then some t₁.next else none := by
    intro q
    by_cases hq : q = r
    · rw [hq, lookup_insert, if_pos rfl]
    · rw [lookup_insert_ne hq, if_neg hq, lookup_empty]
  have honly {q k} (h : ((∅ : AList fun _ : Hash => ℕ).insert r t₁.next).lookup q = some k) :
      q = r ∧ t₁.next = k := by
    rw [hlookup] at h
    split at h
    · exact ⟨‹_›, some.inj h⟩
    · cases h
  refine ⟨{ t₂ with layers := (∅ : AList fun _ : Hash => ℕ).insert r t₁.next }, ?_, ?_, ?_, ?_, ?_⟩
  · rw [Tree.capAll, hflat]
    dsimp only
    rw [hto]
    dsimp only
    rw [diskLayer_eq_some hnew]
  · intro q k hq
    exact ⟨i, (honly hq).1 ▸ hr⟩
  · exact ⟨t₁.next, by rw [hlookup, if_pos rfl]⟩
  · intro _
    refine ⟨t₁.next, ?_, ?_, ?_, ?_, ?_, ?_, ?_⟩
    · intro q k hq
      obtain ⟨rfl, rfl⟩ := honly hq
      refine ⟨0, ?_, .disk ?_ hnew⟩
      · change 0 < t₂.next
        rw [hnext]
        exact succ_pos _
      · rw [hlookup, if_pos rfl]
    · change ((∅ : AList fun _ : Hash => ℕ).insert r t₁.next).lookup t₂.snapshotRoot = _
      rw [hlookup, hsr, hroot, if_pos rfl]
    · change t₂.objects t₁.next = some (.disk ⟨t₂.snapshotRoot, false, t₂.genAbort t₁.next⟩)
      rw [hsr, hroot]
      exact base_of hnew
    · change t₂.diskdb = W t₂.snapshotRoot
      rw [hdb, hsr, hroot, hF.diskdb, hs.stored]
      exact hfw.symm
    · intro k hk
      have hD : D < t₁.next := (hs.lt_next hs.base).trans_le hF.next
      rw [hnext] at hk
      rw [hobj, hpar, update_of_ne (by omega), update_of_ne (by omega)]
      exact hF.fresh k (by omega)
    · refine hac ?_
      rw [hF.accountCache, hF.diskdb]
      exact hs.cachedAccount
    refine hsc ?_
    rw [hF.storageCache, hF.diskdb]
    exact hs.cachedStorage
  intro hno
  exact absurd trivial hno

end

end

end Geth.Snapshot.Survivors
