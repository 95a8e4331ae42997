import Geth.Snapshot.Answers

namespace Geth.Snapshot.Merging

open Lib.BigEndian Lib.Overlay Common.Basic LayerTree Answers Function List Option Nat

variable {B : BloomFilter} {t t' : Tree B} {D : ℕ} {W : Hash → World} {r : Hash} {i j m : ℕ}

inductive Below (t : Tree B) : ℕ → ℕ → Prop
  | parent {i : ℕ} {dl : DiffLayer B} (ho : t.objects i = some (.diff dl)) : Below t i dl.parent
  | step {i j : ℕ} {dl : DiffLayer B} (ho : t.objects i = some (.diff dl))
    (hbelow : Below t dl.parent j) : Below t i j

theorem Below.mono_on {S : ℕ → Prop} (h : Below t i j) (hi : S i)
    (hclosed : ∀ k dl, S k → t.objects k = some (.diff dl) → S dl.parent)
    (hsame : ∀ k dl, S k → t.objects k = some (.diff dl) →
      ∃ dl' : DiffLayer B, t'.objects k = some (.diff dl') ∧ dl'.parent = dl.parent) :
    Below t' i j := by
  induction h with
  | parent ho =>
    obtain ⟨dl', ho', hp⟩ := hsame _ _ hi ho
    rw [← hp]
    exact .parent ho'
  | step ho _ ih =>
    have ih := ih (hclosed _ _ hi ho)
    obtain ⟨dl', ho', hp⟩ := hsame _ _ hi ho
    rw [← hp] at ih
    exact .step ho' ih

theorem Below.mono (h : Below t i j) (hsame : ∀ k dl, t.objects k = some (.diff dl) →
      ∃ dl' : DiffLayer B, t'.objects k = some (.diff dl') ∧ dl'.parent = dl.parent) :
    Below t' i j :=
  h.mono_on (S := fun _ => True) trivial (fun _ _ _ _ => trivial) fun k dl _ ho => hsame k dl ho

section

/-- The flattened layer `f` of the layer `i`, which has `m` more diff layers
below it with `b` the lowest of them. -/
structure Flattened (t : Tree B) (D : ℕ) (W : Hash → World) (r : Hash) (i m b f : ℕ)
    (t' : Tree B) : Prop where
  layers : t'.layers = t.layers
  diskdb : t'.diskdb = t.diskdb
  snapshotRoot : t'.snapshotRoot = t.snapshotRoot
  accountCache : t'.accountCache = t.accountCache
  storageCache : t'.storageCache = t.storageCache
  next : t.next ≤ t'.next
  fresh : ∀ k, t'.next ≤ k → t'.objects k = none
  frame : ∀ k < t.next, k ≠ b → t'.objects k = t.objects k
  layer : ∃ dl : DiffLayer B, t'.objects f = some (.diff dl) ∧ dl.root = r ∧ dl.stale = false ∧
    dl.origin = D ∧ dl.parent = D ∧ Misses t.diskdb (W r) dl.diffed ∧
    W r = dl.data.apply [] (W t.snapshotRoot)
  single : m = 0 → f = i ∧ b = i ∧ t' = t
  several : 0 < m → t.next ≤ f ∧ Below t' i b ∧ t'.isStale b = true
  root : t'.rootOf b = t.rootOf b
  bottom : ∃ dl : DiffLayer B, t'.objects b = some (.diff dl) ∧ dl.parent = D

variable {dl : DiffLayer B} {b f : ℕ} {t₁ : Tree B}

theorem mergeInto_objects {t : Tree B} {j : ℕ} {parent : DiffLayer B} :
    (t.mergeInto j parent dl).2.objects = update (update t.objects j
        (some (.diff { parent with stale := true, data := parent.data.merge dl.data })))
        t.next (some (.diff
          { origin := parent.origin
            parent := parent.parent
            memory := parent.memory + dl.memory
            root := dl.root
            stale := false
            data := parent.data.merge dl.data
            diffed := dl.diffed })) :=
  rfl

section

variable (hs : Sound t D W)
include hs

theorem Flattened.merge {pr : Hash} {pl : DiffLayer B}
    (ho : t.objects i = some (.diff dl)) (hib : i ≠ b) (hb : b < t.next)
    (hroot : dl.root = r) (hmiss : Misses t.diskdb (W r) dl.diffed)
    (hworld : W r = dl.data.apply [] (W pr))
    (h : Flattened t D W pr dl.parent m b f t₁) (hpl : t₁.objects f = some (.diff pl)) :
    Flattened t D W r i (m + 1) b t₁.next (t₁.mergeInto f pl dl).2 := by
  obtain ⟨pl', hpl', hpr, hps, hpo, hpp, hpm, hpw⟩ := h.layer
  obtain rfl : pl = pl' := by
    rw [hpl] at hpl'
    injection hpl' with hpl'
    injection hpl'
  have hi : i < t.next := hs.lt_next ho
  have hf : f < t₁.next := by
    by_contra hlt
    rw [h.fresh f (Nat.le_of_not_lt hlt)] at hpl
    cases hpl
  -- the layer that becomes stale is the lowest one or a new one
  have hfold : ∀ k < t.next, k ≠ b → k ≠ f := by
    rintro k hk hkb rfl
    obtain hm | hm := Nat.eq_zero_or_pos m
    · exact hkb ((h.single hm).1.trans (h.single hm).2.1.symm)
    · exact absurd (h.several hm).1 (Nat.not_le_of_lt hk)
  have hframe : ∀ k < t.next, k ≠ b → (t₁.mergeInto f pl dl).2.objects k = t.objects k := by
    intro k hk hkb
    rw [mergeInto_objects, update_of_ne (hk.trans_le h.next).ne, update_of_ne (hfold k hk hkb)]
    exact h.frame k hk hkb
  have hstale : (t₁.mergeInto f pl dl).2.isStale b = true ∧
      (t₁.mergeInto f pl dl).2.rootOf b = t.rootOf b ∧ Below (t₁.mergeInto f pl dl).2 i b ∧
      ∃ dl', (t₁.mergeInto f pl dl).2.objects b = some (.diff dl') ∧ dl'.parent = D := by
    have hoi := (hframe i hi hib).trans ho
    have hbn : b ≠ t₁.next := (hb.trans_le h.next).ne
    obtain hm | hm := Nat.eq_zero_or_pos m
    · obtain ⟨hfi, hbi, -⟩ := h.single hm
      have hbf : b = f := hbi.trans hfi.symm
      have hob : (t₁.mergeInto f pl dl).2.objects b =
          some (.diff { pl with stale := true, data := pl.data.merge dl.data }) := by
        rw [mergeInto_objects, update_of_ne hbn, hbf, update_self]
      refine ⟨?_, ?_, ?_, _, hob, hpp⟩
      · rw [Tree.isStale, hob]
        rfl
      · rw [← h.root, Tree.rootOf, Tree.rootOf, hob, hbf, hpl]
        rfl
      rw [hbi]
      exact .parent hoi
    obtain ⟨hnf, hbelow, hsb⟩ := h.several hm
    have hbf : b ≠ f := (hb.trans_le hnf).ne
    refine ⟨?_, ?_, .step hoi (hbelow.mono ?_), ?_⟩
    · rw [Tree.isStale, mergeInto_objects, update_of_ne hbn, update_of_ne hbf]
      exact hsb
    · rw [Tree.rootOf, mergeInto_objects, update_of_ne hbn, update_of_ne hbf]
      exact h.root
    · intro k kl hk
      have hkn : k ≠ t₁.next := by
        rintro rfl
        rw [h.fresh _ le_rfl] at hk
        cases hk
      rw [mergeInto_objects, update_of_ne hkn]
      by_cases hkf : k = f
      · subst hkf
        rw [update_self]
        rw [hpl] at hk
        cases hk
        exact ⟨_, rfl, rfl⟩
      rw [update_of_ne hkf]
      exact ⟨kl, hk, rfl⟩
    obtain ⟨bl, hob, hbp⟩ := h.bottom
    refine ⟨bl, ?_, hbp⟩
    rw [mergeInto_objects, update_of_ne hbn, update_of_ne hbf, hob]
  constructor
  · exact h.layers
  · exact h.diskdb
  · exact h.snapshotRoot
  · exact h.accountCache
  · exact h.storageCache
  · exact h.next.trans (le_succ _)
  · intro k hk
    change t₁.next + 1 ≤ k at hk
    rw [mergeInto_objects, update_of_ne (by omega), update_of_ne (by omega)]
    exact h.fresh k (by omega)
  · exact hframe
  · refine ⟨_, update_self .., hroot, rfl, hpo, hpp, hmiss, ?_⟩
    rw [Diff.apply_merge, ← hpw]
    exact hworld
  · intro hm
    cases hm
  · intro _
    exact ⟨h.next, hstale.2.2.1, hstale.1⟩
  · exact hstale.2.1
  · exact hstale.2.2.2

theorem Flattened.refl (ho : t.objects i = some (.diff dl))
    (hparent : dl.parent = D) (h : Live t D W r i 1) : Flattened t D W r i 0 i i t := by
  obtain ⟨pr, m, hm, hroot, hstale, horigin, hmiss, hworld, hlive⟩ := h.of_diff ho
  rw [hparent] at hlive
  refine ⟨rfl, rfl, rfl, rfl, rfl, le_rfl, hs.fresh, fun _ _ _ => rfl, ?_, fun _ => ⟨rfl, rfl, rfl⟩,
    fun h => absurd h (lt_irrefl 0), rfl, dl, ho, hparent⟩
  rw [hs.root_of_disk hlive] at hworld
  exact ⟨dl, ho, hroot, hstale, horigin, hparent, hmiss, hworld⟩

theorem Flattened.below_of_same {br : Hash}
    (hb : Live t D W br b 1) (h : Flattened t D W r i m b f t₁) (hm : 0 < m) (hi : Live t D W r i (m + 1))
    (hsame : ∀ q k n, Live t D W q k (n + 1) → n ≤ m → t'.objects k = t₁.objects k) :
    Below t' i b := by
  refine (h.several hm).2.1.mono_on (S := fun k => ∃ q n, Live t D W q k n ∧ n ≤ m + 1)
    ⟨r, m + 1, hi, le_rfl⟩ ?_ ?_
  · rintro k dl ⟨q, n, hl, hn⟩ ho
    by_cases hk : k = b
    · subst hk
      obtain ⟨bl, hob, hbp⟩ := h.bottom
      rw [hob] at ho
      cases ho
      rw [hbp]
      exact ⟨_, 0, .disk hs.disk hs.base, zero_le _⟩
    obtain ⟨l, hol, -, -⟩ := hl.object
    rw [h.frame k (hs.lt_next hol) hk] at ho
    obtain ⟨pr, n', rfl, -, -, -, -, -, hp⟩ := hl.of_diff ho
    exact ⟨pr, n', hp, by omega⟩
  rintro k dl ⟨q, n, hl, hn⟩ ho
  cases n with
  | zero =>
    obtain rfl := hl.eq_disk
    have hk : k ≠ b := hl.ne hb (by omega)
    rw [h.frame k (hs.lt_next hs.base) hk, hs.base] at ho
    cases ho
  | succ n => exact ⟨dl, (hsame q k n hl (by omega)).trans ho, rfl⟩

/-- Flattening a sound tree does not panic. -/
theorem flatten_spec (h : Live t D W r i (m + 1)) {fuel : ℕ} (hfuel : m < fuel) :
    ∃ b br f t', t.flatten fuel i = .ok (f, t') ∧ Live t D W br b 1 ∧ Flattened t D W r i m b f t' := by
  induction m generalizing r i fuel with
  | zero =>
    obtain ⟨fuel, rfl⟩ : ∃ k, fuel = k + 1 := ⟨fuel - 1, by omega⟩
    cases h with
    | @diff _ pr _ _ dl hl ho hroot hstale horigin hmiss hworld hparent =>
      have hlive : Live t D W r i 1 := .diff hl ho hroot hstale horigin hmiss hworld hparent
      have hD : dl.parent = D := hparent.eq_disk
      refine ⟨i, r, i, t, ?_, hlive, .refl hs ho hD hlive⟩
      rw [Tree.flatten, diffLayer_eq_some ho]
      dsimp only
      rw [hD, diffLayer_disk hs.base]
      rfl
  | succ m ih =>
    obtain ⟨fuel, rfl⟩ : ∃ k, fuel = k + 1 := ⟨fuel - 1, by omega⟩
    cases h with
    | @diff _ pr _ _ dl hl ho hroot hstale horigin hmiss hworld hparent =>
      have hlive : Live t D W r i (m + 2) := .diff hl ho hroot hstale horigin hmiss hworld hparent
      obtain ⟨b, br, f, t₁, hflat, hb, hf⟩ := ih hparent (show m < fuel by omega)
      obtain ⟨pl, hpl, -, hps, -⟩ := hf.layer
      obtain ⟨l, hbo, -, -⟩ := hb.object
      have hib : i ≠ b := hlive.ne hb (by omega)
      refine ⟨b, br, t₁.next, (t₁.mergeInto f pl dl).2, ?_, hb,
        hf.merge hs ho hib (hs.lt_next hbo) hroot hmiss hworld hpl⟩
      obtain ⟨pdl, hpdl⟩ := hparent.exists_diff
      rw [Tree.flatten, diffLayer_eq_some ho]
      dsimp only
      rw [diffLayer_eq_some hpdl, hflat]
      dsimp only [isNone_some]
      rw [if_neg Bool.false_ne_true, diffLayer_eq_some hpl]
      dsimp only
      rw [hps, if_neg Bool.false_ne_true]
      rfl

end

end

section

/-- Only the key-value store and the cache change, and they go on to agree. -/
structure Written (t t' : Tree B) : Prop where
  objects : t'.objects = t.objects
  next : t'.next = t.next
  layers : t'.layers = t.layers
  cachedAccount : (∀ h v, t.accountCache h = some v → v = t.diskdb.account h) →
    ∀ h v, t'.accountCache h = some v → v = t'.diskdb.account h
  cachedStorage : (∀ a k v, t.storageCache a k = some v → v = t.diskdb.storage a k) →
    ∀ a k v, t'.storageCache a k = some v → v = t'.diskdb.storage a k

theorem Written.refl (t : Tree B) : Written t t := ⟨rfl, rfl, rfl, id, id⟩

theorem Written.trans {t t₁ t₂ : Tree B} (h : Written t t₁) (h' : Written t₁ t₂) : Written t t₂ :=
  ⟨h'.objects.trans h.objects, h'.next.trans h.next, h'.layers.trans h.layers,
    fun hc => h'.cachedAccount (h.cachedAccount hc), fun hc => h'.cachedStorage (h.cachedStorage hc)⟩

theorem Written.foldl {α : Type*} {f : Tree B → α → Tree B} (hf : ∀ t a, Written t (f t a))
    (l : List α) (t : Tree B) : Written t (l.foldl f t) := by
  induction l generalizing t with
  | nil => exact .refl t
  | cons a l ih => exact (hf t a).trans (ih (f t a))

theorem destroy_written (t : Tree B) (hash : Hash) : Written t (t.destroy hash) := by
  refine ⟨rfl, rfl, rfl, ?_, ?_⟩
  · intro hc h v hv
    rw [Tree.destroy] at hv ⊢
    dsimp only at hv ⊢
    by_cases hh : h = hash
    · subst hh
      rw [update_self] at hv ⊢
      exact (some.inj hv).symm
    rw [update_of_ne hh] at hv ⊢
    exact hc h v hv
  intro hc a k v hv
  rw [Tree.destroy] at hv ⊢
  dsimp only at hv ⊢
  by_cases ha : a = hash
  · subst ha
    rw [update_self] at hv ⊢
    split at hv
    · cases hv
    next hk =>
      rw [hc a k v hv]
      exact not_not.mp hk
  rw [update_of_ne ha] at hv ⊢
  exact hc a k v hv

theorem writeAccount_written (t : Tree B) (hash : Hash) (data : Bytes) :
    Written t (t.writeAccount hash data) := by
  refine ⟨rfl, rfl, rfl, ?_, id⟩
  intro hc h v hv
  rw [Tree.writeAccount] at hv ⊢
  dsimp only at hv ⊢
  by_cases hh : h = hash
  · subst hh
    rw [update_self] at hv ⊢
    exact (some.inj hv).symm
  rw [update_of_ne hh] at hv ⊢
  exact hc h v hv

theorem writeSlot_written (t : Tree B) (accountHash storageHash : Hash) (data : Bytes) :
    Written t (t.writeSlot accountHash storageHash data) := by
  refine ⟨rfl, rfl, rfl, id, ?_⟩
  intro hc a k v hv
  rw [Tree.writeSlot] at hv ⊢
  dsimp only at hv ⊢
  by_cases ha : a = accountHash
  · subst ha
    rw [update_self] at hv ⊢
    by_cases hk : k = storageHash
    · subst hk
      rw [update_self] at hv ⊢
      exact (some.inj hv).symm
    rw [update_of_ne hk] at hv ⊢
    exact hc a k v hv
  rw [update_of_ne ha] at hv ⊢
  exact hc a k v hv

theorem writeChanges_written (t : Tree B) (data : Changes) : Written t (t.writeChanges data) := by
  rw [Tree.writeChanges]
  refine ((Written.foldl destroy_written _ t).trans
    (Written.foldl (fun t (e : Sigma fun _ : Hash => Bytes) => writeAccount_written t e.1 e.2)
      _ _)).trans
    (Written.foldl (fun t e => ?_) _ _)
  exact Written.foldl (fun t (s : Sigma fun _ : Hash => Bytes) => writeSlot_written t e.1 s.1 s.2) _ _

theorem foldl_destroy (l : List Hash) (t : Tree B) : (l.foldl Tree.destroy t).diskdb =
      { account := fun h => if h ∈ l then [] else t.diskdb.account h
        storage := fun h k => if h ∈ l then [] else t.diskdb.storage h k } := by
  induction l generalizing t with
  | nil => rfl
  | cons x l ih =>
    rw [foldl_cons, ih]
    ext1
    · funext h
      by_cases hx : h = x
      · simp [Tree.destroy, hx]
      · simp [Tree.destroy, hx]
    funext h k
    by_cases hx : h = x
    · simp [Tree.destroy, hx]
    · simp [Tree.destroy, hx]

theorem foldl_writeAccount (l : List (Sigma fun _ : Hash => Bytes)) (hl : l.NodupKeys) (t : Tree B) :
    (l.foldl (fun t e => t.writeAccount e.1 e.2) t).diskdb =
      { t.diskdb with account := fun h => (l.dlookup h).getD (t.diskdb.account h) } := by
  induction l generalizing t with
  | nil => rfl
  | cons e l ih =>
    obtain ⟨k, v⟩ := e
    obtain ⟨hk, hl⟩ := nodupKeys_cons.mp hl
    rw [foldl_cons, ih hl, Tree.writeAccount]
    ext1
    · funext h
      by_cases hx : h = k
      · subst hx
        simp [dlookup_eq_none.mpr hk]
      · simp [dlookup_cons_ne l ⟨k, v⟩ hx, hx]
    · rfl

theorem foldl_writeSlot (a : Hash) (l : List (Sigma fun _ : Hash => Bytes)) (hl : l.NodupKeys)
    (t : Tree B) :
    (l.foldl (fun t s => t.writeSlot a s.1 s.2) t).diskdb =
      { t.diskdb with
        storage := update t.diskdb.storage a fun k =>
          (l.dlookup k).getD (t.diskdb.storage a k) } := by
  induction l generalizing t with
  | nil => simp
  | cons e l ih =>
    obtain ⟨k, v⟩ := e
    obtain ⟨hk, hl⟩ := nodupKeys_cons.mp hl
    rw [foldl_cons, ih hl, Tree.writeSlot]
    ext1
    · rfl
    funext a' k'
    by_cases ha : a' = a
    · subst ha
      by_cases hx : k' = k
      · subst hx
        simp [dlookup_eq_none.mpr hk]
      · simp [dlookup_cons_ne l ⟨k, v⟩ hx, hx]
    · simp [ha]

theorem foldl_writeSlots (l : List (Sigma fun _ : Hash => AList fun _ : Hash => Bytes))
    (hl : l.NodupKeys) (t : Tree B) :
    (l.foldl (fun t e => e.2.entries.foldl (fun t s => t.writeSlot e.1 s.1 s.2) t) t).diskdb =
      { t.diskdb with
        storage := fun a k =>
          ((l.dlookup a).bind fun slots => slots.lookup k).getD (t.diskdb.storage a k) } := by
  induction l generalizing t with
  | nil => rfl
  | cons e l ih =>
    obtain ⟨a, slots⟩ := e
    obtain ⟨ha, hl⟩ := nodupKeys_cons.mp hl
    rw [foldl_cons, ih hl, foldl_writeSlot a slots.entries slots.nodupKeys]
    ext1
    · rfl
    funext a' k
    by_cases hx : a' = a
    · subst hx
      simp [dlookup_eq_none.mpr ha, AList.lookup]
    · simp [dlookup_cons_ne l ⟨a, slots⟩ hx, hx]

theorem writeChanges_diskdb (t : Tree B) (data : Changes) :
    (t.writeChanges data).diskdb = data.apply [] t.diskdb := by
  rw [Tree.writeChanges, foldl_writeSlots _ data.storage.nodupKeys, foldl_writeAccount _ data.accounts.nodupKeys,
    foldl_destroy]
  ext1
  · funext h
    rw [Diff.apply]
    dsimp only [AList.lookup]
    cases data.accounts.entries.dlookup h with
    | some v => rfl
    | none =>
      simp only [getD_none, AList.mem_keys]
  funext a k
  rw [Diff.apply]
  dsimp only [Diff.slot, AList.lookup]
  cases (data.storage.entries.dlookup a).bind fun slots => slots.entries.dlookup k with
  | some v => rfl
  | none =>
    simp only [getD_none, AList.mem_keys]

theorem diffToDisk_spec {dl} {base : Hash} {g : Bool} (ho : t.objects i = some (.diff dl))
    (hbase : t.objects dl.parent = some (.disk ⟨base, false, g⟩)) :
    ∃ t', t.diffToDisk i = .ok (t.next, t') ∧
      t'.objects = update (update t.objects dl.parent (some (.disk ⟨base, true, g⟩)))
        t.next (some (.disk ⟨dl.root, false, false⟩)) ∧
      t'.next = t.next + 1 ∧ t'.layers = t.layers ∧ t'.snapshotRoot = dl.root ∧
      t'.diskdb = dl.data.apply [] t.diskdb ∧
      ((∀ h v, t.accountCache h = some v → v = t.diskdb.account h) →
        ∀ h v, t'.accountCache h = some v → v = t'.diskdb.account h) ∧
      ((∀ a k v, t.storageCache a k = some v → v = t.diskdb.storage a k) →
        ∀ a k v, t'.storageCache a k = some v → v = t'.diskdb.storage a k) := by
  rw [Tree.diffToDisk, diffLayer_eq_some ho]
  dsimp only
  rw [diskLayer_eq_some hbase]
  dsimp only
  rw [if_neg Bool.false_ne_true]
  generalize ht : t.set dl.parent (.disk ⟨base, true, g⟩) = s
  have hw := writeChanges_written s dl.data
  have hdb := writeChanges_diskdb s dl.data
  subst ht
  refine ⟨{ ((t.set dl.parent (.disk ⟨base, true, g⟩)).writeChanges dl.data) with
    snapshotRoot := dl.root
    objects := update ((t.set dl.parent (.disk ⟨base, true, g⟩)).writeChanges dl.data).objects
      t.next (some (.disk ⟨dl.root, false, false⟩))
    next := t.next + 1 }, ?_, ?_, rfl, hw.layers, rfl, hdb, hw.cachedAccount, hw.cachedStorage⟩
  · rw [Tree.alloc]
    rw [hw.next]
    rfl
  dsimp only
  rw [hw.objects]
  rfl

end

end Geth.Snapshot.Merging
