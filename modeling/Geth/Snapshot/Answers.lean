import Geth.Snapshot.LayerTree

namespace Geth.Snapshot.Answers

open Lib.BigEndian Lib.Overlay Common.Basic LayerTree Function List Option Nat

variable {B : BloomFilter} {t t' : Tree B} {D : ℕ} {W W' : Hash → World} {r pr : Hash} {i n : ℕ}
    {root : Hash}

/-- A filter misses nothing but what is the same on disk. -/
structure Misses (db w : World) (f : B.Filter) : Prop where
  account : ∀ h, B.contains f (.account h) = false → B.contains f (.destruct h) = false →
    w.account h = db.account h
  storage : ∀ a k, B.contains f (.storage a k) = false → B.contains f (.destruct a) = false →
    w.storage a k = db.storage a k

/-- A registered layer with the state it stands for, and all registered layers
below it down to the disk layer `D`. -/
inductive Live (t : Tree B) (D : ℕ) (W : Hash → World) : Hash → ℕ → ℕ → Prop
  | disk {r : Hash} {g : Bool} (hl : t.layers.lookup r = some D)
    (ho : t.objects D = some (.disk ⟨r, false, g⟩)) :
    Live t D W r D 0
  | diff {r pr : Hash} {i n : ℕ} {dl : DiffLayer B} (hl : t.layers.lookup r = some i)
    (ho : t.objects i = some (.diff dl)) (hroot : dl.root = r) (hstale : dl.stale = false)
    (horigin : dl.origin = D) (hmiss : Misses t.diskdb (W r) dl.diffed)
    (hworld : W r = dl.data.apply [] (W pr)) (hparent : Live t D W pr dl.parent n) :
    Live t D W r i (n + 1)

/-- What holds between the operations on a tree whose layer with root `r`
stands for `W r`. -/
structure Sound (t : Tree B) (D : ℕ) (W : Hash → World) : Prop where
  live : ∀ r i, t.layers.lookup r = some i → ∃ n < t.next, Live t D W r i n
  disk : t.layers.lookup t.snapshotRoot = some D
  base : t.objects D = some (.disk ⟨t.snapshotRoot, false, t.genAbort D⟩)
  stored : t.diskdb = W t.snapshotRoot
  fresh : ∀ i, t.next ≤ i → t.objects i = none
  cachedAccount : ∀ h v, t.accountCache h = some v → v = t.diskdb.account h
  cachedStorage : ∀ a k v, t.storageCache a k = some v → v = t.diskdb.storage a k

section

variable {dl : DiffLayer B}

theorem diffLayer_eq_some (h : t.objects i = some (.diff dl)) : t.diffLayer i = some dl := by
  rw [Tree.diffLayer, h]

theorem object_of_diffLayer (h : t.diffLayer i = some dl) : t.objects i = some (.diff dl) := by
  rw [Tree.diffLayer] at h
  split at h
  · next dl' ho =>
    cases h
    exact ho
  · cases h

theorem diffLayer_disk {dl} (h : t.objects i = some (.disk dl)) : t.diffLayer i = none := by
  rw [Tree.diffLayer, h]

theorem diffLayer_fresh (h : t.objects i = none) : t.diffLayer i = none := by
  rw [Tree.diffLayer, h]

theorem base_of {root : Hash} {g : Bool} (h : t.objects i = some (.disk ⟨root, false, g⟩)) :
    t.objects i = some (.disk ⟨root, false, t.genAbort i⟩) := by
  have habort : t.genAbort i = g := by
    rw [Tree.genAbort, Tree.diskLayer, h]
    rfl
  rw [habort, h]

theorem diskLayer_eq_some {dl} (h : t.objects i = some (.disk dl)) : t.diskLayer i = some dl := by
  rw [Tree.diskLayer, h]

end

namespace Live

section

variable (h : Live t D W r i n)
include h

theorem lookup : t.layers.lookup r = some i := by
  cases h with
  | disk hl _ => exact hl
  | diff hl _ _ _ _ _ _ _ => exact hl

theorem object : ∃ l, t.objects i = some l ∧ l.root = r ∧ l.stale = false := by
  cases h with
  | disk _ ho => exact ⟨_, ho, rfl, rfl⟩
  | diff _ ho hroot hstale _ _ _ _ => exact ⟨_, ho, hroot, hstale⟩

theorem rootOf : t.rootOf i = some r := by
  obtain ⟨l, ho, hroot, -⟩ := h.object
  rw [Tree.rootOf, ho, map_some, hroot]

theorem not_stale : t.isStale i = false := by
  obtain ⟨l, ho, -, hstale⟩ := h.object
  rw [Tree.isStale, ho, map_some, hstale, getD_some]

end

variable {r' : Hash} {n' : ℕ}

theorem unique (h : Live t D W r i n) (h' : Live t D W r' i n') : r = r' ∧ n = n' := by
  have hr : r = r' := some.inj (h.rootOf.symm.trans h'.rootOf)
  refine ⟨hr, ?_⟩
  induction h generalizing r' n' with
  | disk hl ho =>
    cases h' with
    | disk _ _ => rfl
    | diff _ ho' _ _ _ _ _ _ =>
      rw [ho] at ho'
      cases ho'
  | diff hl ho hroot _ _ _ _ hparent ih =>
    cases h' with
    | disk _ ho' =>
      rw [ho] at ho'
      cases ho'
    | diff _ ho' _ _ _ _ _ hparent' =>
      rw [ho] at ho'
      cases ho'
      rw [ih hparent' (some.inj (hparent.rootOf.symm.trans hparent'.rootOf))]

theorem ne {i' : ℕ} (h : Live t D W r i n) (h' : Live t D W r' i' n') (hn : n ≠ n') : i ≠ i' := by
  rintro rfl
  exact hn (h.unique h').2

theorem eq_disk (h : Live t D W r i 0) : i = D := by
  cases h with
  | disk _ _ => rfl

theorem exists_diff (h : Live t D W r i (n + 1)) : ∃ dl, t.objects i = some (.diff dl) := by
  cases h with
  | diff _ ho _ _ _ _ _ _ => exact ⟨_, ho⟩

theorem of_diff {dl} (h : Live t D W r i n) (ho : t.objects i = some (.diff dl)) :
    ∃ pr m, n = m + 1 ∧ dl.root = r ∧ dl.stale = false ∧ dl.origin = D ∧
      Misses t.diskdb (W r) dl.diffed ∧ W r = dl.data.apply [] (W pr) ∧
      Live t D W pr dl.parent m := by
  cases h with
  | disk _ ho' =>
    rw [ho] at ho'
    cases ho'
  | diff _ ho' hroot hstale horigin hmiss hworld hparent =>
    rw [ho] at ho'
    cases ho'
    exact ⟨_, _, rfl, hroot, hstale, horigin, hmiss, hworld, hparent⟩

theorem mono (h : Live t D W r i n) (hdb : t'.diskdb = t.diskdb)
    (hsame : ∀ r i, t.layers.lookup r = some i →
      t'.layers.lookup r = some i ∧ t'.objects i = t.objects i ∧ W' r = W r) :
    Live t' D W' r i n := by
  induction h with
  | disk hl ho =>
    obtain ⟨hl', ho', -⟩ := hsame _ _ hl
    exact .disk hl' (ho'.trans ho)
  | diff hl ho hroot hstale horigin hmiss hworld hparent ih =>
    obtain ⟨hl', ho', hw⟩ := hsame _ _ hl
    obtain ⟨-, -, hw'⟩ := hsame _ _ hparent.lookup
    refine .diff hl' (ho'.trans ho) hroot hstale horigin ?_ ?_ ih
    · rw [hdb, hw]
      exact hmiss
    rw [hw, hw']
    exact hworld

end Live

namespace Sound

variable (hs : Sound t D W)
include hs

theorem lt_next {l} (ho : t.objects i = some l) : i < t.next := by
  by_contra hlt
  rw [hs.fresh i (Nat.le_of_not_lt hlt)] at ho
  cases ho

theorem lookup_lt (h : t.layers.lookup r = some i) : i < t.next := by
  obtain ⟨n, -, hl⟩ := hs.live r i h
  obtain ⟨l, ho, -, -⟩ := hl.object
  exact hs.lt_next ho

theorem live_disk : Live t D W t.snapshotRoot D 0 := .disk hs.disk hs.base

theorem root_of_disk (h : Live t D W r D n) : r = t.snapshotRoot := by
  have hroot := h.rootOf
  rw [Tree.rootOf, hs.base] at hroot
  exact (some.inj hroot).symm

theorem inj {r' : Hash} (h : t.layers.lookup r = some i) (h' : t.layers.lookup r' = some i) : r = r' := by
  obtain ⟨n, -, hn⟩ := hs.live r i h
  obtain ⟨n', -, hn'⟩ := hs.live r' i h'
  exact (hn.unique hn').1

theorem getD_account (h : Hash) : (t.accountCache h).getD (t.diskdb.account h) = t.diskdb.account h := by
  cases hc : t.accountCache h with
  | none => rfl
  | some v => exact hs.cachedAccount h v hc

theorem getD_storage (a k : Hash) :
    (t.storageCache a k).getD (t.diskdb.storage a k) = t.diskdb.storage a k := by
  cases hc : t.storageCache a k with
  | none => rfl
  | some v => exact hs.cachedStorage a k v hc

theorem readDisk_eq {cached} {stored} : t.readDisk D cached stored = .ok (cached.getD stored) := by
  rw [Tree.readDisk, diskLayer_eq_some hs.base]
  rfl

section

variable {own : Changes → Option Bytes} {item : BloomItem} {destructed : Hash}
  {cached : Option Bytes} {stored : Bytes} (view : World → Bytes)

section

variable (hdisk : cached.getD stored = view t.diskdb)
    (hview : ∀ d w, view (Diff.apply d [] w) = (own d).elim (if destructed ∈ d.destructs then [] else view w) id)
include hdisk hview

theorem readFrom_eq {fuel : ℕ} (hfuel : n < fuel) (h : Live t D W r i n) :
    t.readFrom own destructed cached stored fuel i = .ok (view (W r)) := by
  induction h generalizing fuel with
  | disk hl ho =>
    obtain ⟨fuel, rfl⟩ : ∃ k, fuel = k + 1 := ⟨fuel - 1, by omega⟩
    rw [Tree.readFrom, diffLayer_disk ho]
    dsimp only
    rw [hs.readDisk_eq, hdisk, hs.stored, hs.root_of_disk (.disk hl ho : Live t D W _ D 0)]
  | diff hl ho hroot hstale horigin hmiss hworld hparent ih =>
    obtain ⟨fuel, rfl⟩ : ∃ k, fuel = k + 1 := ⟨fuel - 1, by omega⟩
    rw [Tree.readFrom, diffLayer_eq_some ho]
    dsimp only
    rw [hstale, if_neg Bool.false_ne_true, hworld, hview]
    cases own _ with
    | some data => rfl
    | none =>
      dsimp only [elim_none]
      split
      · rfl
      · exact ih (by omega)

theorem read_eq (hmiss : ∀ (w : World) (f : B.Filter), Misses t.diskdb w f → B.contains f item = false →
      B.contains f (.destruct destructed) = false → view w = view t.diskdb)
    (h : t.layers.lookup r = some i) :
    t.read own item destructed cached stored i = .ok (view (W r)) := by
  obtain ⟨n, hn, hlive⟩ := hs.live r i h
  have hfrom := hs.readFrom_eq view hdisk hview hn hlive
  rw [Tree.read]
  cases hlive with
  | disk hl ho =>
    rw [diffLayer_disk ho]
    dsimp only
    rw [hs.readDisk_eq, hdisk, hs.stored, hs.root_of_disk (.disk hl ho : Live t D W _ D 0)]
  | diff hl ho hroot hstale horigin hm hworld hparent =>
    rw [diffLayer_eq_some ho]
    dsimp only
    split
    · exact hfrom
    next hno =>
      rw [Bool.or_eq_true, not_or, Bool.not_eq_true, Bool.not_eq_true] at hno
      rw [horigin, hs.readDisk_eq, hdisk, hmiss _ _ hm hno.1 hno.2]

end

end

theorem accountRLP_eq (h : t.layers.lookup r = some i) (hash : Hash) :
    t.accountRLP i hash = .ok ((W r).account hash) := by
  refine hs.read_eq (fun w => w.account hash) (hs.getD_account hash) ?_ ?_ h
  · intro d w
    rw [Diff.apply]
    dsimp only
    cases d.accounts.lookup hash with
    | none => rfl
    | some v => rfl
  intro w f hm hitem hdestruct
  exact hm.account hash hitem hdestruct

theorem storage_eq (h : t.layers.lookup r = some i) (a k : Hash) :
    t.storage i a k = .ok ((W r).storage a k) := by
  refine hs.read_eq (fun w => w.storage a k) (hs.getD_storage a k) ?_ ?_ h
  · intro d w
    rw [Diff.apply]
    dsimp only
    cases d.slot a k with
    | none => rfl
    | some v => rfl
  intro w f hm hitem hdestruct
  exact hm.storage a k hitem hdestruct

end Sound

section

theorem contains_foldl_add (l : List BloomItem) (f : B.Filter) (x : BloomItem)
    (h : B.contains (l.foldl B.add f) x = false) : B.contains f x = false ∧ x ∉ l := by
  induction l generalizing f with
  | nil => exact ⟨h, not_mem_nil⟩
  | cons y l ih =>
    obtain ⟨hf, hl⟩ := ih (B.add f y) h
    refine ⟨?_, ?_⟩
    · by_contra hx
      rw [B.contains_mono f y x (Bool.not_eq_false _ ▸ hx)] at hf
      cases hf
    intro hmem
    obtain rfl | hmem := mem_cons.mp hmem
    · rw [B.contains_add] at hf
      cases hf
    · exact hl hmem

variable {data : Changes} {db w : World} {f : B.Filter}

theorem Misses.over (h : Misses db w f) : Misses db (data.apply [] w) ((itemsOf data).foldl B.add f) := by
  constructor
  · intro hash haccount hdestruct
    obtain ⟨ha, hna⟩ := contains_foldl_add _ _ _ haccount
    obtain ⟨hd, hnd⟩ := contains_foldl_add _ _ _ hdestruct
    have hlookup : data.accounts.lookup hash = none := by
      rw [AList.lookup_eq_none, AList.mem_keys]
      intro hmem
      apply hna
      rw [itemsOf, mem_append, mem_append]
      exact .inl (.inr (mem_map_of_mem hmem))
    have hmem : hash ∉ data.destructs := by
      rw [AList.mem_keys]
      intro hmem
      apply hnd
      rw [itemsOf, mem_append, mem_append]
      exact .inl (.inl (mem_map_of_mem hmem))
    rw [Diff.apply]
    dsimp only
    rw [hlookup]
    dsimp only
    rw [if_neg hmem]
    exact h.account hash ha hd
  intro a k hslot hdestruct
  obtain ⟨ha, hna⟩ := contains_foldl_add _ _ _ hslot
  obtain ⟨hd, hnd⟩ := contains_foldl_add _ _ _ hdestruct
  have hlookup : data.slot a k = none := by
    rw [Diff.slot]
    cases hl : data.storage.lookup a with
    | none => rfl
    | some slots =>
      rw [bind_some, AList.lookup_eq_none, AList.mem_keys]
      intro hmem
      apply hna
      rw [itemsOf, mem_append, mem_flatMap]
      exact .inr ⟨⟨a, slots⟩, AList.mem_lookup_iff.mp hl, mem_map_of_mem hmem⟩
  have hmem : a ∉ data.destructs := by
    rw [AList.mem_keys]
    intro hmem
    apply hnd
    rw [itemsOf, mem_append, mem_append]
    exact .inl (.inl (mem_map_of_mem hmem))
  rw [Diff.apply]
  dsimp only
  rw [hlookup]
  dsimp only
  rw [if_neg hmem]
  exact h.storage a k ha hd

theorem Misses.refl (db : World) (f : B.Filter) : Misses db db f := ⟨fun _ _ _ => rfl, fun _ _ _ _ => rfl⟩

theorem Live.misses_bloomOver (hdisk : Live t D W pr D 0 → t.diskdb = W pr)
    (h : Live t D W pr i n) : Misses t.diskdb (data.apply [] (W pr)) (t.bloomOver i data) := by
  rw [Tree.bloomOver]
  refine Misses.over ?_
  cases h with
  | disk hl ho =>
    rw [diffLayer_disk ho, hdisk (.disk hl ho)]
    exact .refl _ _
  | diff hl ho hroot hstale horigin hmiss hworld hparent =>
    rw [diffLayer_eq_some ho]
    exact hmiss

end

theorem origin_newDiffLayer {data} (h : Live t D W pr i n) : (t.newDiffLayer i root data).origin = D := by
  cases h with
  | disk hl ho =>
    rw [Tree.newDiffLayer, diffLayer_disk ho]
  | diff hl ho hroot hstale horigin hmiss hworld hparent =>
    rw [Tree.newDiffLayer, diffLayer_eq_some ho]
    exact horigin

namespace Sound

variable (hs : Sound t D W)
include hs

theorem update {root : Hash} (data : Changes) (hfresh : t.layers.lookup root = none)
    (hparent : t.layers.lookup pr = some i) :
    ∃ t', t.update root pr data = .ok t' ∧ Sound t' D (update W root (data.apply [] (W pr))) := by
  have hne : root ≠ pr := by
    rintro rfl
    rw [hfresh] at hparent
    cases hparent
  obtain ⟨n, hn, hlive⟩ := hs.live pr i hparent
  have hother : ∀ r j, t.layers.lookup r = some j → r ≠ root ∧ j ≠ t.next := by
    intro r j hj
    refine ⟨?_, (hs.lookup_lt hj).ne⟩
    rintro rfl
    rw [hfresh] at hj
    cases hj
  refine ⟨_, by rw [Tree.update, if_neg hne, hparent], ?_⟩
  have hmono : ∀ {r j m}, Live t D W r j m → Live { (t.alloc (.diff (t.newDiffLayer i root data))).2 with
        layers := t.layers.insert root t.next } D
        (Function.update W root (data.apply [] (W pr))) r j m := by
    intro r j m hm
    refine hm.mono rfl ?_
    intro r j hj
    obtain ⟨hr, hi⟩ := hother r j hj
    exact ⟨(AList.lookup_insert_ne hr).trans hj, update_of_ne hi _ _, update_of_ne hr _ _⟩
  constructor
  · intro r j hj
    by_cases hr : r = root
    · subst hr
      obtain rfl : t.next = j := some.inj ((AList.lookup_insert _).symm.trans hj)
      refine ⟨n + 1, succ_lt_succ hn, .diff hj (update_self ..) rfl rfl
        (origin_newDiffLayer hlive) ?_ ?_ (hmono hlive)⟩
      · rw [update_self]
        refine hlive.misses_bloomOver fun h => ?_
        rw [hs.stored, hs.root_of_disk h]
      rw [update_self, update_of_ne hne.symm]
      rfl
    obtain ⟨m, hm, hl⟩ := hs.live r j ((AList.lookup_insert_ne hr).symm.trans hj)
    exact ⟨m, lt_succ_of_lt hm, hmono hl⟩
  · exact (AList.lookup_insert_ne (hother _ _ hs.disk).1).trans hs.disk
  · exact base_of ((update_of_ne (hother _ _ hs.disk).2 _ _).trans hs.base)
  · exact hs.stored.trans (update_of_ne (hother _ _ hs.disk).1 _ _).symm
  · intro j hj
    exact (update_of_ne (by change t.next + 1 ≤ j at hj; omega) _ _).trans (hs.fresh j (le_of_succ_le hj))
  · exact hs.cachedAccount
  · exact hs.cachedStorage

theorem cacheAccount (hash : Hash) (present : Bool) : Sound (t.cacheAccount hash present) D W := by
  refine ⟨?_, hs.disk, hs.base, hs.stored, hs.fresh, ?_, hs.cachedStorage⟩
  · intro r i hi
    obtain ⟨n, hn, h⟩ := hs.live r i hi
    exact ⟨n, hn, h.mono rfl fun _ _ h => ⟨h, rfl, rfl⟩⟩
  intro h v hv
  rw [Tree.cacheAccount] at hv
  dsimp only at hv
  by_cases hh : h = hash
  · subst hh
    rw [update_self] at hv
    cases present with
    | false => cases hv
    | true => exact (some.inj hv).symm.trans (hs.getD_account h)
  rw [update_of_ne hh] at hv
  exact hs.cachedAccount h v hv

theorem cacheStorage (a k : Hash) (present : Bool) : Sound (t.cacheStorage a k present) D W := by
  refine ⟨?_, hs.disk, hs.base, hs.stored, hs.fresh, hs.cachedAccount, ?_⟩
  · intro r i hi
    obtain ⟨n, hn, h⟩ := hs.live r i hi
    exact ⟨n, hn, h.mono rfl fun _ _ h => ⟨h, rfl, rfl⟩⟩
  intro a' k' v hv
  rw [Tree.cacheStorage] at hv
  dsimp only at hv
  by_cases ha : a' = a
  · subst ha
    rw [update_self] at hv
    by_cases hk : k' = k
    · subst hk
      rw [update_self] at hv
      cases present with
      | false => cases hv
      | true => exact (some.inj hv).symm.trans (hs.getD_storage a' k')
    rw [update_of_ne hk] at hv
    exact hs.cachedStorage a' k' v hv
  rw [update_of_ne ha] at hv
  exact hs.cachedStorage a' k' v hv

end Sound

theorem newTree_sound {db} (g : Bool) (h : W root = db) : Sound (newTree B root db g) 0 W := by
  have hlookup : (newTree B root db g).layers.lookup root = some 0 := AList.lookup_insert _
  refine ⟨?_, hlookup, rfl, h.symm, ?_, fun _ _ h => (by cases h), fun _ _ _ h => (by cases h)⟩
  · intro r i hi
    by_cases hr : r = root
    · subst hr
      obtain rfl : 0 = i := some.inj (hlookup.symm.trans hi)
      exact ⟨0, one_pos, .disk hi rfl⟩
    have hnone : (newTree B root db g).layers.lookup r = none :=
      (AList.lookup_insert_ne hr).trans (AList.lookup_empty r)
    rw [hnone] at hi
    cases hi
  intro i hi
  exact if_neg (one_le_iff_ne_zero.mp hi)

end Geth.Snapshot.Answers
