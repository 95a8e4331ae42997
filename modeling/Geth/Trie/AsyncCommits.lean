import Geth.Trie.LayerAnswers

namespace Geth.Trie.AsyncCommits

open Lib.BigEndian Lib.Radix Common.Basic Encoding Decode Merkle NodeStore
open Operations Represents Hashing Holding FiniteMap Layers LayerAnswers Function List Option

section

variable {db db' : Database} {h : Hash}

theorem isSome_lookup {l : List (Hash × CachedNode)} : (l.lookup h).isSome = true ↔ ∃ c, (h, c) ∈ l := by
  constructor
  · intro hl
    obtain ⟨c, hc⟩ := isSome_iff_exists.mp hl
    exact ⟨c, mem_of_lookup hc⟩
  rintro ⟨c, hc⟩
  induction l with
  | nil => cases hc
  | cons e l ih =>
    rw [lookup_cons]
    split
    · rfl
    next hne =>
      refine ih ((mem_cons.mp hc).resolve_left ?_)
      rintro rfl
      simp at hne

theorem flushList_append_drop (limit size : ℤ) (l : List (Hash × CachedNode)) :
    Database.flushList limit size l ++ l.drop (Database.flushList limit size l).length = l := by
  induction l generalizing size with
  | nil => rfl
  | cons e l ih =>
    rw [Database.flushList]
    split
    · simpa using ih _
    · rfl

theorem stored_insert {h' : Hash} {sz : ℕ} {raw} (hs : Stored db h) : Stored (db.insert h' sz raw) h := by
  obtain hd | hd := hs
  · obtain ⟨c, hc⟩ := isSome_iff_exists.mp hd
    exact .inl (by rw [insert_lookup hc]; rfl)
  refine .inr ?_
  rw [Database.insert]
  split <;> exact hd

theorem stored_cap (limit : ℤ) (hs : Stored db h) : Stored (db.cap limit) h := by
  obtain hd | hd := hs
  · obtain ⟨c, hc⟩ := isSome_lookup.mp hd
    rw [← flushList_append_drop limit (db.dirtiesSize + db.dirties.length * cachedNodeSize +
      (db.childrenSize - db.roots.length * 34)) db.dirties] at hc
    obtain hc | hc := mem_append.mp hc
    · exact .inr (isSome_write (.inr ⟨_, mem_map.mpr ⟨(h, c), hc, rfl⟩⟩))
    · exact .inl (isSome_lookup.mpr ⟨c, hc⟩)
  · exact .inr (isSome_write (.inl hd))

theorem stored_uncache {e : Hash × Bytes} (he : (db.disk.lookup e.1).isSome = true)
    (hs : Stored db h) : Stored (db.uncache e.1 e.2) h := by
  by_cases hh : h = e.1
  · subst hh
    refine .inr ?_
    rw [uncache_disk]
    exact he
  rw [Database.uncache]
  split
  · exact hs
  refine hs.imp_left fun hd => ?_
  obtain ⟨c, hc⟩ := isSome_lookup.mp hd
  exact isSome_lookup.mpr ⟨c, mem_filter.mpr ⟨hc, by simpa using hh⟩⟩

/-- What leaves the dirty map by `Commit` is on disk. -/
theorem stored_commit {root : Hash} (hc : db.commit root = some db') (hs : Stored db h) : Stored db' h := by
  refine commit_induction (Stored · h) hc (fun batch _ => ?_) fun batch _ e _ d hdisk hd => ?_
  · exact hs.imp_right fun hd => isSome_write (.inl hd)
  · exact stored_uncache hdisk hd

theorem stored_remember (h' : Hash) (hs : Stored db h) : Stored (db.remember h') h := by
  rw [Database.remember]
  split
  · exact hs
  · split <;> exact hs

/-- What a call other than `FlushHashCache` does to the database. -/
inductive Moves (db : Database) : Database → Prop where
  | hashed (d : HashCache) : Moves db { db with dirtyHashCache := d }
  | inserted (h : Hash) (sz : ℕ) (raw : RawNode) : Moves db (db.insert h sz raw)
  | capped (limit : ℤ) : Moves db (db.cap limit)
  | committed {root : Hash} {db' : Database} (hc : db.commit root = some db') : Moves db db'
  | remembered (h : Hash) : Moves db (db.remember h)
  | evicted (h : Hash) : Moves db (db.evict h)

theorem stored_moves (hm : Moves db db') (hs : Stored db h) : Stored db' h := by
  cases hm with
  | hashed d => exact hs
  | inserted h' sz raw => exact stored_insert hs
  | capped limit => exact stored_cap limit hs
  | committed hc => exact stored_commit hc hs
  | remembered h' => exact stored_remember h' hs
  | evicted h' => exact hs

theorem flushed_uncache (db : Database) (h : Hash) (enc : Bytes) :
    (db.uncache h enc).flushedHashCache = db.flushedHashCache := by
  rw [Database.uncache]
  split <;> rfl

theorem flushed_moves (hm : Moves db db') : db'.flushedHashCache = db.flushedHashCache := by
  cases hm with
  | hashed d => rfl
  | inserted h' sz raw =>
    rw [Database.insert]
    split <;> rfl
  | capped limit => rfl
  | committed hc =>
    refine commit_induction (·.flushedHashCache = db.flushedHashCache) hc (fun batch _ => rfl) ?_
    intro batch _ e _ d _ hd
    exact (flushed_uncache d e.1 e.2).trans hd
  | remembered h' =>
    rw [Database.remember]
    split
    · rfl
    · split <;> rfl
  | evicted h' => rfl

theorem moves_step {ι : Type} [DecidableEq ι] (C : Crypto) (s : Shared ι) {call}
    (hcall : call ≠ .flushHashCache) : Moves s.db (s.step C call).db := by
  have hsame : Moves s.db s.db := .hashed s.db.dirtyHashCache
  have hplace (i : ι) (t : Patricia) (x : Except TrieError Node) : Moves s.db (s.place i t x).db := by
    cases x <;> exact hsame
  cases call with
  | newTrie i j =>
    rw [Shared.step]
    split
    · exact hsame
    · exact hplace _ _ _
  | tryUpdate i key value => exact hplace _ _ _
  | tryDelete i key => exact hplace _ _ _
  | tryGet i key => exact hplace _ _ _
  | hash i =>
    rw [Shared.step]
    split
    · exact hsame
    next hhash =>
      rw [hashTrie_cache hhash]
      exact .hashed _
  | commit i =>
    rw [Shared.step]
    split
    · exact hsame
    next hcommit =>
      rw [commitNodes_cache hcommit]
      exact .hashed _
  | insertNext k =>
    rw [Shared.step]
    split
    · exact hsame
    · exact .inserted _ _ _
  | flushHashCache => exact absurd rfl hcall
  | cap limit => exact .capped limit
  | commitRoot root =>
    rw [Shared.step]
    split
    · exact hsame
    next hdb => exact .committed hdb
  | lookup h => exact .remembered h
  | evict h => exact .evicted h

end

section

variable {C : Crypto} {S : Set Bytes} {ι : Type} {s s' : Shared ι} {t : Patricia} {h : Hash} {i : ι}

/-- Stored, or on the way into the dirty map. -/
def Safe (s : Shared ι) (h : Hash) : Prop := Stored s.db h ∨ ∃ l ∈ s.queued, l.hash = h

/-- A part of a tree that is a node with a hash of its own. -/
structure HashedIn (C : Crypto) (t' t : Patricia) : Prop where
  within : t'.Within t
  inner : isInner t' = true
  large : 32 ≤ size C t' ∨ t' = t

theorem HashedIn.inner_whole {t'} (h : HashedIn C t' t) : isInner t = true := by
  obtain ⟨hw, hi, -⟩ := h
  cases t with
  | short k c => rfl
  | full cs => rfl
  | nil => exact hw ▸ hi
  | value v => exact hw ▸ hi

/-- A tree all whose nodes are safe. -/
structure Secured (C : Crypto) (S : Set Bytes) (s : Shared ι) (t : Patricia) : Prop where
  member : Member C S t
  nodes : ∀ t', HashedIn C t' t → Safe s (hashOf C t')

theorem closed_secured : Closed C (Secured C S s) := by
  intro t t' ht hw hi hl
  refine ⟨ht.member.within hw hi, fun t'' h => ht.nodes t'' ⟨h.within.trans hw, h.inner, .inl ?_⟩⟩
  obtain hl' | rfl := h.large
  · exact hl'
  · exact hl

theorem Secured.mono (h : ∀ h, Safe s h → Safe s' h) (ht : Secured C S s t) : Secured C S s' t :=
  ⟨ht.member, fun t' ht' => h _ (ht.nodes t' ht')⟩

theorem answers_secured (hC : Ideal C S) (hs : Serving C S s) : Answers C (Secured C S s) True s.db := by
  intro t hi ht
  obtain ⟨_, hnil⟩ | ⟨_, hn⟩ := node_spec hC hs.db ht.member hi closed_secured ht
  · exact .inl ⟨trivial, hnil⟩
  · exact .inr hn

/-- What a commit hands over secures its tree. -/
theorem secured_of_handed {leaves} (ht : Member C S t)
    (hl : Handed C (Secured C S s) true t leaves) (hsafe : ∀ h, Safe s h → Safe s' h)
    (hq : ∀ l ∈ leaves, l ∈ s'.queued) : Secured C S s' t := by
  refine ⟨ht, fun t' h => ?_⟩
  obtain hold | ⟨l, hmem, hh⟩ := hl.complete t' h.within h.inner (h.large.imp_right fun h => ⟨rfl, h⟩)
  · exact hsafe _ (hold.nodes t' ⟨RadixTree.within_self t', h.inner, .inr rfl⟩)
  · exact .inr ⟨l, hq l hmem, hh⟩

variable [DecidableEq ι]

theorem stored_step (hs : Stored s.db h) (call : Call ι) : Stored (s.step C call).db h := by
  by_cases hcall : call = .flushHashCache
  · subst hcall
    exact hs
  · exact stored_moves (moves_step C s hcall) hs

theorem safe_step (hC : Ideal C S) (hs : Serving C S s) (hsafe : Safe s h) (call : Call ι) :
    Safe (s.step C call) h := by
  obtain hstored | ⟨l, hl, hh⟩ := hsafe
  · exact .inl (stored_step hstored call)
  have hplace (i : ι) (t : Patricia) (x : Except TrieError Node) : Safe (s.place i t x) h := by
    cases x <;> exact .inr ⟨l, hl, hh⟩
  cases call with
  | newTrie i j =>
    rw [Shared.step]
    split
    · exact .inr ⟨l, hl, hh⟩
    · exact hplace _ _ _
  | tryUpdate i key value => exact hplace _ _ _
  | tryDelete i key => exact hplace _ _ _
  | tryGet i key => exact hplace _ _ _
  | hash i =>
    rw [Shared.step]
    split <;> exact .inr ⟨l, hl, hh⟩
  | commit i =>
    rw [Shared.step]
    split
    · exact .inr ⟨l, hl, hh⟩
    · exact .inr ⟨l, mem_append_left _ hl, hh⟩
  | insertNext k =>
    rw [Shared.step]
    split
    · exact .inr ⟨l, hl, hh⟩
    next l' hk =>
      obtain ⟨j, hj⟩ := mem_iff_getElem?.mp hl
      by_cases hjk : j = k
      · subst hjk
        obtain rfl := some.inj (hk.symm.trans hj)
        obtain ⟨t, ht, hi, hhash, -⟩ := hs.queued l' hl
        have hne : l'.hash ≠ zeros 32 := by
          rw [hhash]
          exact (hC.hashOf_ne ht.inPlay hi).1
        obtain ⟨c, hc⟩ : ∃ c, (s.db.insert l'.hash l'.size l'.node).dirties.lookup l'.hash = some c :=
          insert_lookup_self hne
        refine .inl (.inl ?_)
        rw [← hh]
        dsimp only
        rw [hc]
        rfl
      · exact .inr ⟨l, mem_eraseIdx_iff_getElem?.mpr ⟨j, hjk, hj⟩, hh⟩
  | flushHashCache => exact .inr ⟨l, hl, hh⟩
  | cap limit => exact .inr ⟨l, hl, hh⟩
  | commitRoot root =>
    rw [Shared.step]
    split <;> exact .inr ⟨l, hl, hh⟩
  | lookup h' => exact .inr ⟨l, hl, hh⟩
  | evict h' => exact .inr ⟨l, hl, hh⟩

/-- Every trie refers by hash to secured trees only. -/
def Tracked (C : Crypto) (S : Set Bytes) (s : Shared ι) : Prop :=
  ∀ i, Rep C (Secured C S s) true false (s.tries i) (s.trees i)

omit [DecidableEq ι] in
theorem Tracked.mono (hsafe : ∀ h, Safe s h → Safe s' h) (ht : Tracked C S s)
    (htries : s'.tries = s.tries) (htrees : s'.trees = s.trees) : Tracked C S s' := by
  intro i
  rw [htries, htrees]
  exact (ht i).mono fun t => Secured.mono hsafe

theorem Tracked.place (ht : Tracked C S s) {x}
    (hx : ∀ n, x = .ok n → Rep C (Secured C S s) true false n t) : Tracked C S (s.place i t x) := by
  cases x with
  | error e => exact ht
  | ok n =>
    intro j
    have hsafe (h : Hash) (hh : Safe s h) : Safe (s.place i t (.ok n)) h := hh
    have hmono (t' : Patricia) : Secured C S s t' → Secured C S (s.place i t (.ok n)) t' :=
      Secured.mono hsafe
    by_cases hj : j = i
    · subst hj
      simpa only [Shared.place, update_self] using (hx n rfl).mono hmono
    · simpa only [Shared.place, update_of_ne hj] using (ht j).mono hmono

theorem Tracked.replace (hsafe : ∀ h, Safe s h → Safe s' h) (ht : Tracked C S s) {n : Node}
    (htries : s'.tries = update s.tries i n) (htrees : s'.trees = s.trees)
    (hn : Rep C (Secured C S s') true false n (s.trees i)) : Tracked C S s' := by
  intro j
  rw [htries, htrees]
  by_cases hj : j = i
  · subst hj
    simpa only [update_self] using hn
  rw [update_of_ne hj]
  exact (ht j).mono fun t => Secured.mono hsafe

section

variable (hC : Ideal C S) (hs : Serving C S s) (ht : Tracked C S s)
    (hplay : ∀ i, encodings C (s.trees i) ⊆ S)
include hC hs ht hplay

theorem secured_commit (i : ι) (hi : isInner (s.trees i) = true) :
    Secured C S (s.step C (.commit i)) (s.trees i) := by
  obtain ⟨m, hm⟩ := hs.models i
  obtain ⟨n, leaves, d, hcommit, hhanded, -⟩ :=
    commitNodes_spec s.db closed_secured (ht i) hm.typed hm.canon
  refine secured_of_handed (member_within hm (hplay i) (RadixTree.within_self _) hi) hhanded
    (fun h hsafe => safe_step hC hs hsafe _) fun l hl => ?_
  rw [Shared.step, hcommit]
  exact mem_append_right _ hl

theorem tracked_step {call : Call ι} (hopen : ∀ i j, call ≠ .newTrie i j) : Tracked C S (s.step C call) := by
  have hanswers := answers_secured hC hs
  have hsafe : ∀ h, Safe s h → Safe (s.step C call) h := fun h hh => safe_step hC hs hh call
  cases call with
  | newTrie i j => exact absurd rfl (hopen i j)
  | tryUpdate i key value =>
    obtain ⟨m, hm⟩ := hs.models i
    exact ht.place fun n hn => of_missed (tryUpdate_spec hanswers (ht i) hm key value) hn
  | tryDelete i key =>
    obtain ⟨m, hm⟩ := hs.models i
    exact ht.place fun n hn => of_missed (tryDelete_spec hanswers (ht i) hm key) hn
  | tryGet i key =>
    obtain ⟨m, hm⟩ := hs.models i
    refine ht.place fun n hn => ?_
    obtain ⟨-, h, path, hx⟩ | ⟨n', hx, hrep⟩ := tryGetKey_spec hanswers (ht i) hm key
    · rw [hx] at hn
      cases hn
    rw [hx] at hn
    cases hn
    exact hrep
  | hash i =>
    obtain ⟨m, hm⟩ := hs.models i
    obtain ⟨n, d, hhash, hrep⟩ := hashTrie_spec s.db (ht i) hm.typed hm.proper
    have hstep : s.step C (.hash i) = { s with
        db := { s.db with dirtyHashCache := d }, tries := update s.tries i n } := by
      rw [Shared.step, hhash]
    rw [hstep] at hsafe ⊢
    exact ht.replace hsafe rfl rfl (hrep.plain.mono fun t => Secured.mono hsafe)
  | commit i =>
    obtain ⟨m, hm⟩ := hs.models i
    have hsecured := secured_commit hC hs ht hplay i
    obtain ⟨n, leaves, d, hcommit, -, hroot⟩ :=
      commitNodes_spec s.db closed_secured (ht i) hm.typed hm.canon
    have hstep : s.step C (.commit i) = { s with
        db := { s.db with dirtyHashCache := d }, tries := update s.tries i n,
        queued := s.queued ++ leaves } := by
      rw [Shared.step, hcommit]
    rw [hstep] at hsafe hsecured ⊢
    refine ht.replace hsafe rfl rfl ?_
    obtain ⟨hi, rfl⟩ | ⟨-, hrep⟩ := hroot
    · exact .hash hi (.inl rfl) (hsecured hi)
    · exact hrep.mono fun t => Secured.mono hsafe
  | insertNext k =>
    refine ht.mono hsafe ?_ ?_ <;> (rw [Shared.step]; split <;> rfl)
  | flushHashCache => exact ht.mono hsafe rfl rfl
  | cap limit => exact ht.mono hsafe rfl rfl
  | commitRoot root =>
    refine ht.mono hsafe ?_ ?_ <;> (rw [Shared.step]; split <;> rfl)
  | lookup h => exact ht.mono hsafe rfl rfl
  | evict h => exact ht.mono hsafe rfl rfl

end

end

section

variable {C : Crypto} {S : Set Bytes} {ι : Type} [DecidableEq ι] {h : Hash} {i : ι}

def Call.target : Call ι → Option ι
  | .newTrie i _ | .tryUpdate i _ _ | .tryDelete i _ | .tryGet i _ | .hash i | .commit i => some i
  | _ => none

/-- The calls that are made beside asynchronous commits. The commits make two of the others. -/
def Call.beside : Call ι → Bool
  | .commit _ | .flushHashCache | .newTrie _ _ => false
  | _ => true

/-- What happens around asynchronous commits. A commit hashes by calls of its own, and returns
when it has flushed the hash cache and left its tries to be committed in the background. -/
inductive Event (ι : Type) where
  | call (c : Call ι)
  | flushHashCache (l : List ι)
  | commitNext

def Event.InMemory : Event ι → Prop
  | .call c => c.InMemory
  | _ => True

/-- Tries over a database, the tries that the background has to commit, and the trees whose
`AsyncCommit` has returned. -/
structure Importing (ι : Type) where
  shared : Shared ι
  pending : List ι
  returned : List Patricia

def Importing.idle (s : Importing ι) : Bool := s.pending.isEmpty && s.shared.queued.isEmpty

def Importing.step (C : Crypto) (s : Importing ι) : Event ι → Importing ι
  -- a trie that is being committed is left alone
  | .call c =>
    if Call.beside c = true ∧ ∀ i ∈ s.pending, Call.target c ≠ some i then
      { s with shared := s.shared.step C c }
    else s
  | .flushHashCache l =>
    if s.idle then
      { shared := s.shared.step C .flushHashCache, pending := l
        returned := s.returned ++ l.map s.shared.trees }
    else s
  | .commitNext =>
    match s.pending with
    | [] => s
    | i :: l => { s with shared := s.shared.step C (.commit i), pending := l }

def runEvents (C : Crypto) (cached : Bool) (events : List (Event ι)) : Importing ι :=
  events.foldl (Importing.step C) ⟨.new cached, [], []⟩

/-- The encodings of the nodes of all trees along a run. -/
def imported (C : Crypto) (cached : Bool) (events : List (Event ι)) : Set Bytes :=
  { b | ∃ part, part <+: events ∧ ∃ i, b ∈ encodings C ((runEvents C cached part).shared.trees i) }

/-- Every node of the tries is stored, or in the hash cache that is about to be flushed. -/
def Registered (C : Crypto) (s : Shared ι) (l : List ι) : Prop :=
  ∀ i ∈ l, ∀ t, HashedIn C t (s.trees i) →
    Stored s.db (hashOf C t) ∨ (s.db.dirtyHashCache.lookup (hashOf C t)).isSome = true

/-- On the way into the dirty map, in the queue or in a trie that is still to be committed. -/
def Coming (C : Crypto) (s : Importing ι) (h : Hash) : Prop :=
  (∃ l ∈ s.shared.queued, l.hash = h) ∨
    ∃ i ∈ s.pending, ∃ t, HashedIn C t (s.shared.trees i) ∧ hashOf C t = h

/-- Stored, or on the way and flushed. -/
def Guarded (C : Crypto) (s : Importing ι) (h : Hash) : Prop :=
  Stored s.shared.db h ∨
    (s.shared.db.flushedHashCache.bind (·.lookup h)).isSome = true ∧ Coming C s h

omit [DecidableEq ι] in
theorem Guarded.available {s : Importing ι} (hg : Guarded C s h) : Available s.shared.db h :=
  hg.elim .inr fun hg => .inl hg.1

/-- A call changes the tree of its own trie only. -/
theorem trees_step (s : Shared ι) {call} (hi : Call.target call ≠ some i) :
    (s.step C call).trees i = s.trees i := by
  have hplace {j : ι} (hj : some j ≠ some i) (t : Patricia) (x : Except TrieError Node) :
      (s.place j t x).trees i = s.trees i := by
    cases x with
    | error e => rfl
    | ok n => exact update_of_ne (fun h => hj (congrArg some h.symm)) _ _
  cases call with
  | newTrie j k =>
    rw [Shared.step]
    split
    · rfl
    · exact hplace hi _ _
  | tryUpdate j key value => exact hplace hi _ _
  | tryDelete j key => exact hplace hi _ _
  | tryGet j key => exact hplace hi _ _
  | hash j => rw [Shared.step]; split <;> rfl
  | commit j => rw [Shared.step]; split <;> rfl
  | insertNext k => rw [Shared.step]; split <;> rfl
  | flushHashCache => rfl
  | cap limit => rfl
  | commitRoot root => rw [Shared.step]; split <;> rfl
  | lookup h => rfl
  | evict h => rfl

theorem trees_commit (s : Shared ι) (i : ι) : (s.step C (.commit i)).trees = s.trees := by
  rw [Shared.step]
  split <;> rfl

omit [DecidableEq ι] in
theorem Guarded.of_safe {s : Importing ι}
    (hf : (s.shared.db.flushedHashCache.bind (·.lookup h)).isSome = true) (hsafe : Safe s.shared h) :
    Guarded C s h :=
  hsafe.imp_right fun hq => ⟨hf, .inl hq⟩

variable {s : Importing ι}

theorem guarded_call (hC : Ideal C S) (hs : Serving C S s.shared) (hg : Guarded C s h)
    (c : Call ι) : Guarded C (s.step C (.call c)) h := by
  rw [Importing.step]
  split
  next hc =>
    obtain hstored | ⟨hf, hcoming⟩ := hg
    · exact .inl (stored_step hstored c)
    have hne : c ≠ .flushHashCache := by
      rintro rfl
      cases hc.1
    rw [← flushed_moves (moves_step C s.shared hne)] at hf
    obtain hq | ⟨i, hi, t, ht, hh⟩ := hcoming
    · exact .of_safe hf (safe_step hC hs (.inr hq) c)
    refine .inr ⟨hf, .inr ⟨i, hi, t, ?_, hh⟩⟩
    dsimp only
    rwa [trees_step s.shared (hc.2 i hi)]
  next => exact hg

theorem guarded_commitNext (hC : Ideal C S) (hs : Serving C S s.shared) (ht : Tracked C S s.shared)
    (hplay : ∀ i, encodings C (s.shared.trees i) ⊆ S) (hg : Guarded C s h) :
    Guarded C (s.step C .commitNext) h := by
  rw [Importing.step]
  split
  next => exact hg
  next i l hpending =>
    obtain hstored | ⟨hf, hcoming⟩ := hg
    · exact .inl (stored_step hstored (.commit i))
    have hne : Call.commit i ≠ .flushHashCache := by simp
    rw [← flushed_moves (moves_step C s.shared hne)] at hf
    obtain hq | ⟨j, hj, t, hin, hh⟩ := hcoming
    · exact .of_safe hf (safe_step hC hs (.inr hq) (.commit i))
    rw [hpending] at hj
    obtain rfl | hj := mem_cons.mp hj
    · -- the trie that is committed now hands over what is not stored
      have hsecured := secured_commit hC hs ht hplay j hin.inner_whole
      exact .of_safe hf (hh ▸ hsecured.nodes t hin)
    refine .inr ⟨hf, .inr ⟨j, hj, t, ?_, hh⟩⟩
    dsimp only
    rwa [trees_commit]

/-- With the latch open all that was committed is stored; what is flushed now is registered. -/
theorem guarded_flush (hg : Guarded C s h) (l : List ι) : Guarded C (s.step C (.flushHashCache l)) h := by
  rw [Importing.step]
  split
  next hidle =>
    rw [Importing.idle, Bool.and_eq_true, List.isEmpty_iff, List.isEmpty_iff] at hidle
    obtain hstored | ⟨-, ⟨l, hl, -⟩ | ⟨i, hi, -⟩⟩ := hg
    · exact .inl hstored
    · rw [hidle.2] at hl
      cases hl
    rw [hidle.1] at hi
    cases hi
  next => exact hg

theorem guarded_registered {l} (hidle : s.idle = true) (hreg : Registered C s.shared l) (hi : i ∈ l) {t} (ht : HashedIn C t (s.shared.trees i)) :
    Guarded C (s.step C (.flushHashCache l)) (hashOf C t) := by
  rw [Importing.step, if_pos hidle]
  obtain hstored | hdirty := hreg i hi t ht
  · exact .inl hstored
  · exact .inr ⟨hdirty, .inr ⟨i, hi, t, ht, rfl⟩⟩

/-- The tries stand for their trees, and the returned trees are among those in play. -/
structure Sound (C : Crypto) (S : Set Bytes) (s : Importing ι) : Prop where
  serving : Serving C S s.shared
  tracked : Tracked C S s.shared
  member : ∀ t ∈ s.returned, ∀ t', HashedIn C t' t → Member C S t'

section

variable (hC : Ideal C S) (hs : Sound C S s) (hplay : ∀ i, encodings C (s.shared.trees i) ⊆ S)
include hC hs hplay

theorem sound_step {e} (hmem : e.InMemory) : Sound C S (s.step C e) := by
  have hshared (c : Call ι) (hc : c.InMemory) (hopen : ∀ i j, c ≠ .newTrie i j) :
      Serving C S (s.shared.step C c) ∧ Tracked C S (s.shared.step C c) :=
    ⟨serving_step hC hs.serving hplay hc, tracked_step hC hs.serving hs.tracked hplay hopen⟩
  cases e with
  | call c =>
    rw [Importing.step]
    split
    next hc =>
      have hopen (i j : ι) : c ≠ .newTrie i j := by
        rintro rfl
        cases hc.1
      exact ⟨(hshared c hmem hopen).1, (hshared c hmem hopen).2, hs.member⟩
    next => exact hs
  | flushHashCache l =>
    rw [Importing.step]
    split
    · obtain ⟨hserving, htracked⟩ := hshared .flushHashCache trivial (by simp)
      refine ⟨hserving, htracked, ?_⟩
      intro t ht t' ht'
      obtain ht | ht := mem_append.mp ht
      · exact hs.member t ht t' ht'
      obtain ⟨i, -, rfl⟩ := mem_map.mp ht
      obtain ⟨m, hm⟩ := hs.serving.models i
      exact member_within hm (hplay i) ht'.within ht'.inner
    · exact hs
  | commitNext =>
    rw [Importing.step]
    split
    · exact hs
    next i l _ =>
      obtain ⟨hserving, htracked⟩ := hshared (.commit i) trivial (by simp)
      exact ⟨hserving, htracked, hs.member⟩

theorem guarded_step
    (hg : ∀ t ∈ s.returned, ∀ t', HashedIn C t' t → Guarded C s (hashOf C t')) (e : Event ι)
    (hreg : ∀ l, e = .flushHashCache l → s.idle = true → Registered C s.shared l) :
    ∀ t ∈ (s.step C e).returned, ∀ t', HashedIn C t' t → Guarded C (s.step C e) (hashOf C t') := by
  intro t ht t' ht'
  cases e with
  | call c =>
    refine guarded_call hC hs.serving (hg t ?_ t' ht') c
    rw [Importing.step] at ht
    split at ht <;> exact ht
  | flushHashCache l =>
    by_cases hidle : s.idle = true
    · have hret : t ∈ s.returned ++ l.map s.shared.trees := by
        rw [Importing.step, if_pos hidle] at ht
        exact ht
      obtain hold | hnew := mem_append.mp hret
      · exact guarded_flush (hg t hold t' ht') l
      obtain ⟨i, hi, rfl⟩ := mem_map.mp hnew
      exact guarded_registered hidle (hreg l rfl hidle) hi ht'
    rw [Importing.step, if_neg hidle] at ht ⊢
    exact hg t ht t' ht'
  | commitNext =>
    refine guarded_commitNext hC hs.serving hs.tracked hplay (hg t ?_ t' ht')
    rw [Importing.step] at ht
    split at ht <;> exact ht

end

end

section

variable {C : Crypto} {S : Set Bytes} {ι : Type} [DecidableEq ι] {cached : Bool}
  {events : List (Event ι)}

theorem runEvents_append (e : Event ι) :
    runEvents C cached (events ++ [e]) = (runEvents C cached events).step C e := by
  rw [runEvents, foldl_append]
  rfl

theorem imported_mono {part} (hp : part <+: events) : imported C cached part ⊆ imported C cached events :=
  fun _ ⟨part', hp', hb⟩ => ⟨part', hp'.trans hp, hb⟩

theorem encodings_imported (i : ι) :
    encodings C ((runEvents C cached events).shared.trees i) ⊆ imported C cached events :=
  fun _ hb => ⟨events, prefix_rfl, i, hb⟩

section

variable (hC : Ideal C S) (hmem : ∀ e ∈ events, e.InMemory) (hS : imported C cached events ⊆ S)
include hC hmem hS

theorem sound_run : Sound C S (runEvents C cached events) := by
  induction events using reverseRecOn with
  | nil => exact ⟨serving_new cached, fun _ => .nil, fun t ht => (by cases ht)⟩
  | append_singleton events e ih =>
    have hS' := (imported_mono (prefix_append events [e])).trans hS
    rw [runEvents_append]
    exact sound_step hC (ih (fun e he => hmem e (mem_append_left _ he)) hS')
      (fun i => (encodings_imported i).trans hS') (hmem e (by simp))

/-- Every commit along the run finds its nodes stored or registered when it flushes. -/
def AllRegistered (C : Crypto) (cached : Bool) (events : List (Event ι)) : Prop :=
  ∀ part l, part ++ [.flushHashCache l] <+: events → (runEvents C cached part).idle = true →
    Registered C (runEvents C cached part).shared l

theorem guarded_run (hreg : AllRegistered C cached events) :
    ∀ t ∈ (runEvents C cached events).returned, ∀ t', HashedIn C t' t →
      Guarded C (runEvents C cached events) (hashOf C t') := by
  induction events using reverseRecOn with
  | nil => exact fun t ht => (by cases ht)
  | append_singleton events e ih =>
    have hpart : events <+: events ++ [e] := prefix_append events [e]
    have hS' := (imported_mono hpart).trans hS
    have hmem' : ∀ e ∈ events, e.InMemory := fun e he => hmem e (mem_append_left _ he)
    rw [runEvents_append]
    refine guarded_step hC (sound_run hC hmem' hS') (fun i => (encodings_imported i).trans hS')
      (ih hmem' hS' fun part l hp => hreg part l (hp.trans hpart)) e ?_
    rintro l rfl hidle
    exact hreg events l prefix_rfl hidle

end

/-- A lookup of the tree's hash answers with a node for the tree. -/
def Readable (C : Crypto) (S : Set Bytes) (db : Database) (t : Patricia) : Prop :=
  ∃ n, db.node (hashOf C t) = .ok n ∧ isBranch n = true ∧ Rep C (Member C S) true true n t

theorem readable_iff {db} (hC : Ideal C S) (hdb : Consistent C (Member C S) db)
    {t} (ht : Member C S t) (hi : isInner t = true) :
    Readable C S db t ↔ Available db (hashOf C t) := by
  obtain ⟨hnot, hnil⟩ | ⟨havail, hn⟩ := node_spec hC hdb ht hi closed_member ht
  · refine iff_of_false ?_ hnot
    rintro ⟨n, hn, hbranch, -⟩
    obtain rfl := Except.ok.inj (hnil.symm.trans hn)
    cases hbranch
  · exact iff_of_true hn havail

/-- When `AsyncCommit` returns, all nodes of its tries can be read exactly if each was stored or
in the hash cache that it flushed. If this is so at every commit of a run, then after any events
all nodes of all tries whose commit has returned can be read. -/
theorem returned_readable (C : Crypto) (S : Set Bytes) (cached : Bool) (events : List (Event ι))
    (hmem : ∀ e ∈ events, e.InMemory) (hC : Ideal C S) (hS : imported C cached events ⊆ S) :
    (∀ part l, part ++ [.flushHashCache l] <+: events → (runEvents C cached part).idle = true →
      ((∀ i ∈ l, ∀ t, HashedIn C t ((runEvents C cached part).shared.trees i) →
          Readable C S (runEvents C cached (part ++ [.flushHashCache l])).shared.db t) ↔
        Registered C (runEvents C cached part).shared l)) ∧
    (AllRegistered C cached events → ∀ t ∈ (runEvents C cached events).returned, ∀ t',
      HashedIn C t' t → Readable C S (runEvents C cached events).shared.db t') := by
  refine ⟨fun part l hp hidle => ?_, fun hreg t ht t' ht' => ?_⟩
  · have hsound : Sound C S (runEvents C cached (part ++ [.flushHashCache l])) :=
      sound_run hC (fun e he => hmem e (hp.subset he)) ((imported_mono hp).trans hS)
    have hmember {i : ι} (hi : i ∈ l) {t : Patricia}
        (ht : HashedIn C t ((runEvents C cached part).shared.trees i)) : Member C S t := by
      refine hsound.member _ ?_ t ht
      rw [runEvents_append, Importing.step, if_pos hidle]
      exact mem_append_right _ (mem_map_of_mem hi)
    have havail {h : Hash} : Available (runEvents C cached (part ++ [.flushHashCache l])).shared.db h ↔
        Stored (runEvents C cached part).shared.db h ∨
          ((runEvents C cached part).shared.db.dirtyHashCache.lookup h).isSome = true := by
      rw [runEvents_append, Importing.step, if_pos hidle]
      exact or_comm
    refine forall₂_congr fun i hi => forall₂_congr fun t ht => ?_
    rw [readable_iff hC hsound.serving.db (hmember hi ht) ht.inner, havail]
  have hsound := sound_run hC hmem hS
  rw [readable_iff hC hsound.serving.db (hsound.member t ht t' ht') ht'.inner]
  exact (guarded_run hC hmem hS hreg t ht t' ht').available

end

section

/-- The tries of a block that is being sealed, and the account trie of the blocks imported
meanwhile. -/
inductive SampleTrie where
  | storage
  | accounts
  | imports
  deriving DecidableEq

def accountValue : Bytes :=
  [0xf8, 0x44, 0x80, 0x80, 0xa0] ++ leafHash.val ++ [0xa0] ++
    (hexToHash 0xc5d2460186f7233c927e7db2dcc703c0e500b653ca82273b7bfad8045d85a470).val

def accountEncoding : Bytes := [0xf8, 0x4b, 0x82, 0x20, 0x34, 0xb8, 0x46] ++ accountValue

def accountHash : Hash :=
  hexToHash 0x12b30e2901518d7dc4c024587090ce57c92125ffa7801d84d955aed8727dbbd9

/-- The recorded hashes of the two leaves. -/
def sealedCrypto : Crypto :=
  Crypto.ofTables [(leafEncoding, leafHash), (accountEncoding, accountHash)] []

/-- A block is assembled and its tries are hashed. Two blocks that change nothing are imported.
Then the sealed block is committed: its account trie is hashed once more, but not its storage
trie, of which nothing is pending. -/
def sealedEvents : List (Event SampleTrie) :=
  [.call (.tryUpdate .storage [0x12] longValue), .call (.hash .storage),
    .call (.tryUpdate .accounts [0x34] accountValue), .call (.hash .accounts),
    .call (.hash .imports), .flushHashCache [.imports], .commitNext,
    .call (.hash .imports), .flushHashCache [.imports], .commitNext,
    .call (.hash .accounts), .flushHashCache [.storage, .accounts]]

def sealedEncodings : List Bytes := [leafEncoding, accountEncoding]

/-- The commit of the sealed block has returned, its account trie can be read, and the root of
its storage trie cannot; no two encodings along the run have the same hash. -/
theorem storage_unreadable :
    let s := runEvents sealedCrypto false sealedEvents
    s.pending = [.storage, .accounts] ∧ s.shared.trees .storage ∈ s.returned ∧
      isInner (s.shared.trees .storage) = true ∧
      hashOf sealedCrypto (s.shared.trees .storage) = leafHash ∧
      Available s.shared.db accountHash ∧ s.shared.db.node leafHash = .ok .nil ∧
      Ideal sealedCrypto { b | b ∈ sealedEncodings } ∧
      imported sealedCrypto false sealedEvents ⊆ { b | b ∈ sealedEncodings } := by
  refine ⟨by decide +kernel, mem_append_right _ mem_cons_self, by decide +kernel,
    by decide +kernel, .inl (by decide +kernel), rfl,
    ideal_of_list (fun b hb => hb) (by decide +kernel), ?_⟩
  rintro b ⟨part, hpart, i, hb⟩
  have hall : ∀ part ∈ sealedEvents.inits, ∀ i ∈ [SampleTrie.storage, .accounts, .imports],
      ∀ b ∈ nodeEncodings sealedCrypto ((runEvents sealedCrypto false part).shared.trees i),
        b ∈ sealedEncodings := by
    decide +kernel
  exact hall part ((mem_inits _ _).mpr hpart) i (by cases i <;> simp) b (mem_nodeEncodings hb)

theorem allRegistered_flush [DecidableEq ι] {C : Crypto} {cached : Bool} {events rest : List (Event ι)} {l : List ι}
    (h : AllRegistered C cached events) (hl : Registered C (runEvents C cached events).shared l)
    (hrest : ∀ l', .flushHashCache l' ∉ rest) : AllRegistered C cached (events ++ .flushHashCache l :: rest) := by
  intro part l' hp hidle
  obtain hold | hnew := prefix_or_prefix_of_prefix hp (prefix_append events _)
  · exact h part l' hold hidle
  obtain heq | ⟨between, rfl⟩ := prefix_concat_iff.mp hnew
  · exact h part l' (heq ▸ prefix_rfl) hidle
  rw [append_assoc, prefix_append_right_inj] at hp
  cases between with
  | nil =>
    cases (cons_prefix_cons.mp hp).1
    rw [append_nil]
    exact hl
  | cons e between =>
    have hmem := (cons_prefix_cons.mp hp).2.subset (mem_append_right between mem_cons_self)
    exact (hrest l' hmem).elim

theorem hashedIn_leaf {C : Crypto} {k} {v} {t : Patricia} (ht : HashedIn C t (.short k (.value v))) :
    t = .short k (.value v) := by
  obtain ⟨hw, hi, -⟩ := ht
  obtain hw | hw := hw
  · exact hw
  · cases hw
    cases hi

def storageTree : Patricia := .short (keybytesToHex [0x12]) (.value longValue)

def accountTree : Patricia := .short (keybytesToHex [0x34]) (.value accountValue)

def firstBlock : List (Event SampleTrie) := [.call (.tryUpdate .storage [0x12] longValue), .call (.hash .storage)]

/-- The second block commits the storage trie again, which is in the dirty map by then. -/
def secondBlock : List (Event SampleTrie) :=
  firstBlock ++ [.flushHashCache [.storage], .commitNext, .call (.insertNext 0),
    .call (.tryUpdate .accounts [0x34] accountValue), .call (.hash .accounts)]

def twoBlocks : List (Event SampleTrie) := secondBlock ++ [.flushHashCache [.storage, .accounts]]

theorem registered_twoBlocks : AllRegistered sealedCrypto false twoBlocks := by
  have hnone : AllRegistered sealedCrypto false firstBlock := by
    have hcalls : ∀ l, Event.flushHashCache l ∉ firstBlock := by simp [firstBlock]
    exact fun part l hp _ => (hcalls l (hp.subset (mem_append_right part mem_cons_self))).elim
  refine allRegistered_flush (allRegistered_flush hnone ?_ (by simp)) ?_ fun _ => not_mem_nil
  · intro i hi t ht
    obtain rfl := mem_singleton.mp hi
    obtain rfl : t = storageTree := hashedIn_leaf ht
    exact .inr (by decide +kernel)
  · intro i hi t ht
    obtain rfl | hi := mem_cons.mp hi
    · obtain rfl : t = storageTree := hashedIn_leaf ht
      exact .inl (.inl (by decide +kernel))
    · obtain rfl := mem_singleton.mp hi
      obtain rfl : t = accountTree := hashedIn_leaf ht
      exact .inr (by decide +kernel)

/-- All nodes of two blocks can be read once both commits have returned. -/
theorem returned_readable_blocks :
    (runEvents sealedCrypto false twoBlocks).returned = [storageTree, storageTree, accountTree] ∧
      Readable sealedCrypto { b | b ∈ sealedEncodings } (runEvents sealedCrypto false twoBlocks).shared.db
        storageTree ∧
      Readable sealedCrypto { b | b ∈ sealedEncodings } (runEvents sealedCrypto false twoBlocks).shared.db
        accountTree := by
  have hmem : ∀ e ∈ twoBlocks, e.InMemory := by
    simp [twoBlocks, secondBlock, firstBlock, Event.InMemory, Call.InMemory, Op.InMemory,
      keybytesToHex_length, longValue, accountValue]
  have hC : Ideal sealedCrypto { b | b ∈ sealedEncodings } :=
    ideal_of_list (fun b hb => hb) (by decide +kernel)
  have hS : imported sealedCrypto false twoBlocks ⊆ { b | b ∈ sealedEncodings } := by
    rintro b ⟨part, hpart, i, hb⟩
    have hall : ∀ part ∈ twoBlocks.inits, ∀ i ∈ [SampleTrie.storage, .accounts, .imports],
        ∀ b ∈ nodeEncodings sealedCrypto ((runEvents sealedCrypto false part).shared.trees i),
          b ∈ sealedEncodings := by
      decide +kernel
    exact hall part ((mem_inits _ _).mpr hpart) i (by cases i <;> simp) b (mem_nodeEncodings hb)
  have hreturned : (runEvents sealedCrypto false twoBlocks).returned =
      [storageTree, storageTree, accountTree] := rfl
  obtain ⟨-, hrun⟩ := returned_readable sealedCrypto _ false twoBlocks hmem hC hS
  have hread := hrun registered_twoBlocks
  rw [hreturned] at hread
  refine ⟨hreturned, hread storageTree mem_cons_self storageTree ?_,
    hread accountTree (by simp) accountTree ?_⟩
  · exact ⟨RadixTree.within_self _, by decide +kernel, .inr rfl⟩
  · exact ⟨RadixTree.within_self _, by decide +kernel, .inr rfl⟩

end

end Geth.Trie.AsyncCommits
