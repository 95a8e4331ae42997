import Geth.Trie.Layers

namespace Geth.Trie.LayerAnswers

open Lib.BigEndian Lib.Radix Common.Basic Rlp.Encode Rlp.Stream Encoding Decode Merkle NodeStore
open Hasher Operations Represents Hashing Holding FiniteMap Layers Function List AList Option

variable {C : Crypto} {S : Set Bytes} {db : Database}

section

variable {disk : AList fun _ : Hash => Bytes} {batch : List (Hash × Bytes)}

theorem lookup_write {h : Hash} {enc} (hl : (Database.write disk batch).lookup h = some enc) :
    disk.lookup h = some enc ∨ (h, enc) ∈ batch := by
  induction batch generalizing disk with
  | nil => exact .inl hl
  | cons e batch ih =>
    obtain hold | hmem := ih hl
    · by_cases he : h = e.1
      · subst he
        rw [lookup_insert] at hold
        cases hold
        exact .inr mem_cons_self
      rw [lookup_insert_ne he] at hold
      exact .inl hold
    · exact .inr (mem_cons_of_mem _ hmem)

theorem isSome_write {h : Hash} (hh : (disk.lookup h).isSome = true ∨ ∃ enc, (h, enc) ∈ batch) :
    ((Database.write disk batch).lookup h).isSome = true := by
  induction batch generalizing disk with
  | nil => exact hh.resolve_right fun ⟨enc, henc⟩ => by cases henc
  | cons e batch ih =>
    apply ih
    by_cases he : h = e.1
    · subst he
      exact .inl (by rw [lookup_insert]; rfl)
    refine hh.imp (fun hd => ?_) fun ⟨enc, henc⟩ => ⟨enc, ?_⟩
    · rw [lookup_insert_ne he]
      exact hd
    refine (mem_cons.mp henc).resolve_left ?_
    rintro rfl
    exact he rfl

end

section

def Written (C : Crypto) (S : Set Bytes) (e : Hash × Bytes) : Prop :=
  NodeOf C (Member C S) e.1 fun t => e.2 = encode (item C t)

variable {e : Hash × CachedNode} {batch : List (Hash × Bytes)} {db' : Database} {root : Hash}

section

variable (hdb : Consistent C (Member C S) db)
include hdb

theorem written_of_dirty (he : e ∈ db.dirties) : Written C S (e.1, e.2.rlp) := by
  obtain ⟨_, _, t, ht, hi, hh, hraw⟩ := hdb.dirties e he
  exact ⟨t, ht, hi, hh, ht.rlp hraw⟩

theorem consistent_hashCache {d}
    (hd : CacheOk C (Member C S) d) : Consistent C (Member C S) { db with dirtyHashCache := d } :=
  ⟨hdb.disk, hdb.cleans, hdb.dirties, hd, hdb.flushed⟩

theorem consistent_flush : Consistent C (Member C S) db.flushHashCache := by
  refine ⟨hdb.disk, hdb.cleans, hdb.dirties, cacheOk_empty, fun d hd => ?_⟩
  cases hd
  exact hdb.hashed

theorem consistent_insert {t} (ht : Member C S t) (hi : isInner t = true) (sz : ℕ) :
    Consistent C (Member C S) (db.insert (hashOf C t) sz (rawOf C t)) := by
  by_cases hk : hashOf C t = zeros 32 ∨ (db.dirties.lookup (hashOf C t)).isSome = true
  · rwa [insert_of_known hk]
  rw [Database.insert, if_neg hk]
  refine ⟨hdb.disk, hdb.cleans, fun e he => ?_, hdb.hashed, hdb.flushed⟩
  obtain he | he := mem_append.mp he
  · exact hdb.dirties e he
  obtain rfl := mem_singleton.mp he
  exact ⟨(not_or.mp hk).1, rfl, t, ht, hi, rfl, rfl⟩

theorem consistent_write (hb : ∀ e ∈ batch, Written C S e) {dirties}
    (hd : ∀ e ∈ dirties, e ∈ db.dirties) {dirtiesSize childrenSize : ℤ} : Consistent C (Member C S)
      { db with disk := Database.write db.disk batch, dirties, dirtiesSize, childrenSize } := by
  refine ⟨fun h enc hl => ?_, fun h enc hl => ?_, fun e he => hdb.dirties e (hd e he), hdb.hashed,
    hdb.flushed⟩
  · obtain hold | hmem := lookup_write hl
    · exact hdb.disk h enc hold
    · exact hb (h, enc) hmem
  obtain ⟨hnode, hdisk⟩ := hdb.cleans h enc hl
  exact ⟨hnode, isSome_write (.inl hdisk)⟩

omit hdb in
theorem mem_of_mem_flushList {limit size : ℤ} {l} (h : e ∈ Database.flushList limit size l) : e ∈ l := by
  induction l generalizing size with
  | nil => exact h
  | cons e' l ih =>
    rw [Database.flushList] at h
    split at h
    · exact (mem_cons.mp h).elim (fun he => he ▸ mem_cons_self)
        fun hl => mem_cons_of_mem _ (ih hl)
    · cases h

theorem consistent_cap (limit : ℤ) : Consistent C (Member C S) (db.cap limit) := by
  refine consistent_write hdb (fun e he => ?_) fun e he => mem_of_mem_drop he
  obtain ⟨e', he', rfl⟩ := mem_map.mp he
  exact written_of_dirty hdb (mem_of_mem_flushList he')

end

theorem exists_of_mapM {α β : Type} {f : α → Option β} {l : List α} {r : List β} {b : β}
    (h : l.mapM f = some r) (hb : b ∈ r) : ∃ a ∈ l, f a = some b := by
  induction l generalizing r with
  | nil =>
    cases h
    cases hb
  | cons a l ih =>
    rw [mapM_cons] at h
    obtain ⟨b₀, hb₀, h⟩ := bind_eq_some_iff.mp h
    obtain ⟨r₀, hr₀, h⟩ := bind_eq_some_iff.mp h
    cases h
    obtain rfl | hb := mem_cons.mp hb
    · exact ⟨a, mem_cons_self, hb₀⟩
    obtain ⟨a', ha', hf⟩ := ih hr₀ hb
    exact ⟨a', mem_cons_of_mem _ ha', hf⟩

theorem written_commitFrom (hdb : Consistent C (Member C S) db) {fuel : ℕ} {h : Hash} (hb : db.commitFrom fuel h = some batch) :
    ∀ e ∈ batch, Written C S e := by
  induction fuel generalizing h batch with
  | zero => cases hb
  | succ fuel ih =>
    rw [Database.commitFrom] at hb
    cases hl : db.dirties.lookup h with
    | none =>
      rw [hl] at hb
      cases hb
      simp
    | some n =>
      rw [hl] at hb
      obtain ⟨below, hbelow, hb⟩ := bind_eq_some_iff.mp hb
      cases hb
      intro e he
      obtain he | he := mem_append.mp he
      · obtain ⟨part, hpart, he⟩ := mem_flatten.mp he
        obtain ⟨child, _, hchild⟩ := exists_of_mapM hbelow hpart
        exact ih hchild e he
      obtain rfl := mem_singleton.mp he
      exact written_of_dirty hdb (mem_of_lookup hl)

theorem consistent_uncache (hdb : Consistent C (Member C S) db) {e}
    (he : Written C S e) (hdisk : (db.disk.lookup e.1).isSome = true) :
    Consistent C (Member C S) (db.uncache e.1 e.2) := by
  rw [Database.uncache]
  split
  · exact hdb
  refine ⟨hdb.disk, fun h enc hl => ?_, fun e' he' => hdb.dirties e' (mem_of_mem_filter he'),
    hdb.hashed, hdb.flushed⟩
  obtain ⟨cleans, hcleans, hl⟩ := bind_eq_some_iff.mp hl
  obtain ⟨old, hold, rfl⟩ := map_eq_some_iff.mp hcleans
  by_cases hh : h = e.1
  · subst hh
    rw [lookup_insert] at hl
    cases hl
    exact ⟨he, hdisk⟩
  rw [lookup_insert_ne hh] at hl
  exact hdb.cleans h enc (by rw [hold]; exact hl)

theorem uncache_disk (db : Database) (h : Hash) (rlp : Bytes) : (db.uncache h rlp).disk = db.disk := by
  rw [Database.uncache]
  split <;> rfl

/-- What holds once the batch is written, and is kept when a node that is on disk leaves the dirty
map, holds after `Commit`. -/
theorem commit_induction (p : Database → Prop) (h : db.commit root = some db')
    (hwrite : ∀ batch, db.commitFrom (db.dirties.length + 1) root = some batch →
      p { db with disk := Database.write db.disk batch })
    (huncache : ∀ batch, db.commitFrom (db.dirties.length + 1) root = some batch → ∀ e ∈ batch,
      ∀ d : Database, (d.disk.lookup e.1).isSome = true → p d → p (d.uncache e.1 e.2)) : p db' := by
  obtain ⟨batch, hbatch, h⟩ := bind_eq_some_iff.mp h
  cases h
  refine (foldlRecOn (motive := fun d => d.disk = Database.write db.disk batch ∧ p d) batch
    (fun d e => d.uncache e.1 e.2) ⟨rfl, hwrite batch hbatch⟩ fun d hd e he => ⟨?_, ?_⟩).2
  · rw [uncache_disk, hd.1]
  refine huncache batch hbatch e he d ?_ hd.2
  rw [hd.1]
  exact isSome_write (.inr ⟨e.2, he⟩)

section

variable (hdb : Consistent C (Member C S) db)
include hdb

theorem consistent_commit (h : db.commit root = some db') : Consistent C (Member C S) db' := by
  refine commit_induction _ h (fun batch hbatch => ?_) fun batch hbatch e he d hdisk hd => ?_
  · exact consistent_write hdb (written_commitFrom hdb hbatch) fun e he => he
  · exact consistent_uncache hd (written_commitFrom hdb hbatch e he) hdisk

theorem consistent_remember (h : Hash) : Consistent C (Member C S) (db.remember h) := by
  rw [Database.remember]
  split
  · exact hdb
  split
  next enc hdisk =>
    refine ⟨hdb.disk, fun h' enc' hl => ?_, hdb.dirties, hdb.hashed, hdb.flushed⟩
    obtain ⟨cleans, hcleans, hl⟩ := bind_eq_some_iff.mp hl
    obtain ⟨old, hold, rfl⟩ := map_eq_some_iff.mp hcleans
    by_cases hh : h' = h
    · subst hh
      rw [lookup_insert] at hl
      obtain rfl := some.inj hl
      exact ⟨hdb.disk h' enc hdisk, by rw [hdisk]; rfl⟩
    rw [lookup_insert_ne hh] at hl
    exact hdb.cleans h' enc' (by rw [hold]; exact hl)
  next => exact hdb

theorem consistent_evict (h : Hash) : Consistent C (Member C S) (db.evict h) := by
  refine ⟨hdb.disk, fun h' enc hl => ?_, hdb.dirties, hdb.hashed, hdb.flushed⟩
  obtain ⟨cleans, hcleans, hl⟩ := bind_eq_some_iff.mp hl
  obtain ⟨old, hold, rfl⟩ := map_eq_some_iff.mp hcleans
  have hne : h' ≠ h := by
    rintro rfl
    rw [lookup_erase] at hl
    cases hl
  rw [lookup_erase_ne hne] at hl
  exact hdb.cleans h' enc (by rw [hold]; exact hl)

end

end

section

def passesFlushed (db : Database) (h : Hash) : Bool :=
  (db.cleans.bind (·.lookup h)).isSome || (db.flushedHashCache.bind (·.lookup h)).isNone

/-- The nodes whose encoding is that of their tree when they are encoded as they are in memory:
every short node has a zero and one more digit as its key, and no node below has a hash. -/
def Plain : Node → Prop
  | .short key val _ => (∃ d ≠ terminator, key = [0, d]) ∧ val.cache.1 = none ∧ Plain val
  | .full cs _ => ∀ i, (cs i).cache.1 = none ∧ Plain (cs i)
  | _ => True

theorem plain_short {key val fl} : Plain (.short key val fl) ↔
    (∃ d ≠ terminator, key = [0, d]) ∧ val.cache.1 = none ∧ Plain val := Iff.rfl

theorem plain_full {cs fl} : Plain (.full cs fl) ↔ ∀ i, (cs i).cache.1 = none ∧ Plain (cs i) := Iff.rfl

/-- Whether a lookup answers with the encoding of the tree: a flushed node is encoded as it is in
memory, with its keys digit by digit. -/
def Intact (db : Database) (h : Hash) : Prop :=
  passesFlushed db h = true ∨ ∀ n, db.flushedHashCache.bind (·.lookup h) = some n → Plain n

/-- A key is its own compact form exactly if it is a zero and one more digit. -/
theorem map_byteOf_eq_iff (k : List Nibble) :
    k.map byteOf = hexToCompact k ↔ ∃ d ≠ terminator, k = [0, d] := by
  have hpair : ∀ x y : Nibble, [x, y].map byteOf = hexToCompact [x, y] ↔ x = 0 ∧ y ≠ terminator := by decide
  have hone : ∀ x : Nibble, [x].map byteOf ≠ hexToCompact [x] := by decide
  match k with
  | [] => exact ⟨fun h => absurd h (by decide), fun ⟨_, _, h⟩ => by cases h⟩
  | [x] => exact ⟨fun h => absurd h (hone x), fun ⟨_, _, h⟩ => by cases h⟩
  | [x, y] =>
    rw [hpair]
    constructor
    · rintro ⟨rfl, hy⟩
      exact ⟨y, hy, rfl⟩
    · rintro ⟨d, hd, h⟩
      cases h
      exact ⟨rfl, hd⟩
  | x :: y :: z :: r =>
    refine ⟨fun h => ?_, fun ⟨_, _, h⟩ => by cases h⟩
    have hlen := congrArg length h
    have hle : (hexToCompact (x :: y :: z :: r)).length ≤ (x :: y :: z :: r).length / 2 + 1 := by
      rw [hexToCompact]
      split
      · refine (compactOf_length_le _ _).trans ?_
        rw [length_dropLast]
        omega
      · exact compactOf_length_le _ _
    rw [length_map] at hlen
    simp only [length_cons] at hlen hle
    omega

theorem item_of_isBranch {n : Node} (h : isBranch n = true) : ∃ items, (simplifyNode n).item = .list items := by
  cases n with
  | nil => cases h
  | value v => cases h
  | hash _ => cases h
  | short k v fl =>
    rw [simplifyNode]
    cases simplifyNode v <;> exact ⟨_, rfl⟩
  | full cs fl => exact ⟨_, rfl⟩

section

variable {I : Patricia → Prop} {f b : Bool} {n : Node} {t : Patricia}

/-- Inside of another node, a node that has a hash of its own is encoded in the wrong place. -/
theorem child_item_iff (h : Rep C I false true n t)
    (hself : isBranch n = true → ((simplifyNode n).item = item C t ↔ Plain n)) :
    (simplifyNode n).item = refItem C (item C t) ↔ n.cache.1 = none ∧ Plain n := by
  have hinner (fl : NodeFlag) (hfl : FlagOk C I false true fl t) (hi : isInner t = true)
      (hcache : n.cache.1 = fl.hash) (hbranch : isBranch n = true) :
      (simplifyNode n).item = refItem C (item C t) ↔ n.cache.1 = none ∧ Plain n := by
    rw [hcache, refItem_item, embeds, hi]
    cases hhash : fl.hash with
    | none =>
      obtain ⟨-, hsize⟩ := hfl.noted rfl hhash
      rw [if_pos (by simpa using hsize), hself hbranch]
      simp
    | some h =>
      have hsize := (hfl.hash h hhash).2.resolve_left Bool.false_ne_true
      obtain ⟨items, hitems⟩ := item_of_isBranch hbranch
      rw [if_neg (by simpa using hsize), hitems]
      simp
  cases h with
  | nil => exact iff_of_true rfl ⟨rfl, trivial⟩
  | value v => exact iff_of_true rfl ⟨rfl, trivial⟩
  | hash hi hf _ =>
    have hsize := hf.resolve_left Bool.false_ne_true
    refine iff_of_true ?_ ⟨rfl, trivial⟩
    rw [refItem_item, embeds, hi, if_neg (by simpa using hsize)]
    rfl
  | short _ hfl => exact hinner _ hfl rfl rfl rfl
  | full _ hfl => exact hinner _ hfl rfl rfl rfl

theorem simplifyNode_item_iff (h : Rep C I f b n t) (hb : b = true) (ht : TypedOrValue t) (hp : t.Proper)
    (hbranch : isBranch n = true) : (simplifyNode n).item = item C t ↔ Plain n := by
  induction h with
  | nil => cases hbranch
  | value v => cases hbranch
  | hash => cases hbranch
  | @short f b k v c fl hv hfl ih =>
    subst hb
    have ht := ht.resolve_left (by simp [RadixTree.isValue])
    have hval : simplifyNode v ≠ .nil := by
      cases hv with
      | nil => exact absurd rfl hp.2.1
      | _ => simp [simplifyNode]
    rw [simplifyNode, short_item hval, Merkle.item, plain_short, ← map_byteOf_eq_iff,
      ← child_item_iff hv (ih rfl (typedOrValue_below ht) hp.2.2)]
    simp
  | @full f b cs ts fl hcs hfl ih =>
    subst hb
    have ht := ht.resolve_left (by simp [RadixTree.isValue])
    have hchild (i : Nibble) := child_item_iff (hcs i) (ih i rfl (typedOrValue_child ht i) (hp i))
    have hraw : (simplifyNode (.full cs fl)).item =
        .list ((finRange 17).map fun i => (simplifyNode (cs i)).item) := rfl
    rw [hraw, item_full ht, plain_full, Item.list.injEq, map_inj_left]
    simp only [mem_finRange, true_implies, hchild]

/-- Encodings of the same length are compared item by item. -/
theorem simplifyNode_encode_iff (h : Rep C I f true n t) (ht : Storable t) (hp : t.Proper)
    (hbranch : isBranch n = true) : encode (simplifyNode n).item = encode (item C t) ↔ Plain n := by
  rw [← simplifyNode_item_iff (C := C) h rfl (.inr ht.typed) hp hbranch]
  refine ⟨fun heq => ?_, congrArg encode⟩
  have hsize := size_lt (C := C) ht.typed ht.sized
  have hsize' : (encode (simplifyNode n).item).length < 2 ^ 64 := heq ▸ hsize
  exact (encode_append_inj _ _ [] [] hsize' hsize (by rw [heq])).1

end

theorem available_member (hdb : Consistent C (Member C S) db) {h : Hash}
    (havail : db.inMemory h = true ∨ (db.disk.lookup h).isSome = true) :
    ∃ t, Member C S t ∧ isInner t = true ∧ h = hashOf C t := by
  rw [Database.inMemory, Bool.or_eq_true, Bool.or_eq_true] at havail
  rcases havail with ((hcl | hfl) | hdi) | hdisk
  · obtain ⟨enc, henc⟩ := isSome_iff_exists.mp hcl
    obtain ⟨t, ht, hi, hh, -⟩ := (hdb.cleans h enc henc).1
    exact ⟨t, ht, hi, hh⟩
  · obtain ⟨n, hn⟩ := isSome_iff_exists.mp hfl
    obtain ⟨d, hd, hn⟩ := bind_eq_some_iff.mp hn
    obtain ⟨t, ht, hi, hh, -⟩ := hdb.flushed d hd h n hn
    exact ⟨t, ht, hi, hh⟩
  · obtain ⟨c, hc⟩ := isSome_iff_exists.mp hdi
    obtain ⟨-, -, t, ht, hi, hh, -⟩ := hdb.dirties _ (mem_of_lookup hc)
    exact ⟨t, ht, hi, hh⟩
  obtain ⟨enc, henc⟩ := isSome_iff_exists.mp hdisk
  obtain ⟨t, ht, hi, hh, -⟩ := hdb.disk h enc henc
  exact ⟨t, ht, hi, hh⟩

theorem encodedNode_spec (hC : Ideal C S) (hdb : Consistent C (Member C S) db) {t}
    (ht : Member C S t) (hi : isInner t = true)
    (havail : db.inMemory (hashOf C t) = true ∨ (db.disk.lookup (hashOf C t)).isSome = true) :
    ∃ b, db.encodedNode (hashOf C t) = some b ∧ (Intact db (hashOf C t) ↔ b = encode (item C t)) := by
  rw [Database.encodedNode, if_neg (hC.hashOf_ne ht.inPlay hi).1, Intact, passesFlushed]
  rw [Database.inMemory] at havail
  cases hcl : db.cleans.bind (·.lookup (hashOf C t)) with
  | some enc =>
    obtain rfl := (hdb.cleans _ _ hcl).1.elim hC ht hi
    exact ⟨_, rfl, by simp⟩
  | none =>
    cases hfl : db.flushedHashCache.bind (·.lookup (hashOf C t)) with
    | some n =>
      obtain ⟨d, hd, hn⟩ := bind_eq_some_iff.mp hfl
      obtain ⟨hbranch, hrep⟩ := (hdb.flushed d hd _ n hn).elim hC ht hi
      refine ⟨encode (simplifyNode n).item, rfl, ?_⟩
      rw [simplifyNode_encode_iff hrep ht.inPlay.storable ht.canon.proper hbranch]
      simp
    | none =>
      cases hdi : db.dirties.lookup (hashOf C t) with
      | some c =>
        have hraw := (hdb.dirties _ (mem_of_lookup hdi)).2.2.elim hC ht hi
        exact ⟨_, rfl, by simp [ht.rlp hraw]⟩
      | none =>
        rw [hcl, hfl, hdi] at havail
        obtain ⟨enc, henc⟩ := isSome_iff_exists.mp (havail.resolve_left (by simp))
        obtain rfl := (hdb.disk _ _ henc).elim hC ht hi
        have hpos : (encode (item C t)).length ≠ 0 :=
          fun hzero => encode_ne_nil _ (length_eq_zero_iff.mp hzero)
        rw [henc]
        exact ⟨_, if_pos hpos, by simp⟩

end

section

variable {ι : Type} [DecidableEq ι] {t : Patricia} {m : Contents} {n n' : Node} {h : Hash} {db' : Database}

/-- Calls on open tries that share a database, and on the database. A trie is opened at the root
that another one has. What a commit leaves to be inserted is inserted node by node. -/
inductive Call (ι : Type) where
  | newTrie (i j : ι)
  | tryUpdate (i : ι) (key value : Bytes)
  | tryDelete (i : ι) (key : Bytes)
  | tryGet (i : ι) (key : Bytes)
  | hash (i : ι)
  | commit (i : ι)
  | insertNext (k : ℕ)
  | flushHashCache
  | cap (limit : ℤ)
  | commitRoot (root : Hash)
  | lookup (h : Hash)
  | evict (h : Hash)

def Call.InMemory : Call ι → Prop
  | .tryUpdate _ key value => (Op.tryUpdate key value).InMemory
  | _ => True

/-- The database with the open tries. No call reads `trees`, the trees that the tries stand for. -/
structure Shared (ι : Type) where
  db : Database
  tries : ι → Node
  queued : List Leaf
  trees : ι → Patricia

def Shared.new (cached : Bool) : Shared ι where
  db := newDatabase ∅ (if cached then some ∅ else none)
  tries _ := .nil
  queued := []
  trees _ := .nil

def Shared.place (s : Shared ι) (i : ι) (t : Patricia) : Except TrieError Node → Shared ι
  | .error _ => s
  | .ok n => { s with tries := update s.tries i n, trees := update s.trees i t }

def Shared.step (C : Crypto) (s : Shared ι) : Call ι → Shared ι
  | .newTrie i j =>
    match hashTrie C s.db (s.tries j) with
    | .error _ => s
    | .ok (root, _, _) => s.place i (s.trees j) (newTrie s.db root)
  | .tryUpdate i key value =>
    s.place i (updateTree key value (s.trees i)) (tryUpdate s.db (s.tries i) key value)
  | .tryDelete i key => s.place i (deleteTree key (s.trees i)) (tryDelete s.db (s.tries i) key)
  | .tryGet i key => s.place i (s.trees i) ((tryGetKey s.db (s.tries i) key).map Prod.snd)
  | .hash i =>
    match hashTrie C s.db (s.tries i) with
    | .error _ => s
    | .ok (_, n, db) => { s with db, tries := update s.tries i n }
  | .commit i =>
    match commitNodes C s.db (s.tries i) with
    | .error _ => s
    | .ok (_, n, leaves, db) =>
      { s with db, tries := update s.tries i n, queued := s.queued ++ leaves }
  | .insertNext k =>
    match s.queued[k]? with
    | none => s
    | some l => { s with db := s.db.insert l.hash l.size l.node, queued := s.queued.eraseIdx k }
  | .flushHashCache => { s with db := s.db.flushHashCache }
  | .cap limit => { s with db := s.db.cap limit }
  | .commitRoot root =>
    match s.db.commit root with
    | none => s
    | some db => { s with db }
  | .lookup h => { s with db := s.db.remember h }
  | .evict h => { s with db := s.db.evict h }

def runCalls (C : Crypto) (cached : Bool) (calls : List (Call ι)) : Shared ι :=
  calls.foldl (Shared.step C) (.new cached)

/-- The encodings of the nodes of all trees along a run. -/
def encoded (C : Crypto) (cached : Bool) (calls : List (Call ι)) : Set Bytes :=
  { b | ∃ part, part <+: calls ∧ ∃ i, b ∈ encodings C ((runCalls C cached part).trees i) }

/-- Database and tries stand for the trees. -/
structure Serving (C : Crypto) (S : Set Bytes) (s : Shared ι) : Prop where
  db : Consistent C (Member C S) s.db
  tries : ∀ i, Rep C (Member C S) true false (s.tries i) (s.trees i)
  models : ∀ i, ∃ m, Models (s.trees i) m
  queued : ∀ l ∈ s.queued, ∃ t, Member C S t ∧ isInner t = true ∧ l.hash = hashOf C t ∧
    l.node = rawOf C t

omit [DecidableEq ι] in
theorem serving_new (cached : Bool) : Serving C S (Shared.new cached : Shared ι) := by
  refine ⟨⟨fun h enc hl => ?_, fun h enc hl => ?_, fun e he => (by cases he), cacheOk_empty,
    fun d hd => (by cases hd)⟩, fun _ => .nil, fun _ => ⟨_, models_nil⟩, fun l hl => (by cases hl)⟩
  · simp [Shared.new, newDatabase] at hl
  · cases cached <;> simp [Shared.new, newDatabase] at hl

theorem member_within {t'} (hm : Models t m) (ht : encodings C t ⊆ S)
    (hw : t'.Within t) (hi : isInner t' = true) : Member C S t' := by
  obtain rfl | hcanon := hm.canon
  · cases hw
    cases hi
  · exact (Member.mk ⟨hm.storable, ht⟩ hcanon).within hw hi

theorem hashTrie_cache (hh : hashTrie C db n = .ok (h, n', db')) : db' = { db with dirtyHashCache := (hashRoot C db n).2.2 } := by
  rw [hashTrie] at hh
  split at hh
  next hr =>
    cases hh
    rw [hr]
  next => cases hh

theorem commitNodes_cache {leaves}
    (hh : commitNodes C db n = .ok (h, n', leaves, db')) : db' = { db with dirtyHashCache := (hashRoot C db n).2.2 } := by
  by_cases hn : n = .nil
  · subst hn
    cases hh
    rfl
  rw [commitNodes_of_ne_nil hn] at hh
  obtain ⟨⟨h₁, n₁, db₁⟩, hhash, hh⟩ := bind_eq_ok.mp hh
  rw [← hashTrie_cache hhash]
  dsimp only at hh
  split at hh
  · split at hh
    · cases hh
      rfl
    · cases hh
    · cases hh
  cases hh
  rfl

theorem cacheOk_hashRoot (hdb : Consistent C (Member C S) db)
    (h : Rep C (Member C S) true false n t) (hm : Models t m) (ht : encodings C t ⊆ S) :
    CacheOk C (Member C S) (hashRoot C db n).2.2 := by
  have hcache : CacheOk C (Member C S) (Hasher.hash C n true db.dirtyHashCache).2.2 :=
    cacheOk_hash h (.inr hm.typed) hm.proper (fun t' hw hi => member_within hm ht hw hi) hdb.hashed
  cases n with
  | nil => exact hdb.hashed
  | value v => exact hcache
  | hash h => exact hcache
  | short k v fl => exact hcache
  | full cs fl => exact hcache

theorem of_missed {α : Type} {x : Except TrieError α} {p : α → Prop}
    (h : Missed True x ∨ ∃ a, x = .ok a ∧ p a) {a : α} (ha : x = .ok a) : p a := by
  obtain ⟨-, h, path, hx⟩ | ⟨a', hx, hp⟩ := h
  · rw [hx] at ha
    cases ha
  obtain rfl := Except.ok.inj (hx.symm.trans ha)
  exact hp

section

variable {s : Shared ι} (hC : Ideal C S) (hs : Serving C S s) {i : ι}

theorem Serving.place (hs : Serving C S s) {t} {x}
    (hx : ∀ n, x = .ok n → Rep C (Member C S) true false n t) (hm : ∃ m, Models t m) :
    Serving C S (s.place i t x) := by
  cases x with
  | error e => exact hs
  | ok n =>
    refine ⟨hs.db, fun j => ?_, fun j => ?_, hs.queued⟩
    · by_cases hj : j = i
      · subst hj
        simpa only [Shared.place, update_self] using hx n rfl
      · simpa only [Shared.place, update_of_ne hj] using hs.tries j
    by_cases hj : j = i
    · subst hj
      simpa only [Shared.place, update_self] using hm
    · simpa only [Shared.place, update_of_ne hj] using hs.models j

theorem Serving.replace (hs : Serving C S s) {db} (hdb : Consistent C (Member C S) db) {n : Node} (hn : Rep C (Member C S) true false n (s.trees i)) {queued}
    (hq : ∀ l ∈ queued, ∃ t, Member C S t ∧ isInner t = true ∧ l.hash = hashOf C t ∧
      l.node = rawOf C t) : Serving C S { s with db, tries := update s.tries i n, queued } := by
  refine ⟨hdb, fun j => ?_, hs.models, hq⟩
  by_cases hj : j = i
  · subst hj
    simpa only [update_self] using hn
  · simpa only [update_of_ne hj] using hs.tries j

omit [DecidableEq ι] in
theorem Serving.setDb (hs : Serving C S s) {db} (hdb : Consistent C (Member C S) db) :
    Serving C S { s with db } :=
  ⟨hdb, hs.tries, hs.models, hs.queued⟩

include hC hs

/-- Every call keeps database and tries in line with the trees. -/
theorem serving_step (hplay : ∀ i, encodings C (s.trees i) ⊆ S) {call : Call ι}
    (hmem : call.InMemory) : Serving C S (s.step C call) := by
  have hanswers := hs.db.answers hC
  cases call with
  | newTrie i j =>
    obtain ⟨m, hm⟩ := hs.models j
    obtain ⟨n, d, hhash, -⟩ := hashTrie_spec s.db (hs.tries j) hm.typed hm.proper
    rw [Shared.step, hhash]
    refine hs.place (fun n hn => ?_) ⟨m, hm⟩
    have hplace : InPlay C S (s.trees j) := ⟨hm.storable, hplay j⟩
    exact of_missed (newTrie_spec hC hanswers hplace (hm.canon.imp_right (Member.mk hplace))) hn
  | tryUpdate i key value =>
    obtain ⟨m, hm⟩ := hs.models i
    exact hs.place (fun n hn => of_missed (tryUpdate_spec hanswers (hs.tries i) hm key value) hn)
      ⟨_, models_update hm hmem⟩
  | tryDelete i key =>
    obtain ⟨m, hm⟩ := hs.models i
    exact hs.place (fun n hn => of_missed (tryDelete_spec hanswers (hs.tries i) hm key) hn)
      ⟨_, models_delete hm key⟩
  | tryGet i key =>
    obtain ⟨m, hm⟩ := hs.models i
    refine hs.place (fun n hn => ?_) ⟨m, hm⟩
    obtain ⟨-, h, path, hx⟩ | ⟨n', hx, hrep⟩ := tryGetKey_spec hanswers (hs.tries i) hm key
    · rw [hx] at hn
      cases hn
    rw [hx] at hn
    cases hn
    exact hrep
  | hash i =>
    obtain ⟨m, hm⟩ := hs.models i
    obtain ⟨n, d, hhash, hrep⟩ := hashTrie_spec s.db (hs.tries i) hm.typed hm.proper
    rw [Shared.step, hhash]
    refine hs.replace ?_ hrep.plain hs.queued
    rw [hashTrie_cache hhash]
    exact consistent_hashCache hs.db (cacheOk_hashRoot hs.db (hs.tries i) hm (hplay i))
  | commit i =>
    obtain ⟨m, hm⟩ := hs.models i
    obtain ⟨n, leaves, d, hcommit, hhanded, hroot⟩ :=
      commitNodes_spec s.db closed_member (hs.tries i) hm.typed hm.canon
    rw [Shared.step, hcommit]
    have hmember {t' : Patricia} (hw : t'.Within (s.trees i)) (hi : isInner t' = true) :
        Member C S t' := member_within hm (hplay i) hw hi
    refine hs.replace ?_ ?_ fun l hl => ?_
    · rw [commitNodes_cache hcommit]
      exact consistent_hashCache hs.db (cacheOk_hashRoot hs.db (hs.tries i) hm (hplay i))
    · obtain ⟨hi, rfl⟩ | ⟨_, hrep⟩ := hroot
      · exact .hash hi (.inl rfl) (hmember (RadixTree.within_self _) hi)
      · exact hrep
    obtain hl | hl := mem_append.mp hl
    · exact hs.queued l hl
    obtain ⟨t', hw, hi, hh, hn⟩ := hhanded.sound l hl
    exact ⟨t', hmember hw hi, hi, hh, hn⟩
  | insertNext k =>
    rw [Shared.step]
    split
    · exact hs
    next l hl =>
      obtain ⟨t, ht, hi, hh, hn⟩ := hs.queued l (mem_of_getElem? hl)
      refine ⟨?_, hs.tries, hs.models, fun l' hl' => hs.queued l' (mem_of_mem_eraseIdx hl')⟩
      dsimp only
      rw [hh, hn]
      exact consistent_insert hs.db ht hi l.size
  | flushHashCache => exact hs.setDb (consistent_flush hs.db)
  | cap limit => exact hs.setDb (consistent_cap hs.db limit)
  | commitRoot root =>
    rw [Shared.step]
    split
    · exact hs
    next db hdb => exact hs.setDb (consistent_commit hs.db hdb)
  | lookup h => exact hs.setDb (consistent_remember hs.db h)
  | evict h => exact hs.setDb (consistent_evict hs.db h)

end

theorem serving_run {cached : Bool} {calls : List (Call ι)} (hC : Ideal C S)
    (hmem : ∀ call ∈ calls, call.InMemory) (hS : encoded C cached calls ⊆ S) :
    Serving C S (runCalls C cached calls) := by
  induction calls using reverseRecOn with
  | nil => exact serving_new cached
  | append_singleton calls call ih =>
    have hpart : calls <+: calls ++ [call] := prefix_append _ _
    have hs := ih (fun c hc => hmem c (mem_append_left _ hc)) fun b ⟨part, hp, hb⟩ =>
      hS ⟨part, hp.trans hpart, hb⟩
    rw [runCalls, foldl_append]
    exact serving_step hC hs (fun i b hb => hS ⟨calls, hpart, i, hb⟩) (hmem call (by simp))

end

section

variable {ι : Type} [DecidableEq ι]

/-- After any calls, whichever layer has a node, `node` answers with one for the tree that has the
hash. `encodedNode` answers with bytes of that hash exactly if they do not come from the flushed
hash cache, or come from a plain node there; such bytes decode to a node for the same tree. -/
theorem layers_agree_iff (C : Crypto) (S : Set Bytes) (cached : Bool) (calls : List (Call ι))
    (hmem : ∀ call ∈ calls, call.InMemory) (hC : Ideal C S) (hS : encoded C cached calls ⊆ S) (h : Hash)
    (havail : (runCalls C cached calls).db.inMemory h = true ∨
      ((runCalls C cached calls).db.disk.lookup h).isSome = true)
    (hanswer : ∀ b, (runCalls C cached calls).db.encodedNode h = some b → b ∈ S) :
    ∃ t n b, h = hashOf C t ∧ (runCalls C cached calls).db.node h = .ok n ∧
      Rep C (Member C S) true true n t ∧ (runCalls C cached calls).db.encodedNode h = some b ∧
      (C.keccak256 b = h ↔ Intact (runCalls C cached calls).db h) ∧
      (Intact (runCalls C cached calls).db h →
        ∃ n', decodeNode (some h) b = .ok n' ∧ Rep C (Member C S) true true n' t) := by
  have hs := serving_run hC hmem hS
  obtain ⟨t, ht, hi, rfl⟩ := available_member hs.db havail
  obtain ⟨b, hb, hintact⟩ := encodedNode_spec hC hs.db ht hi havail
  obtain ⟨hnot, -⟩ | ⟨-, n, hn, -, hrep⟩ := node_spec hC hs.db ht hi closed_member ht
  · exact absurd ((available_iff hs.db).mpr havail) hnot
  refine ⟨t, n, b, rfl, hn, hrep, hb, ?_, fun hin => ?_⟩
  · rw [hintact]
    refine ⟨fun hhash => ?_, fun heq => by rw [heq]; rfl⟩
    exact hC.injOn (hanswer b hb) (ht.inPlay.encodings (mem_encodings hi)) hhash
  rw [hintact.mp hin]
  exact ⟨_, decodeNode_encode ht.inPlay.storable hi _, member_loaded ht hi⟩

end

section

def leafHash : Hash := hexToHash 0x29d0db50a1b63d3e4eb2c8b06b38db98594dd9e089f77b779ba2fee1833f7735

def leafEncoding : Bytes := [0xe4, 0x82, 0x20, 0x12, 0xa0] ++ longValue

/-- The same with the digits of the key as they are in memory. -/
def digitEncoding : Bytes := [0xe5, 0x83, 1, 2, 0x10, 0xa0] ++ longValue

def leafCrypto : Crypto :=
  Crypto.ofTables [(leafEncoding, leafHash), (digitEncoding,
    hexToHash 0x0ceda96b5e3fd52f4ea52d2f2805ff01b4c94d390b2ecdb9a847ad268078cf74)] []

/-- Between a flush and the insertion, the node is answered with bytes of another hash. -/
theorem flushed_answer_differs :
    let db := (runCalls leafCrypto false
      [Call.tryUpdate () [0x12] longValue, .hash (), .flushHashCache]).db
    db.inMemory leafHash = true ∧ db.encodedNode leafHash = some digitEncoding ∧
      leafCrypto.keccak256 digitEncoding ≠ leafHash := by
  refine ⟨?_, ?_, ?_⟩ <;> decide +kernel

def insertedCalls : List (Call Unit) := [.tryUpdate () [0x12] longValue, .commit (), .insertNext 0]

theorem layers_agree_inserted :
    ∃ t n b, leafHash = hashOf leafCrypto t ∧
      (runCalls leafCrypto false insertedCalls).db.node leafHash = .ok n ∧
      (runCalls leafCrypto false insertedCalls).db.encodedNode leafHash = some b ∧
      (leafCrypto.keccak256 b = leafHash ↔
        Intact (runCalls leafCrypto false insertedCalls).db leafHash) := by
  have hmem : ∀ call ∈ insertedCalls, call.InMemory := by
    simp [insertedCalls, Call.InMemory, Op.InMemory, keybytesToHex_length, longValue]
  have hC : Ideal leafCrypto { b | b ∈ [leafEncoding] } :=
    ideal_of_list (fun b hb => hb) (by decide +kernel)
  have hS : encoded leafCrypto false insertedCalls ⊆ { b | b ∈ [leafEncoding] } := by
    rintro b ⟨part, hpart, i, hb⟩
    have hall : ∀ part ∈ insertedCalls.inits, ∀ b ∈ nodeEncodings leafCrypto
        ((runCalls leafCrypto false part).trees ()), b ∈ [leafEncoding] := by
      decide +kernel
    exact hall part ((mem_inits _ _).mpr hpart) b (mem_nodeEncodings hb)
  have hanswer : (runCalls leafCrypto false insertedCalls).db.encodedNode leafHash = some leafEncoding := by
    decide +kernel
  obtain ⟨t, n, b, ht, hn, -, hb, hiff, -⟩ := layers_agree_iff leafCrypto { b | b ∈ [leafEncoding] }
    false insertedCalls hmem hC hS leafHash (by decide +kernel) (fun b hb => by
      obtain rfl := some.inj (hanswer.symm.trans hb)
      exact mem_singleton.mpr rfl)
  exact ⟨t, n, b, ht, hn, hb, hiff⟩

end

end Geth.Trie.LayerAnswers
