import Geth.Trie.Holding

namespace Geth.Trie.FiniteMap

open Lib.BigEndian Lib.Radix Common.Basic Rlp.Encode Encoding Decode Merkle NodeStore Hasher
open Operations Represents Hashing Holding List Function

/-- A call on a trie. `reload i` opens the trie of the `i`-th root that a
commit has returned. -/
inductive Op where
  | tryUpdate (key value : Bytes)
  | tryDelete (key : Bytes)
  | tryGet (key : Bytes)
  | hash
  | commit
  | reload (i : ℕ)

/-- Keys, as hex digits, and values are Go slices. -/
def Op.InMemory : Op → Prop
  | .tryUpdate key value => (keybytesToHex key).length < 2 ^ 63 ∧ value.length < 2 ^ 63
  | _ => True

structure Session where
  db : Database
  root : Node
  roots : List Hash

def Session.new : Session := ⟨newDatabase ∅ none, .nil, []⟩

def Session.step (C : Crypto) (s : Session) : Op → Except TrieError Session
  | .tryUpdate key value => do
    let root ← tryUpdate s.db s.root key value
    return { s with root }
  | .tryDelete key => do
    let root ← tryDelete s.db s.root key
    return { s with root }
  | .tryGet key => do
    let (_, root) ← tryGetKey s.db s.root key
    return { s with root }
  | .hash => do
    let (_, root, db) ← hashTrie C s.db s.root
    return { s with db, root }
  | .commit => do
    let (h, _, root, db) ← commitTrie C s.db s.root
    return { db, root, roots := s.roots ++ [h] }
  | .reload i =>
    match s.roots[i]? with
    | none => return s
    | some h => do
      let root ← newTrie s.db h
      return { s with root }

def run (C : Crypto) (ops : List Op) : Except TrieError Session :=
  ops.foldlM (Session.step C) Session.new

/-- The contents of a trie and what they were at its commits. -/
structure History (α : Type) where
  now : α
  saved : List α

/-- What a call does to contents, given what updates and deletions do. -/
def History.step {α : Type} (update : Bytes → Bytes → α → α) (delete : Bytes → α → α) (h : History α) :
    Op → History α
  | .tryUpdate key value => { h with now := update key value h.now }
  | .tryDelete key => { h with now := delete key h.now }
  | .commit => { h with saved := h.saved ++ [h.now] }
  | .reload i => { h with now := h.saved[i]?.getD h.now }
  | _ => h

abbrev Contents := Bytes → Option Bytes

def updateMap (key value : Bytes) (m : Contents) : Contents :=
  Function.update m key (if value = [] then none else some value)

def deleteMap (key : Bytes) (m : Contents) : Contents := Function.update m key none

def maps (ops : List Op) : History Contents :=
  ops.foldl (History.step updateMap deleteMap) ⟨fun _ => none, []⟩

/-- The finite map that a sequence of calls leaves. -/
def contents (ops : List Op) : Contents := (maps ops).now

def deleteTree (key : Bytes) (t : Patricia) : Patricia := t.delete (keybytesToHex key)

def updateTree (key value : Bytes) (t : Patricia) : Patricia :=
  if value = [] then deleteTree key t else t.insert (keybytesToHex key) value

def trees (ops : List Op) : History Patricia :=
  ops.foldl (History.step updateTree deleteTree) ⟨.nil, []⟩

structure Models (t : Patricia) (m : Contents) : Prop where
  canon : t = .nil ∨ t.Canon
  typed : t.Typed terminator
  get : ∀ key, t.get (keybytesToHex key) = m key
  entries : ∀ k v, t.get k = some v →
    (∃ key, k = keybytesToHex key) ∧ k.length < 2 ^ 63 ∧ v.length < 2 ^ 63 ∧ v ≠ []

theorem models_nil : Models .nil fun _ => none :=
  ⟨.inl rfl, trivial, fun key => RadixTree.get_nil _, fun k v h => by simp at h⟩

variable {t : Patricia} {m : Contents}

theorem Models.fits (h : Models t m) (key : Bytes) : t.Fits terminator (keybytesToHex key) :=
  .of_terminated (terminated_keybytesToHex key) h.typed

theorem models_delete (h : Models t m) (key : Bytes) : Models (deleteTree key t) (deleteMap key m) := by
  have hfit := h.fits key
  refine ⟨RadixTree.canon_delete hfit h.canon, ?_, fun key' => ?_, fun k v hk => ?_⟩
  · exact ((RadixTree.fits_delete hfit).typed (terminated_keybytesToHex key).ne_nil).2
  · rw [deleteTree, RadixTree.get_delete hfit, deleteMap, update_apply, h.get]
    by_cases hkey : key' = key
    · rw [if_pos hkey, if_pos (by rw [hkey])]
    · rw [if_neg hkey, if_neg (fun he => hkey (keybytesToHex_injective he))]
  rw [deleteTree, RadixTree.get_delete hfit] at hk
  split at hk
  · cases hk
  · exact h.entries k v hk

theorem models_update (h : Models t m) {key value} (hmem : (Op.tryUpdate key value).InMemory) :
    Models (updateTree key value t) (updateMap key value m) := by
  rw [updateTree, updateMap]
  by_cases hv : value = []
  · rw [if_pos hv, if_pos hv]
    exact models_delete h key
  have hfit := h.fits key
  rw [if_neg hv, if_neg hv]
  refine ⟨.inr (RadixTree.canon_insert hfit h.canon value), ?_, fun key' => ?_, fun k v hk => ?_⟩
  · exact ((RadixTree.fits_insert hfit value).typed (terminated_keybytesToHex key).ne_nil).2
  · rw [RadixTree.get_insert hfit, update_apply, h.get]
    by_cases hkey : key' = key
    · rw [if_pos hkey, if_pos (by rw [hkey])]
    · rw [if_neg hkey, if_neg (fun he => hkey (keybytesToHex_injective he))]
  rw [RadixTree.get_insert hfit] at hk
  split at hk
  · next hkey =>
    cases hk
    subst k
    exact ⟨⟨key, rfl⟩, hmem.1, hmem.2, hv⟩
  · exact h.entries k v hk

theorem sized_filled_of_entries (hc : t.Canon)
    (h : ∀ k v, t.get k = some v → k.length < 2 ^ 63 ∧ v.length < 2 ^ 63 ∧ v ≠ []) :
    Sized t ∧ Filled t := by
  induction t with
  | nil => exact hc.elim
  | value v =>
    have hv := h [] v (by simp [RadixTree.get])
    exact ⟨hv.2.1, hv.2.2⟩
  | short k c ih =>
    have hbelow (r : List Nibble) (v : Bytes) (hr : c.get r = some v) :
        k.length + r.length < 2 ^ 63 ∧ v.length < 2 ^ 63 ∧ v ≠ [] := by
      rw [← length_append]
      exact h (k ++ r) v (by rwa [RadixTree.get_short_append])
    obtain ⟨r, v, hr⟩ := hc.2.1.exists_get
    have hlen := (hbelow r v hr).1
    obtain ⟨hs, hf⟩ := ih hc.2.1 fun r v hr =>
      ⟨by have := (hbelow r v hr).1; omega, (hbelow r v hr).2⟩
    exact ⟨⟨by omega, hs⟩, hf⟩
  | full cs ih =>
    have hchild (i : Nibble) : Sized (cs i) ∧ Filled (cs i) := by
      obtain hn | hci := hc.1 i
      · rw [hn]
        exact ⟨trivial, trivial⟩
      apply ih i hci
      intro r v hr
      have hir := h (i :: r) v (by rwa [RadixTree.get_full_cons])
      rw [length_cons] at hir
      exact ⟨by omega, hir.2⟩
    exact ⟨fun i => (hchild i).1, fun i => (hchild i).2⟩

theorem Models.storable (h : Models t m) : Storable t := by
  obtain rfl | hc := h.canon
  · exact storable_nil
  obtain ⟨hs, hf⟩ := sized_filled_of_entries hc fun k v hk => (h.entries k v hk).2
  exact ⟨h.typed, hs, hf⟩

/-- Contents determine the tree. -/
theorem Models.unique {t'} (h : Models t m) (h' : Models t' m) : t = t' := by
  apply RadixTree.canon_ext_or_nil h.canon h'.canon
  have hone {t t' : Patricia} (h : Models t m) (h' : Models t' m) {k : List Nibble} {v : Bytes}
      (hk : t.get k = some v) : t'.get k = some v := by
    obtain ⟨⟨key, rfl⟩, _⟩ := h.entries k v hk
    rw [h'.get, ← h.get, hk]
  intro k
  cases hk : t.get k with
  | some v => exact (hone h h' hk).symm
  | none =>
    cases hk' : t'.get k with
    | none => rfl
    | some v =>
      rw [hone h' h hk'] at hk
      cases hk

theorem isInner_of_typed (h : t.Typed terminator) (hne : t ≠ .nil) : isInner t = true := by
  cases t with
  | nil => exact (hne rfl).elim
  | value v => exact h.elim
  | short k c => rfl
  | full cs => rfl

structure Related {α β : Type} (R : α → β → Prop) (h : History α) (h' : History β) : Prop where
  now : R h.now h'.now
  saved : List.Forall₂ R h.saved h'.saved

theorem forall₂_getD {α β : Type} {R} {l} {l'}
    (h : List.Forall₂ R l l') {a : α} {b : β} (hab : R a b) (i : ℕ) : R (l[i]?.getD a) (l'[i]?.getD b) := by
  induction h generalizing i with
  | nil => exact hab
  | cons hxy _ ih =>
    cases i with
    | zero => exact hxy
    | succ i => exact ih i

theorem related_step {α β : Type} {R : α → β → Prop} {update : Bytes → Bytes → α → α}
    {delete : Bytes → α → α} {update' : Bytes → Bytes → β → β} {delete' : Bytes → β → β} {op : Op}
    (hupdate : ∀ key value a b, op = .tryUpdate key value → R a b → R (update key value a) (update' key value b))
    (hdelete : ∀ key a b, R a b → R (delete key a) (delete' key b)) {h : History α} {h' : History β}
    (hr : Related R h h') : Related R (h.step update delete op) (h'.step update' delete' op) := by
  cases op with
  | tryUpdate key value => exact ⟨hupdate key value _ _ rfl hr.now, hr.saved⟩
  | tryDelete key => exact ⟨hdelete key _ _ hr.now, hr.saved⟩
  | tryGet key => exact hr
  | hash => exact hr
  | commit => exact ⟨hr.now, rel_append hr.saved (.cons hr.now .nil)⟩
  | reload i => exact ⟨forall₂_getD hr.saved hr.now i, hr.saved⟩

/-- What the hash is assumed to do on the encodings in play: no two of them
have the same hash, and none has that of the meta root or of the empty trie. -/
structure Ideal (C : Crypto) (S : Set Bytes) : Prop where
  injOn : Set.InjOn C.keccak256 S
  ne_zero : ∀ b ∈ S, C.keccak256 b ≠ zeros 32
  ne_emptyRoot : ∀ b ∈ S, C.keccak256 b ≠ emptyRoot

/-- A tree that can be stored, with its nodes among the encodings in play. -/
structure InPlay (C : Crypto) (S : Set Bytes) (t : Patricia) : Prop where
  storable : Storable t
  encodings : encodings C t ⊆ S

def rootHash (C : Crypto) (t : Patricia) : Hash := if isInner t = true then hashOf C t else emptyRoot

section

variable {C : Crypto} {S : Set Bytes} {db : Database} {P : Patricia → Prop} {b : Bool}

variable {t : Patricia} {n : Node}

theorem rootHash_inner (h : isInner t = true) : rootHash C t = hashOf C t := if_pos h

theorem InPlay.within {t'} (h : InPlay C S t) (hw : t'.Within t) (hi : isInner t' = true) :
    InPlay C S t' := by
  refine ⟨storable_of_within h.storable hw hi, ?_⟩
  rintro b ⟨t'', hw', hi', rfl⟩
  exact h.encodings ⟨t'', hw'.trans hw, hi', rfl⟩

theorem InPlay.mono {S'} (h : InPlay C S t) (hS : S ⊆ S') : InPlay C S' t :=
  ⟨h.storable, h.encodings.trans hS⟩

theorem Ideal.hashOf_ne (hC : Ideal C S) (h : InPlay C S t) (hi : isInner t = true) :
    hashOf C t ≠ zeros 32 ∧ hashOf C t ≠ emptyRoot :=
  ⟨hC.ne_zero _ (h.encodings (mem_encodings hi)), hC.ne_emptyRoot _ (h.encodings (mem_encodings hi))⟩

theorem inDirties_of_lookup (hC : Ideal C S) (hdb : Kept C (InPlay C S) db)
    (ht : InPlay C S t) (hi : isInner t = true) {c}
    (hc : db.dirties.lookup (hashOf C t) = some c) : InDirties C db t := by
  obtain ⟨_, t', ht', hi', hh, hn⟩ := hdb.entries _ (mem_of_lookup hc)
  have heq := hashOf_inj hC.injOn ht.storable ht'.storable ht.encodings ht'.encodings hi hi' hh
  exact ⟨c, hc, by rw [heq]; exact hn⟩

theorem newTrie_spec (hC : Ideal C S) {miss : Prop}
    (hdb : Answers C P miss db) (ht : InPlay C S t) (hP : t = .nil ∨ P t) :
    Missed miss (newTrie db (rootHash C t)) ∨
      ∃ n, newTrie db (rootHash C t) = .ok n ∧ Rep C P true false n t := by
  by_cases hnil : t = .nil
  · subst t
    refine .inr ⟨.nil, ?_, .nil⟩
    rw [newTrie, if_neg]
    rintro ⟨_, hne⟩
    exact hne rfl
  have hi := isInner_of_typed ht.storable.typed hnil
  rw [newTrie, rootHash_inner hi, if_pos (hC.hashOf_ne ht hi)]
  obtain hmiss | ⟨n, hn, _, hrep⟩ := resolveHash_spec hdb hi (.inl rfl) (hP.resolve_left hnil) []
  · exact .inl hmiss
  · exact .inr ⟨n, hn, hrep.plain⟩

theorem isInner_of_rep {f : Bool} (h : Rep C P f b n t)
    (ht : t.Typed terminator) (hn : n ≠ .nil) : isInner t = true := by
  apply isInner_of_typed ht
  rintro rfl
  cases h with
  | nil => exact hn rfl
  | hash hi _ _ => cases hi

theorem hashRoot_spec (db : Database) (h : Rep C P true b n t) (ht : t.Typed terminator) (hp : t.Proper) :
    (hashRoot C db n).1 = .hashNode (rootHash C t) ∧ Rep C P true true (hashRoot C db n).2.1 t := by
  by_cases hn : n = .nil
  · subst n
    cases h with
    | nil => exact ⟨rfl, .nil⟩
  have hroot : hashRoot C db n = Hasher.hash C n true db.dirtyHashCache := by
    cases n with
    | nil => exact (hn rfl).elim
    | value v => rfl
    | hash h => rfl
    | short k v fl => rfl
    | full cs fl => rfl
  have hi := isInner_of_rep h ht hn
  obtain ⟨hh, hrep⟩ := hash_spec h (.inr ht) hp db.dirtyHashCache
  rw [hroot]
  refine ⟨?_, hrep⟩
  rw [hh, reference, if_pos ⟨hi, .inl rfl⟩, rootHash_inner hi]

theorem hashTrie_spec (db : Database) (h : Rep C P true b n t) (ht : t.Typed terminator) (hp : t.Proper) :
    ∃ n' d, hashTrie C db n = .ok (rootHash C t, n', { db with dirtyHashCache := d }) ∧
      Rep C P true true n' t := by
  obtain ⟨hh, hrep⟩ := hashRoot_spec db h ht hp
  refine ⟨(hashRoot C db n).2.1, (hashRoot C db n).2.2, ?_, hrep⟩
  rw [hashTrie]
  generalize hashRoot C db n = r at hh
  obtain ⟨hashed, n', d⟩ := r
  obtain rfl := hh
  rfl

theorem held_commitLoop (hC : Ideal C S) (hdb : Kept C (InPlay C S) db) (ht : InPlay C S t)
    {leaves} (hl : Handed C (Held C db) true t leaves) :
    Kept C (InPlay C S) (commitLoop db leaves) ∧ Held C (commitLoop db leaves) t := by
  have hkept : Kept C (InPlay C S) (commitLoop db leaves) := by
    apply hdb.commitLoop
    intro l hmem
    obtain ⟨t', hw, hi, hh, hn⟩ := hl.sound l hmem
    exact ⟨t', ht.within hw hi, hi, hh, hn⟩
  refine ⟨hkept, ht.storable, fun t' hw hi hlarge => ?_⟩
  obtain hheld | ⟨l, hmem, hh⟩ := hl.complete t' hw hi (hlarge.imp_right fun h => ⟨rfl, h⟩)
  · have hin := hheld.nodes t' (RadixTree.within_self t') hi (.inr rfl)
    exact hin.mono fun h c hc => commitLoop_lookup hc
  have ht' := ht.within hw hi
  have hne : l.hash ≠ zeros 32 := by
    rw [hh]
    exact (hC.hashOf_ne ht' hi).1
  obtain ⟨c, hc⟩ := commitLoop_lookup_leaf db hmem hne
  rw [hh] at hc
  exact inDirties_of_lookup hC hkept ht' hi hc

theorem held_of_clean (h : Rep C P true b n t) (hclean : n.cache.2 = false) : P t := by
  have hflag {fl : NodeFlag} (hfl : FlagOk C P true b fl t) (hd : fl.dirty = false) : P t := by
    obtain hP | ⟨hf, _⟩ := hfl.clean hd
    · exact hP
    · cases hf
  cases h with
  | nil => cases hclean
  | value v => cases hclean
  | hash _ _ hP => exact hP
  | short _ hfl => exact hflag hfl hclean
  | full _ hfl => exact hflag hfl hclean

theorem commitNodes_of_ne_nil (hn : n ≠ .nil) : commitNodes C db n = (do
      let (rootHash, root, db) ← hashTrie C db n if root.cache.2 then match commit root with
        | .ok (.hash newRoot, leaves) => return (rootHash, .hash newRoot, leaves, db)
        | .ok _ => .error (.panic .explicit) | .error p => .error (.panic p)
      else return (rootHash, root, [], db)) := by
  cases n with
  | nil => exact (hn rfl).elim
  | value v => rfl
  | hash h => rfl
  | short k v fl => rfl
  | full cs fl => rfl

/-- The trie after a commit is the hash of its root, with all that is missing
handed over, or it was clean and there is nothing to insert. -/
theorem commitNodes_spec (db : Database) (hP : Closed C P)
    (h : Rep C P true false n t) (ht : t.Typed terminator) (hc : t = .nil ∨ t.Canon) :
    ∃ n' leaves d, commitNodes C db n = .ok (rootHash C t, n', leaves, { db with dirtyHashCache := d }) ∧
      Handed C P true t leaves ∧
      ((isInner t = true ∧ n' = .hash (hashOf C t)) ∨ ((t = .nil ∨ P t) ∧ Rep C P true false n' t)) := by
  by_cases hn : n = .nil
  · subst n
    cases h with
    | nil => exact ⟨.nil, [], db.dirtyHashCache, rfl, handed_of_not_isInner rfl, .inr ⟨.inl rfl, .nil⟩⟩
  have hi := isInner_of_rep h ht hn
  have hcanon : t.Canon := by
    refine hc.resolve_left ?_
    rintro rfl
    cases hi
  obtain ⟨n', d, hhash, hrep⟩ := hashTrie_spec db h ht hcanon.proper
  rw [commitNodes_of_ne_nil hn, hhash]
  simp only [bind, Except.bind]
  by_cases hdirty : n'.cache.2 = true
  · obtain ⟨leaves, hcommit, hhanded⟩ := commit_spec hP hrep rfl ht hcanon hi
    refine ⟨.hash (hashOf C t), leaves, d, ?_, hhanded, .inl ⟨hi, rfl⟩⟩
    rw [if_pos hdirty, hcommit, rawRef, if_pos (.inl rfl)]
    rfl
  have hheld := held_of_clean hrep (Bool.eq_false_iff.mpr hdirty)
  exact ⟨n', [], d, if_neg hdirty, handed_of_held hP hheld, .inr ⟨.inr hheld, hrep.plain⟩⟩

theorem commitTrie_spec (hC : Ideal C S) (hdb : Kept C (InPlay C S) db)
    (h : Rep C (Held C db) true false n t) (ht : InPlay C S t) (hc : t = .nil ∨ t.Canon) :
    ∃ count n' db', commitTrie C db n = .ok (rootHash C t, count, n', db') ∧ Kept C (InPlay C S) db' ∧
      (∀ h c, db.dirties.lookup h = some c → db'.dirties.lookup h = some c) ∧
      Rep C (Held C db') true false n' t ∧ (t = .nil ∨ Held C db' t) := by
  obtain ⟨n', leaves, d, hnodes, hhanded, hroot⟩ :=
    commitNodes_spec db closed_held h ht.storable.typed hc
  have hmono (h' : Hash) (c : CachedNode) (hl : db.dirties.lookup h' = some c) :
      (commitLoop { db with dirtyHashCache := d } leaves).dirties.lookup h' = some c :=
    commitLoop_lookup hl
  obtain ⟨hkept, hheld⟩ := held_commitLoop hC (hdb.setHashCache d) ht
    ⟨hhanded.sound, fun t' hw hi hl => (hhanded.complete t' hw hi hl).imp_left fun h => h.setHashCache d⟩
  refine ⟨leaves.length, n', commitLoop { db with dirtyHashCache := d } leaves, ?_, hkept, hmono, ?_, .inr hheld⟩
  · rw [commitTrie, hnodes]
    rfl
  obtain ⟨hi, rfl⟩ | ⟨_, hrep⟩ := hroot
  · exact .hash hi (.inl rfl) hheld
  · exact hrep.mono fun t h => h.mono hmono

end

section

variable {C : Crypto} {S : Set Bytes} {P : Patricia → Prop} {db : Database} {s : Session}
    {h : History Patricia}

structure Follows (C : Crypto) (S : Set Bytes) (s : Session) (h : History Patricia) : Prop where
  kept : Kept C (InPlay C S) s.db
  root : Rep C (Held C s.db) true false s.root h.now
  roots : List.Forall₂ (fun r t => r = rootHash C t ∧ (t = .nil ∨ Held C s.db t)) s.roots h.saved

theorem follows_new : Follows C S Session.new ⟨.nil, []⟩ :=
  ⟨⟨rfl, rfl, fun e he => by cases he⟩, .nil, .nil⟩

theorem forall₂_getElem? {α β : Type} {R : α → β → Prop} {l : List α} {l' : List β}
    (h : List.Forall₂ R l l') (i : ℕ) :
    (l[i]? = none ∧ l'[i]? = none) ∨ ∃ a b, l[i]? = some a ∧ l'[i]? = some b ∧ R a b := by
  induction h generalizing i with
  | nil => exact .inl ⟨rfl, rfl⟩
  | cons hxy _ ih =>
    cases i with
    | zero => exact .inr ⟨_, _, rfl, rfl, hxy⟩
    | succ i => exact ih i

variable {t : Patricia} {m : Contents} {miss : Prop} {n : Node} {ops : List Op}

theorem Models.proper (h : Models t m) : t.Proper := by
  obtain rfl | hc := h.canon
  · trivial
  · exact hc.proper

section

variable (hdb : Answers C P miss db)
include hdb

theorem tryDelete_spec (h : Rep C P true false n t) (hm : Models t m) (key : Bytes) :
    Missed miss (tryDelete db n key) ∨
      ∃ n', tryDelete db n key = .ok n' ∧ Rep C P true false n' (deleteTree key t) := by
  rw [tryDelete]
  obtain hmiss | ⟨d, n', hdel, hrep, _, _⟩ :=
    delete_spec hdb h hm.canon (hm.fits key) (steps_le n (keybytesToHex key)) []
  · exact .inl (hmiss.bind _)
  refine .inr ⟨n', ?_, hrep⟩
  rw [hdel]
  rfl

theorem tryUpdate_spec (h : Rep C P true false n t) (hm : Models t m)
    (key value : Bytes) : Missed miss (tryUpdate db n key value) ∨
      ∃ n', tryUpdate db n key value = .ok n' ∧ Rep C P true false n' (updateTree key value t) := by
  rw [tryUpdate, updateTree]
  by_cases hv : value = []
  · rw [if_pos hv, if_neg (by simp [hv])]
    exact tryDelete_spec hdb h hm key
  rw [if_neg hv, if_pos (by simpa using hv)]
  obtain hmiss | ⟨d, n', hins, hrep, _⟩ :=
    insert_spec hdb h hm.proper (hm.fits key) (steps_le n (keybytesToHex key)) [] value
  · exact .inl (hmiss.bind _)
  refine .inr ⟨n', ?_, hrep⟩
  simp only [hins]
  rfl

theorem tryGetKey_spec {b : Bool}
    (h : Rep C P true b n t) (hm : Models t m) (key : Bytes) : Missed miss (tryGetKey db n key) ∨
      ∃ n', tryGetKey db n key = .ok (m key, n') ∧ Rep C P true b n' t := by
  rw [tryGetKey]
  obtain hmiss | ⟨n', r, hget, hrep⟩ :=
    tryGet_spec hdb h hm.proper (hm.fits key) (steps_le n (keybytesToHex key)) []
  · exact .inl (hmiss.bind _)
  refine .inr ⟨if r then n' else n, ?_, ?_⟩
  · rw [hget, hm.get]
    rfl
  split
  · exact hrep
  · exact h

end

theorem Follows.setRoot (hf : Follows C S s h) (hn : Rep C (Held C s.db) true false n t) :
    Follows C S { s with root := n } { h with now := t } :=
  ⟨hf.kept, hn, hf.roots⟩

theorem follows_step (hC : Ideal C S) {hm}
    (hf : Follows C S s h) (hr : Related Models h hm) (hnow : InPlay C S h.now)
    (hsaved : ∀ t ∈ h.saved, InPlay C S t) (op : Op) :
    ∃ s', s.step C op = .ok s' ∧ Follows C S s' (h.step updateTree deleteTree op) := by
  have hserves := hf.kept.serves.answers
  cases op with
  | tryUpdate key value =>
    obtain ⟨n, hn, hrep⟩ := Missed.resolve (tryUpdate_spec hserves hf.root hr.now key value)
    exact ⟨{ s with root := n }, by rw [Session.step, hn]; rfl, hf.setRoot hrep⟩
  | tryDelete key =>
    obtain ⟨n, hn, hrep⟩ := Missed.resolve (tryDelete_spec hserves hf.root hr.now key)
    exact ⟨{ s with root := n }, by rw [Session.step, hn]; rfl, hf.setRoot hrep⟩
  | tryGet key =>
    obtain ⟨n, hn, hrep⟩ := Missed.resolve (tryGetKey_spec hserves hf.root hr.now key)
    exact ⟨{ s with root := n }, by rw [Session.step, hn]; rfl, hf.setRoot hrep⟩
  | hash =>
    obtain ⟨n, d, hn, hrep⟩ := hashTrie_spec s.db hf.root hr.now.typed hr.now.proper
    refine ⟨{ s with db := { s.db with dirtyHashCache := d }, root := n }, ?_, ?_⟩
    · rw [Session.step, hn]
      rfl
    refine ⟨hf.kept.setHashCache d, hrep.plain.mono fun t h => h.setHashCache d, ?_⟩
    exact hf.roots.imp fun r t hrt => ⟨hrt.1, hrt.2.imp_right fun h => h.setHashCache d⟩
  | commit =>
    obtain ⟨count, n, db, hn, hkept, hmono, hrep, hheld⟩ :=
      commitTrie_spec hC hf.kept hf.root hnow hr.now.canon
    refine ⟨{ db, root := n, roots := s.roots ++ [rootHash C h.now] }, ?_, hkept, hrep, ?_⟩
    · rw [Session.step, hn]
      rfl
    refine rel_append (hf.roots.imp fun r t hrt => ?_) (.cons ⟨rfl, hheld⟩ .nil)
    exact ⟨hrt.1, hrt.2.imp_right (Held.mono hmono)⟩
  | reload i =>
    obtain ⟨hs, hh⟩ | ⟨r, t, hs, hh, rfl, hheld⟩ := forall₂_getElem? hf.roots i
    · refine ⟨s, by rw [Session.step, hs]; rfl, ?_⟩
      rw [History.step, hh]
      exact hf
    obtain ⟨n, hn, hrep⟩ :=
      Missed.resolve (newTrie_spec hC hserves (hsaved t (mem_of_getElem? hh)) hheld)
    refine ⟨{ s with root := n }, by rw [Session.step, hs]; simp only [hn]; rfl, ?_⟩
    rw [History.step, hh]
    exact hf.setRoot hrep

/-- The encodings of the nodes of all tries that a sequence of calls makes. -/
def inPlay (C : Crypto) (ops : List Op) : Set Bytes :=
  { b | ∃ pre, pre <+: ops ∧ b ∈ encodings C (trees pre).now }

theorem trees_append (ops : List Op) (op : Op) :
    trees (ops ++ [op]) = (trees ops).step updateTree deleteTree op := by
  rw [trees, foldl_append]
  rfl

theorem maps_append (ops : List Op) (op : Op) :
    maps (ops ++ [op]) = (maps ops).step updateMap deleteMap op := by
  rw [maps, foldl_append]
  rfl

theorem run_append (ops : List Op) (op : Op) :
    run C (ops ++ [op]) = run C ops >>= fun s => s.step C op := by
  rw [run, foldlM_append]
  simp [run]

theorem related_run (hmem : ∀ op ∈ ops, op.InMemory) : Related Models (trees ops) (maps ops) := by
  induction ops using reverseRecOn with
  | nil => exact ⟨models_nil, .nil⟩
  | append_singleton ops op ih =>
    rw [trees_append, maps_append]
    refine related_step (fun key value t m hop hm => models_update hm ?_)
      (fun key t m hm => models_delete hm key) (ih fun op h => hmem op (by simp [h]))
    rw [← hop]
    exact hmem op (by simp)

theorem saved_of_part (h : t ∈ (trees ops).saved) : ∃ pre, pre <+: ops ∧ t = (trees pre).now := by
  induction ops using reverseRecOn with
  | nil => cases h
  | append_singleton ops op ih =>
    rw [trees_append] at h
    have hold (h : t ∈ (trees ops).saved) : ∃ pre, pre <+: ops ++ [op] ∧ t = (trees pre).now := by
      obtain ⟨pre, hpre, ht⟩ := ih h
      exact ⟨pre, hpre.trans (prefix_append _ _), ht⟩
    cases op with
    | commit =>
      obtain h | h := mem_append.mp h
      · exact hold h
      · exact ⟨ops, prefix_append _ _, mem_singleton.mp h⟩
    | tryUpdate key value => exact hold h
    | tryDelete key => exact hold h
    | tryGet key => exact hold h
    | hash => exact hold h
    | reload i => exact hold h

theorem inPlay_of_part {pre} (hmem : ∀ op ∈ ops, op.InMemory) (hpre : pre <+: ops)
    (hS : inPlay C ops ⊆ S) : InPlay C S (trees pre).now :=
  ⟨(related_run fun op h => hmem op (hpre.subset h)).now.storable, fun _ hb => hS ⟨pre, hpre, hb⟩⟩

theorem follows_run (hC : Ideal C S) (hmem : ∀ op ∈ ops, op.InMemory)
    (hS : inPlay C ops ⊆ S) : ∃ s, run C ops = .ok s ∧ Follows C S s (trees ops) := by
  induction ops using reverseRecOn with
  | nil => exact ⟨Session.new, rfl, follows_new⟩
  | append_singleton ops op ih =>
    have hpre : ops <+: ops ++ [op] := prefix_append _ _
    have hmem' (o : Op) (h : o ∈ ops) : o.InMemory := hmem o (by simp [h])
    obtain ⟨s, hs, hf⟩ := ih hmem' fun b hb => by
      obtain ⟨pre, hp, hb⟩ := hb
      exact hS ⟨pre, hp.trans hpre, hb⟩
    obtain ⟨s', hs', hf'⟩ := follows_step hC hf (related_run hmem') (inPlay_of_part hmem hpre hS)
      (fun t ht => by
        obtain ⟨pre, hp, rfl⟩ := saved_of_part ht
        exact inPlay_of_part hmem (hp.trans hpre) hS) op
    refine ⟨s', ?_, ?_⟩
    · rw [run_append, hs]
      exact hs'
    · rwa [trees_append]

end

/-- The tree that a node stands for once all hash nodes are resolved. -/
inductive Expands (db : Database) : Node → Patricia → Prop where
  | nil : Expands db .nil .nil
  | value (v : Bytes) : Expands db (.value v) (.value v)
  | hash {h : Hash} {n : Node} {t : Patricia} (hn : db.node h = .ok n) (hb : isBranch n = true)
      (ht : Expands db n t) : Expands db (.hash h) t
  | short {k : List Nibble} {v : Node} {c : Patricia} {fl : NodeFlag} (hv : Expands db v c) :
      Expands db (.short k v fl) (.short k c)
  | full {cs : Nibble → Node} {ts : Nibble → Patricia} {fl : NodeFlag} (hcs : ∀ i, Expands db (cs i) (ts i)) :
      Expands db (.full cs fl) (.full ts)

section

variable {C : Crypto} {P : Patricia → Prop} {db : Database} {f b : Bool}

theorem expands_branch {n : Node} {t} (h : Rep C P f b n t) (hn : isHash n = false)
    (hshort : ∀ k c, t = .short k c → ∀ b v, Rep C P false b v c → Expands db v c)
    (hfull : ∀ cs, t = .full cs → ∀ i b v, Rep C P false b v (cs i) → Expands db v (cs i)) :
    Expands db n t := by
  cases h with
  | nil => exact .nil
  | value v => exact .value v
  | hash _ _ _ => cases hn
  | short hv _ => exact .short (hshort _ _ rfl _ _ hv)
  | full hcs _ => exact .full fun i => hfull _ rfl i _ _ (hcs i)

theorem expands_of_rep (hdb : Serves C P db) {n : Node} {t} (h : Rep C P f b n t) : Expands db n t := by
  have hash {n : Node} {t : Patricia} {f b : Bool} (h : Rep C P f b n t)
      (hbranch : ∀ f b n, Rep C P f b n t → isHash n = false → Expands db n t) : Expands db n t := by
    cases hn : isHash n with
    | false => exact hbranch f b n h hn
    | true =>
      cases h with
      | nil => cases hn
      | value v => cases hn
      | short _ _ => cases hn
      | full _ _ => cases hn
      | hash hi hf hP =>
        obtain ⟨n, hn, hb, hrep⟩ := hdb t hi hP
        refine .hash hn hb (hbranch true true n hrep ?_)
        cases n with
        | hash h => cases hb
        | nil => rfl
        | value v => rfl
        | short k v fl => rfl
        | full cs fl => rfl
  induction t generalizing n f b with
  | nil => exact hash h fun f b n h hn => expands_branch h hn (fun k c ht => by cases ht) (fun cs ht => by cases ht)
  | value v => exact hash h fun f b n h hn => expands_branch h hn (fun k c ht => by cases ht) (fun cs ht => by cases ht)
  | short k c ih =>
    refine hash h fun f b n h hn => expands_branch h hn (fun k c ht b v hv => ?_) (fun cs ht => by cases ht)
    cases ht
    exact ih hv
  | full cs ih =>
    refine hash h fun f b n h hn => expands_branch h hn (fun k c ht => by cases ht) (fun cs ht i b v hv => ?_)
    cases ht
    exact ih i hv

end

/-- Two sequences of calls on an empty trie, with what they store held in
memory: both run through, lookups return what the finite map holds, and
equal maps have one canonical trie behind both roots, so one root hash. -/
theorem trie_refines_finite_map (C : Crypto) (ops₁ ops₂ : List Op) (hmem : ∀ op ∈ ops₁ ++ ops₂, op.InMemory)
    (hC : Ideal C (inPlay C ops₁ ∪ inPlay C ops₂)) :
    ∃ s₁ s₂, run C ops₁ = .ok s₁ ∧ run C ops₂ = .ok s₂ ∧
      (∀ key, ∃ root, tryGetKey s₁.db s₁.root key = .ok (contents ops₁ key, root)) ∧
      (∀ key, ∃ root, tryGetKey s₂.db s₂.root key = .ok (contents ops₂ key, root)) ∧
      (contents ops₁ = contents ops₂ →
        ∃ t : Patricia, (t = .nil ∨ t.Canon) ∧ Expands s₁.db s₁.root t ∧ Expands s₂.db s₂.root t ∧
          ∃ h r₁ r₂, hashTrie C s₁.db s₁.root = .ok (h, r₁) ∧ hashTrie C s₂.db s₂.root = .ok (h, r₂)) := by
  have hmem₁ (op : Op) (h : op ∈ ops₁) : op.InMemory := hmem op (mem_append_left _ h)
  have hmem₂ (op : Op) (h : op ∈ ops₂) : op.InMemory := hmem op (mem_append_right _ h)
  have hm₁ := (related_run hmem₁).now
  have hm₂ := (related_run hmem₂).now
  obtain ⟨s₁, hs₁, hf₁⟩ := follows_run hC hmem₁ Set.subset_union_left
  obtain ⟨s₂, hs₂, hf₂⟩ := follows_run hC hmem₂ Set.subset_union_right
  have hserves₁ := hf₁.kept.serves
  have hserves₂ := hf₂.kept.serves
  refine ⟨s₁, s₂, hs₁, hs₂, fun key => ?_, fun key => ?_, fun heq => ?_⟩
  · obtain ⟨root, hget, _⟩ := Missed.resolve (tryGetKey_spec hserves₁.answers hf₁.root hm₁ key)
    exact ⟨root, hget⟩
  · obtain ⟨root, hget, _⟩ := Missed.resolve (tryGetKey_spec hserves₂.answers hf₂.root hm₂ key)
    exact ⟨root, hget⟩
  have htree : (trees ops₁).now = (trees ops₂).now := by
    change Models (trees ops₁).now (contents ops₁) at hm₁
    rw [heq] at hm₁
    exact hm₁.unique hm₂
  obtain ⟨n₁, d₁, hhash₁, _⟩ := hashTrie_spec s₁.db hf₁.root hm₁.typed hm₁.proper
  obtain ⟨n₂, d₂, hhash₂, _⟩ := hashTrie_spec s₂.db hf₂.root hm₂.typed hm₂.proper
  have hroot₂ := expands_of_rep hserves₂ hf₂.root
  rw [← htree] at hhash₂ hroot₂
  exact ⟨(trees ops₁).now, hm₁.canon, expands_of_rep hserves₁ hf₁.root, hroot₂,
    rootHash C (trees ops₁).now, _, _, hhash₁, hhash₂⟩

section

variable {C : Crypto} {b : Bytes}

def nodeEncodings (C : Crypto) : Patricia → List Bytes
  | .short k c => encode (item C (.short k c)) :: nodeEncodings C c
  | .full cs => encode (item C (.full cs)) :: (List.finRange 17).flatMap fun i => nodeEncodings C (cs i)
  | _ => []

theorem mem_nodeEncodings {t} (h : b ∈ encodings C t) : b ∈ nodeEncodings C t := by
  obtain ⟨t', hw, hi, rfl⟩ := h
  induction t with
  | nil => cases hw; cases hi
  | value v => cases hw; cases hi
  | short k c ih =>
    rw [nodeEncodings, mem_cons]
    obtain rfl | hw := hw
    · exact .inl rfl
    · exact .inr (ih hw)
  | full cs ih =>
    rw [nodeEncodings, mem_cons, mem_flatMap]
    obtain rfl | ⟨i, hw⟩ := hw
    · exact .inl rfl
    · exact .inr ⟨i, mem_finRange i, ih i hw⟩

theorem mem_inits_of_inPlay {ops} (h : b ∈ inPlay C ops) :
    b ∈ ops.inits.flatMap fun pre => nodeEncodings C (trees pre).now := by
  obtain ⟨pre, hpre, hb⟩ := h
  exact mem_flatMap.mpr ⟨pre, (mem_inits _ _).mpr hpre, mem_nodeEncodings hb⟩

theorem ideal_of_list {S : Set Bytes} {l : List Bytes} (hS : ∀ b ∈ S, b ∈ l)
    (h : ∀ a ∈ l, C.keccak256 a ≠ zeros 32 ∧ C.keccak256 a ≠ emptyRoot ∧
      ∀ b ∈ l, C.keccak256 a = C.keccak256 b → a = b) : Ideal C S :=
  ⟨fun a ha b hb hab => (h a (hS a ha)).2.2 b (hS b hb) hab, fun b hb => (h b (hS b hb)).1,
    fun b hb => (h b (hS b hb)).2.1⟩

end

def longValue : Bytes := List.replicate 32 7

/-- Recorded hashes of the nodes of tries with keys among `12`, `34` and `56`. -/
def sampleHashes : List (Bytes × Hash) :=
  [([0xe4, 0x82, 0x20, 0x12, 0xa0] ++ longValue,
      hexToHash 0x29d0db50a1b63d3e4eb2c8b06b38db98594dd9e089f77b779ba2fee1833f7735),
    ([0xf3, 0x80, 0xa0, 0xa2, 0x39, 0x30, 0xf6, 0x21, 0x53, 0x7b, 0xb6, 0xd5, 0xe2, 0x34, 0x1c, 0x30,
      0xeb, 0x0d, 0x32, 0x3e, 0xde, 0x63, 0xb6, 0x37, 0x5c, 0x5b, 0x6c, 0xf0, 0x53, 0x04, 0x2e, 0x7e,
      0xba, 0x3f, 0x0a, 0x80, 0xc2, 0x34, 0x08, 0x80, 0x80, 0x80, 0x80, 0x80, 0x80, 0x80, 0x80, 0x80,
      0x80, 0x80, 0x80, 0x80],
      hexToHash 0xf12619602c9ff058f55dee3efc53791499c6cc63becabd38acdae9b88356fe6d),
    ([0xe2, 0x32, 0xa0] ++ longValue,
      hexToHash 0xa23930f621537bb6d5e2341c30eb0d323ede63b6375c5b6cf053042e7eba3f0a),
    ([0xc2, 0x34, 0x08],
      hexToHash 0x273ce10ce7cbc78fb47772da397e0a44ecbf79f74e7e33b6fbd7113320cbcb7a),
    ([0xc4, 0x82, 0x20, 0x34, 0x08],
      hexToHash 0x1cdfe0551e2ea81d1d30a5bb521bd5450d0bae064d88e2cb4b5781e16688758b),
    ([0xd5, 0x80, 0x80, 0x80, 0xc2, 0x34, 0x08, 0x80, 0xc2, 0x36, 0x09, 0x80, 0x80, 0x80, 0x80, 0x80,
      0x80, 0x80, 0x80, 0x80, 0x80, 0x80],
      hexToHash 0xbab642fae03dea18dcea37687bf86f96208e32de8659700b90b5c45d702735bf),
    ([0xc2, 0x36, 0x09],
      hexToHash 0x006691009f68694a5c503654c65b12c09556d48a09ca7aa15a6c6c44f9043966)]

def sampleCrypto : Crypto := Crypto.ofTables sampleHashes []

def reloadingOps : List Op :=
  [.tryUpdate [0x12] longValue, .commit, .reload 0, .tryUpdate [0x34] [8], .commit, .reload 1, .tryGet [0x12]]

def deletingOps : List Op :=
  [.tryUpdate [0x34] [8], .tryUpdate [0x56] [9], .hash, .tryDelete [0x56], .tryUpdate [0x12] longValue]

theorem trie_refines_finite_map_reloading :
    ∃ s₁ s₂, run sampleCrypto reloadingOps = .ok s₁ ∧ run sampleCrypto deletingOps = .ok s₂ ∧
      ∃ t : Patricia, (t = .nil ∨ t.Canon) ∧ Expands s₁.db s₁.root t ∧ Expands s₂.db s₂.root t := by
  have hmem : ∀ op ∈ reloadingOps ++ deletingOps, op.InMemory := by
    simp [reloadingOps, deletingOps, Op.InMemory, keybytesToHex_length, longValue]
  have hC : Ideal sampleCrypto (inPlay sampleCrypto reloadingOps ∪ inPlay sampleCrypto deletingOps) := by
    apply ideal_of_list (l := sampleHashes.map Prod.fst)
    · have hsub : ∀ b ∈ (reloadingOps.inits ++ deletingOps.inits).flatMap
          fun pre => nodeEncodings sampleCrypto (trees pre).now, b ∈ sampleHashes.map Prod.fst := by
        decide +kernel
      rintro b (hb | hb)
      · exact hsub b (by rw [flatMap_append]; exact mem_append_left _ (mem_inits_of_inPlay hb))
      · exact hsub b (by rw [flatMap_append]; exact mem_append_right _ (mem_inits_of_inPlay hb))
    · decide +kernel
  obtain ⟨s₁, s₂, hs₁, hs₂, _, _, hsame⟩ := trie_refines_finite_map _ _ _ hmem hC
  have hcontents : contents reloadingOps = contents deletingOps := by
    funext key
    by_cases h₁ : key = [0x12]
    · subst key
      decide
    by_cases h₂ : key = [0x34]
    · subst key
      decide
    by_cases h₃ : key = [0x56]
    · subst key
      decide
    simp [contents, maps, reloadingOps, deletingOps, History.step, updateMap, deleteMap, longValue,
      h₁, h₂, h₃]
  obtain ⟨t, ht, he₁, he₂, _⟩ := hsame hcontents
  exact ⟨s₁, s₂, hs₁, hs₂, t, ht, he₁, he₂⟩

end Geth.Trie.FiniteMap
