import Geth.Trie.FiniteMap

namespace Geth.Trie.Layers

open Lib.BigEndian Lib.Radix Common.Basic Rlp.Encode Encoding Decode Merkle NodeStore
open Hasher Represents Hashing Holding FiniteMap Option
open RadixTree (within_short within_self within_full)

variable {C : Crypto} {S : Set Bytes} {I : Patricia → Prop} {db : Database}

/-- A canonical tree in play. -/
structure Member (C : Crypto) (S : Set Bytes) (t : Patricia) : Prop where
  inPlay : InPlay C S t
  canon : t.Canon

theorem Member.within {t t'} (h : Member C S t) (hw : t'.Within t) (hi : isInner t' = true) :
    Member C S t' := by
  refine ⟨h.inPlay.within hw hi, (h.canon.within hw).resolve_left ?_⟩
  rintro rfl
  cases hi

theorem closed_member : Closed C (Member C S) := fun _ _ h hw hi _ => h.within hw hi

theorem member_inj (hC : Ideal C S) {t t'} (h : Member C S t) (h' : Member C S t')
    (hi : isInner t = true) (hi' : isInner t' = true) (heq : hashOf C t = hashOf C t') : t = t' :=
  hashOf_inj hC.injOn h.inPlay.storable h'.inPlay.storable h.inPlay.encodings h'.inPlay.encodings hi hi' heq

/-- The hash is that of a tree in `I`, and `p` holds for the tree. -/
def NodeOf (C : Crypto) (I : Patricia → Prop) (h : Hash) (p : Patricia → Prop) : Prop :=
  ∃ t, I t ∧ isInner t = true ∧ h = hashOf C t ∧ p t

/-- A node that stands for the tree, with the hashes noted. -/
def CacheOk (C : Crypto) (I : Patricia → Prop) (d : HashCache) : Prop :=
  ∀ h n, d.lookup h = some n → NodeOf C I h fun t => isBranch n = true ∧ Rep C I true true n t

/-- Every entry of every layer is the node its hash belongs to. -/
structure Consistent (C : Crypto) (I : Patricia → Prop) (db : Database) : Prop where
  disk : ∀ h enc, db.disk.lookup h = some enc → NodeOf C I h fun t => enc = encode (item C t)
  cleans : ∀ h enc, db.cleans.bind (·.lookup h) = some enc →
    NodeOf C I h (fun t => enc = encode (item C t)) ∧ (db.disk.lookup h).isSome = true
  dirties : ∀ e ∈ db.dirties, e.1 ≠ zeros 32 ∧ e.2.children = [] ∧ NodeOf C I e.1 fun t => e.2.node = rawOf C t
  hashed : CacheOk C I db.dirtyHashCache
  flushed : ∀ d, db.flushedHashCache = some d → CacheOk C I d

/-- A node that is in the dirty map or on disk, where only a garbage
collection would remove it. -/
def Stored (db : Database) (h : Hash) : Prop :=
  (db.dirties.lookup h).isSome = true ∨ (db.disk.lookup h).isSome = true

def Available (db : Database) (h : Hash) : Prop :=
  (db.flushedHashCache.bind (·.lookup h)).isSome = true ∨ Stored db h

theorem available_iff (hdb : Consistent C I db) {h : Hash} :
    Available db h ↔ db.inMemory h = true ∨ (db.disk.lookup h).isSome = true := by
  rw [Available, Stored, Database.inMemory, Bool.or_eq_true, Bool.or_eq_true]
  constructor
  · rintro (hf | hd | hd)
    · exact .inl (.inl (.inr hf))
    · exact .inl (.inr hd)
    · exact .inr hd
  rintro (((hc | hf) | hd) | hd)
  · obtain ⟨enc, henc⟩ := isSome_iff_exists.mp hc
    exact .inr (.inr (hdb.cleans h enc henc).2)
  · exact .inl hf
  · exact .inr (.inl hd)
  · exact .inr (.inr hd)

section

variable {n : Node} {t : Patricia} {f b : Bool} {P : Patricia → Prop}

theorem rep_noted (h : Rep C I f b n t) {h' : Hash} (hh : n.cache.1 = some h') :
    isInner t = true ∧ h' = hashOf C t ∧ (f = true ∨ 32 ≤ size C t) := by
  cases h with
  | nil => cases hh
  | value v => cases hh
  | hash _ _ _ => cases hh
  | short _ hfl => exact ⟨rfl, hfl.hash h' hh⟩
  | full _ hfl => exact ⟨rfl, hfl.hash h' hh⟩

/-- The clean copy of a node stands for the same tree, over any trees that hold its nodes. -/
theorem rep_createNode (h : Rep C I f b n t)
    (hP : ∀ t', t'.Within t → isInner t' = true → 32 ≤ size C t' ∨ (f = true ∧ t' = t) → P t') :
    Rep C P f b (createNode n) t := by
  have hclean {f : Bool} {t : Patricia} (hself : 32 ≤ size C t ∨ f = true → P t) :
      P t ∨ (f = false ∧ size C t < 32) := by
    by_cases hl : 32 ≤ size C t ∨ f = true
    · exact .inl (hself hl)
    rw [not_or, Bool.not_eq_true] at hl
    exact .inr ⟨hl.2, Nat.lt_of_not_le hl.1⟩
  induction h with
  | nil => exact .nil
  | value v => exact .value v
  | hash hi hf hS =>
    exact .hash hi hf (hP _ (within_self _) hi (hf.symm.imp_right fun h => ⟨h, rfl⟩))
  | short hv hfl ih =>
    refine .short (ih fun t' hw hi hl => ?_) ⟨hfl.hash, fun _ => hclean fun hl => ?_, hfl.noted⟩
    · exact hP t' (within_short hw) hi (.inl (hl.resolve_right fun h => by cases h.1))
    · exact hP _ (within_self _) rfl (hl.imp_right fun h => ⟨h, rfl⟩)
  | @full f b cs ts fl hcs hfl ih =>
    refine .full (fun i => ?_) ⟨hfl.hash, fun _ => hclean fun hl => ?_, hfl.noted⟩
    · cases hc : (cs i).cache.1 with
      | some h =>
        obtain ⟨hi, rfl, hl⟩ := rep_noted (hcs i) hc
        exact .hash hi hl (hP _ (within_full (within_self _)) hi (.inl (hl.resolve_left Bool.false_ne_true)))
      | none =>
        refine ih i fun t' hw hi hl => ?_
        exact hP t' (within_full hw) hi (.inl (hl.resolve_right fun h => by cases h.1))
    · exact hP _ (within_self _) rfl (hl.imp_right fun h => ⟨h, rfl⟩)

theorem isBranch_createNode (h : isBranch n = true) : isBranch (createNode n) = true := by
  cases n with
  | nil => cases h
  | value v => cases h
  | hash h => cases h
  | short k v fl => rfl
  | full cs fl => rfl

theorem member_loaded (h : Member C S t) (hi : isInner t = true) :
    Rep C (Member C S) true true (loaded C (some (hashOf C t)) t) t :=
  rep_loaded h.inPlay.storable.typed hi h fun _ hw hi' _ => h.within hw hi'

theorem Member.mustDecodeNode (h : Member C S t) (hi : isInner t = true) :
    Database.mustDecodeNode (hashOf C t) (encode (item C t)) = .ok (loaded C (some (hashOf C t)) t) := by
  rw [Database.mustDecodeNode, decodeNode_encode h.inPlay.storable hi]

theorem Member.rlp (h : Member C S t) {c : CachedNode} (hc : c.node = rawOf C t) :
    c.rlp = encode (item C t) := by
  rw [CachedNode.rlp, hc, rawOf_item (.inr h.inPlay.storable.typed) h.canon.proper]

theorem NodeOf.elim (hC : Ideal C S) (ht : Member C S t) (hi : isInner t = true)
    {p} (h : NodeOf C (Member C S) (hashOf C t) p) : p t := by
  obtain ⟨t', ht', hi', heq, hp⟩ := h
  rwa [member_inj hC ht ht' hi hi' heq]

section

variable (hC : Ideal C S) (hdb : Consistent C (Member C S) db)
include hC hdb

/-- Whichever layer answers, the answer stands for the tree with the hash, over any trees that
hold it. -/
theorem node_spec (ht : Member C S t) (hi : isInner t = true) (hP : Closed C P) (htP : P t) :
    (¬ Available db (hashOf C t) ∧ db.node (hashOf C t) = .ok .nil) ∨
      (Available db (hashOf C t) ∧ ∃ n, db.node (hashOf C t) = .ok n ∧ isBranch n = true ∧
        Rep C P true true n t) := by
  have hload : Rep C P true true (loaded C (some (hashOf C t)) t) t :=
    rep_loaded ht.inPlay.storable.typed hi htP fun t' hw hi' hl => hP t t' htP hw hi' hl
  have hbranch := isBranch_loaded (C := C) hi (some (hashOf C t))
  rw [available_iff hdb, Database.inMemory, Database.node]
  cases hcl : db.cleans.bind (·.lookup (hashOf C t)) with
  | some enc =>
    obtain rfl := (hdb.cleans _ _ hcl).1.elim hC ht hi
    exact .inr ⟨.inl rfl, _, ht.mustDecodeNode hi, hbranch, hload⟩
  | none =>
    cases hfl : db.flushedHashCache.bind (·.lookup (hashOf C t)) with
    | some n =>
      obtain ⟨d, hd, hn⟩ := bind_eq_some_iff.mp hfl
      obtain ⟨hb, hrep⟩ := (hdb.flushed d hd _ _ hn).elim hC ht hi
      exact .inr ⟨.inl rfl, createNode n, rfl, isBranch_createNode hb,
        rep_createNode hrep fun t' hw hi' hl => hl.elim (hP t t' htP hw hi') fun h => h.2 ▸ htP⟩
    | none =>
      simp only [if_neg (hC.hashOf_ne ht.inPlay hi).1]
      cases hdi : db.dirties.lookup (hashOf C t) with
      | some c =>
        have hraw := (hdb.dirties _ (mem_of_lookup hdi)).2.2.elim hC ht hi
        refine .inr ⟨.inl rfl, _, rfl, ?_⟩
        rw [CachedNode.obj, hraw, expandNode_rawOf (.inr ht.inPlay.storable.typed)]
        exact ⟨hbranch, hload⟩
      | none =>
        cases hdisk : db.disk.lookup (hashOf C t) with
        | some enc =>
          obtain rfl := (hdb.disk _ _ hdisk).elim hC ht hi
          exact .inr ⟨.inr rfl, _, ht.mustDecodeNode hi, hbranch, hload⟩
        | none => exact .inl ⟨by simp, rfl⟩

theorem Consistent.answers : Answers C (Member C S) True db := by
  intro t hi ht
  obtain ⟨_, hnil⟩ | ⟨_, hn⟩ := node_spec hC hdb ht hi closed_member ht
  · exact .inl ⟨trivial, hnil⟩
  · exact .inr hn

end

end

section

variable {f : Bool} {n : Node} {t : Patricia} {d : HashCache} {b : Bool} {h : Hash}

/-- A node that is hashed on its own may stand for a whole trie. -/
theorem rep_root (h : Rep C I f b n t) (hl : f = true ∨ 32 ≤ size C t) : Rep C I true b n t := by
  obtain rfl | hl := hl
  · exact h
  have hflag {fl : NodeFlag} (hfl : FlagOk C I f b fl t) : FlagOk C I true b fl t := by
    refine ⟨fun h hh => ⟨(hfl.hash h hh).1, .inl rfl⟩, fun hd => .inl ?_, fun hb hn => ?_⟩
    · exact (hfl.clean hd).resolve_right fun hs => absurd hs.2 (not_lt.mpr hl)
    · exact absurd (hfl.noted hb hn).2 (not_lt.mpr hl)
  cases h with
  | nil => exact .nil
  | value v => exact .value v
  | hash hi _ hS => exact .hash hi (.inl rfl) hS
  | short hv hfl => exact .short hv (hflag hfl)
  | full hcs hfl => exact .full hcs (hflag hfl)

theorem cacheOk_empty : CacheOk C I ∅ := by
  intro h n hn
  simp at hn

section

variable (hd : CacheOk C I d) (hn : NodeOf C I h fun t => isBranch n = true ∧ Rep C I true true n t)
include hd hn

theorem CacheOk.insert : CacheOk C I (d.insert h n) := by
  intro h' n' hl
  by_cases hh : h' = h
  · subst h'
    rw [AList.lookup_insert] at hl
    cases hl
    exact hn
  rw [AList.lookup_insert_ne hh] at hl
  exact hd h' n' hl

theorem cacheOk_recall : CacheOk C I (knownHash n h d).2.2 := by
  rw [knownHash]
  split
  · exact hd
  · exact hd.insert hn

end

theorem cacheOk_keep (hd : CacheOk C I d) {fl}
    {withFlags} (hi : isInner t = true) (hI : I t) (hb : ∀ fl', isBranch (withFlags fl') = true)
    (hrep : Rep C I f true (keep withFlags fl (reference C f t) d).2.1 t) :
    CacheOk C I (keep withFlags fl (reference C f t) d).2.2 := by
  by_cases hl : f = true ∨ 32 ≤ size C t
  · have hr : reference C f t = .hashNode (hashOf C t) := if_pos ⟨hi, hl⟩
    rw [hr] at hrep ⊢
    simp only [keep] at hrep ⊢
    split
    · exact hd.insert ⟨t, hI, hi, rfl, hb _, rep_root hrep hl⟩
    · exact hd
  have hr : reference C f t = .node (item C t) := if_neg fun h => hl h.2
  rw [hr]
  exact hd

theorem cacheOk_hashChildren {g}
    (hg : ∀ i, i ≠ terminator → ∀ d, CacheOk C I d → CacheOk C I (g i d).2.2) (cs : Nibble → Node)
    (l : List (Fin 16)) (hd : CacheOk C I d) : CacheOk C I (hashChildren g cs l d).2.2 := by
  induction l generalizing d with
  | nil => exact hd
  | cons i l ih => exact ih (hg i.castSucc (castSucc_ne_terminator i) d hd)

theorem cacheOk_hash (h : Rep C I f b n t) (ht : TypedOrValue t)
    (hp : t.Proper) (hI : ∀ t', t'.Within t → isInner t' = true → I t') (hd : CacheOk C I d) :
    CacheOk C I (Hasher.hash C n f d).2.2 := by
  induction h generalizing d with
  | nil => exact hd
  | value v => exact hd
  | hash _ _ _ => exact hd
  | @short f b k v c fl hv hfl ih =>
    have hself := hI _ (within_self _) rfl
    have hty := ht.resolve_left (by simp [RadixTree.isValue])
    have hspec := (hash_spec (.short hv hfl) ht hp d).2
    cases hh : fl.hash with
    | some h =>
      obtain ⟨rfl, hl⟩ := hfl.hash h hh
      rw [hash_short_some hh] at hspec ⊢
      exact cacheOk_recall hd ⟨_, hself, rfl, rfl, rfl, rep_root hspec hl⟩
    | none =>
      have hitem : Item.list [.str (hexToCompact k), valItem v (Hasher.hash C v false d).1] =
          item C (.short k c) := by
        rw [valItem_of_rep hv hp.2.1, (hash_spec hv (typedOrValue_below hty) hp.2.2 d).1, reference_item,
          Merkle.item]
      rw [hash_short_none hh, hitem, nodeToHash_item rfl] at hspec ⊢
      exact cacheOk_keep (ih (typedOrValue_below hty) hp.2.2 (fun t' hw => hI t' (within_short hw)) hd)
        rfl hself (fun _ => rfl) hspec
  | @full f b cs ts fl hcs hfl ih =>
    have hself := hI _ (within_self _) rfl
    have hty := ht.resolve_left (by simp [RadixTree.isValue])
    have hspec := (hash_spec (.full hcs hfl) ht hp d).2
    cases hh : fl.hash with
    | some h =>
      obtain ⟨rfl, hl⟩ := hfl.hash h hh
      rw [hash_full_some hh] at hspec ⊢
      exact cacheOk_recall hd ⟨_, hself, rfl, rfl, rfl, rep_root hspec hl⟩
    | none =>
      obtain ⟨hitems, _, _⟩ := hashChildren_spec (g := fun i d => Hasher.hash C (cs i) false d) ts
        (fun i hi d => hash_spec (hcs i) (.inr (hty.2 i hi)) (hp i) d) cs (List.finRange 16) d
      have hitem : Item.list ((hashChildren (fun i d => Hasher.hash C (cs i) false d) cs
          (List.finRange 16) d).1 ++ [(simplifyNode (cs terminator)).item]) = item C (.full ts) := by
        rw [hitems, (rep_last (hcs terminator) hty.1).2, Merkle.item]
      rw [hash_full_none hh, hitem, nodeToHash_item rfl] at hspec ⊢
      refine cacheOk_keep (cacheOk_hashChildren (fun i hi d hd => ?_) cs _ hd) rfl hself (fun _ => rfl) hspec
      exact ih i (.inr (hty.2 i hi)) (hp i) (fun t' hw => hI t' (within_full hw)) hd

end

end Geth.Trie.Layers
