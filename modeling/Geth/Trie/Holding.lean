import Geth.Trie.Hashing

namespace Geth.Trie.Holding

open Lib.BigEndian Lib.Radix Common.Basic Rlp.Encode Encoding Merkle NodeStore Hasher
open Represents Hashing List Option
open RadixTree (within_short within_self within_full isValue_iff)

variable {C : Crypto} {db : Database} {t' : Patricia} {S : Patricia → Prop} {db' : Database}

/-- The node of the tree is in the dirty map. -/
def InDirties (C : Crypto) (db : Database) (t : Patricia) : Prop :=
  ∃ c, db.dirties.lookup (hashOf C t) = some c ∧ c.node = rawOf C t

/-- A tree that can be read from the dirty map: its own node and every node
of it that has a hash are there. -/
structure Held (C : Crypto) (db : Database) (t : Patricia) : Prop where
  storable : Storable t
  nodes : ∀ t', t'.Within t → isInner t' = true → 32 ≤ size C t' ∨ t' = t → InDirties C db t'

variable {t : Patricia} {h : Hash} {c : CachedNode} {sz : ℕ} {raw : RawNode} {leaves : List Leaf}

theorem storable_of_within (h : Storable t) (hw : t'.Within t) (hi : isInner t' = true) : Storable t' := by
  induction t with
  | nil =>
    cases hw
    cases hi
  | value v =>
    cases hw
    cases hi
  | short k c ih =>
    obtain rfl | hw := hw
    · exact h
    obtain ⟨_, hv⟩ | ⟨_, hc⟩ := h.typed
    · obtain ⟨v, rfl⟩ := isValue_iff.mp hv
      cases hw
      cases hi
    · exact ih (h.below hc) hw
  | full cs ih =>
    obtain rfl | ⟨i, hw⟩ := hw
    · exact h
    by_cases hit : i = terminator
    · subst i
      obtain hn | hv := h.typed.1
      · rw [hn] at hw
        cases hw
        cases hi
      obtain ⟨v, hv⟩ := isValue_iff.mp hv
      rw [hv] at hw
      cases hw
      cases hi
    · exact ih i (h.child hit) hw

theorem nodes_within {P : Patricia → Prop}
    (h : ∀ t', t'.Within t → isInner t' = true → 32 ≤ size C t' ∨ t' = t → P t')
    (hw : t'.Within t) (hl : 32 ≤ size C t') :
    ∀ t'', t''.Within t' → isInner t'' = true → 32 ≤ size C t'' ∨ t'' = t' → P t'' := by
  intro t'' hw' hi hl'
  refine h t'' (hw'.trans hw) hi (.inl ?_)
  obtain hl' | rfl := hl'
  · exact hl'
  · exact hl

theorem closed_held : Closed C (Held C db) := by
  intro t t' ht hw hi hl
  exact ⟨storable_of_within ht.storable hw hi, nodes_within ht.nodes hw hl⟩

theorem rep_childNode (ht : TypedOrValue t)
    (hS : ∀ t', t'.Within t → isInner t' = true → 32 ≤ size C t' → S t') :
    Rep C S false true (childNode C t) t := by
  induction t with
  | nil => exact .nil
  | value v => exact .value v
  | short k c ih =>
    have ht := ht.resolve_left (by simp [RadixTree.isValue])
    rw [childNode]
    by_cases he : embeds C (.short k c) = true
    · have hsmall := (embeds_iff (C := C) rfl).mp he
      rw [if_pos he]
      refine .short ?_ ⟨fun h hh => (by cases hh), fun _ => .inr ⟨rfl, hsmall⟩, fun _ _ => ⟨rfl, hsmall⟩⟩
      exact ih (typedOrValue_below ht) fun t' hw => hS t' (within_short hw)
    have hl : 32 ≤ size C (.short k c) := not_lt.mp (fun h => he ((embeds_iff rfl).mpr h))
    rw [if_neg he]
    exact .hash rfl (.inr hl) (hS _ (within_self _) rfl hl)
  | full cs ih =>
    have ht := ht.resolve_left (by simp [RadixTree.isValue])
    have hchild (i : Nibble) : Rep C S false true (childNode C (cs i)) (cs i) := by
      exact ih i (typedOrValue_child ht i) fun t' hw => hS t' (within_full hw)
    rw [childNode]
    by_cases he : embeds C (.full cs) = true
    · have hsmall := (embeds_iff (C := C) rfl).mp he
      rw [if_pos he]
      exact .full hchild ⟨fun h hh => (by cases hh), fun _ => .inr ⟨rfl, hsmall⟩, fun _ _ => ⟨rfl, hsmall⟩⟩
    have hl : 32 ≤ size C (.full cs) := not_lt.mp (fun h => he ((embeds_iff rfl).mpr h))
    rw [if_neg he]
    exact .hash rfl (.inr hl) (hS _ (within_self _) rfl hl)

theorem rep_loaded (ht : t.Typed terminator) (hi : isInner t = true)
    (hself : S t) (hS : ∀ t', t'.Within t → isInner t' = true → 32 ≤ size C t' → S t') :
    Rep C S true true (loaded C (some (hashOf C t)) t) t := by
  have hflag : FlagOk C S true true { hash := some (hashOf C t) } t := by
    refine ⟨fun h hh => ?_, fun _ => .inl hself, fun _ hn => by cases hn⟩
    cases hh
    exact ⟨rfl, .inl rfl⟩
  cases t with
  | nil => cases hi
  | value v => cases hi
  | short k c =>
    refine .short ?_ hflag
    exact rep_childNode (typedOrValue_below ht) fun t' hw => hS t' (within_short hw)
  | full cs =>
    refine .full (fun i => ?_) hflag
    exact rep_childNode (typedOrValue_child ht i) fun t' hw => hS t' (within_full hw)

theorem isBranch_loaded (hi : isInner t = true) (hash : Option Hash) :
    isBranch (loaded C hash t) = true := by
  cases t with
  | nil => cases hi
  | value v => cases hi
  | short k c => rfl
  | full cs => rfl

/-- A database that answers from the dirty map, whose entries all are nodes
of trees in `I`. -/
structure Kept (C : Crypto) (I : Patricia → Prop) (db : Database) : Prop where
  cleans : db.cleans = none
  flushed : db.flushedHashCache = none
  entries : ∀ e ∈ db.dirties, e.1 ≠ zeros 32 ∧
    ∃ t, I t ∧ isInner t = true ∧ e.1 = hashOf C t ∧ e.2.node = rawOf C t

variable {I : Patricia → Prop}

theorem mem_of_lookup {l : List (Hash × CachedNode)} (hl : l.lookup h = some c) : (h, c) ∈ l := by
  obtain ⟨l₁, l₂, rfl, _⟩ := List.lookup_eq_some_iff.mp hl
  simp

theorem Kept.node_eq (hdb : Kept C I db)
    (hc : db.dirties.lookup h = some c) : db.node h = .ok (c.obj h) := by
  have hne := (hdb.entries _ (mem_of_lookup hc)).1
  rw [Database.node, hdb.cleans, hdb.flushed]
  simp only [bind_none]
  rw [if_neg hne, hc]

theorem Kept.serves (hdb : Kept C I db) : Serves C (Held C db) db := by
  intro t hi ht
  obtain ⟨c, hc, hraw⟩ := ht.nodes t (within_self t) hi (.inr rfl)
  refine ⟨loaded C (some (hashOf C t)) t, ?_, isBranch_loaded hi _, ?_⟩
  · rw [hdb.node_eq hc, CachedNode.obj, hraw, expandNode_rawOf (.inr ht.storable.typed)]
  · exact rep_loaded ht.storable.typed hi ht fun t' hw hi' hl => closed_held t t' ht hw hi' hl

theorem insert_of_known
    (hk : h = zeros 32 ∨ (db.dirties.lookup h).isSome = true) : db.insert h sz raw = db := by
  rw [Database.insert, if_pos hk]

theorem insert_dirties_of_new (hk : ¬ (h = zeros 32 ∨ (db.dirties.lookup h).isSome = true)) :
    (db.insert h sz raw).dirties = db.dirties ++ [(h, { node := raw, size := sz % 2 ^ 16 })] := by
  rw [Database.insert, if_neg hk]

theorem insert_lookup {h' : Hash}
    (hc : db.dirties.lookup h' = some c) : (db.insert h sz raw).dirties.lookup h' = some c := by
  by_cases hk : h = zeros 32 ∨ (db.dirties.lookup h).isSome = true
  · rwa [insert_of_known hk]
  rw [insert_dirties_of_new hk, lookup_append, hc]
  rfl

theorem insert_lookup_self (hne : h ≠ zeros 32) : ∃ c, (db.insert h sz raw).dirties.lookup h = some c := by
  by_cases hk : h = zeros 32 ∨ (db.dirties.lookup h).isSome = true
  · rw [insert_of_known hk]
    exact Option.isSome_iff_exists.mp (hk.resolve_left hne)
  rw [insert_dirties_of_new hk, lookup_append]
  have hnone : db.dirties.lookup h = none := by
    rw [not_or, Bool.not_eq_true, isSome_eq_false_iff, isNone_iff_eq_none] at hk
    exact hk.2
  exact ⟨{ node := raw, size := sz % 2 ^ 16 }, by simp [hnone]⟩

theorem Kept.insert (hdb : Kept C I db) (hI : I t) (hi : isInner t = true) (sz : ℕ) :
    Kept C I (db.insert (hashOf C t) sz (rawOf C t)) := by
  by_cases hk : hashOf C t = zeros 32 ∨ (db.dirties.lookup (hashOf C t)).isSome = true
  · rwa [insert_of_known hk]
  refine ⟨?_, ?_, fun e he => ?_⟩
  · rw [Database.insert, if_neg hk]
    exact hdb.cleans
  · rw [Database.insert, if_neg hk]
    exact hdb.flushed
  rw [insert_dirties_of_new hk] at he
  obtain he | he := List.mem_append.mp he
  · exact hdb.entries e he
  obtain rfl := List.mem_singleton.mp he
  exact ⟨(not_or.mp hk).1, t, hI, hi, rfl, rfl⟩

theorem commitLoop_lookup
    (hc : db.dirties.lookup h = some c) : (commitLoop db leaves).dirties.lookup h = some c := by
  induction leaves generalizing db with
  | nil => exact hc
  | cons l leaves ih => exact ih (insert_lookup hc)

theorem commitLoop_lookup_leaf (db : Database) {l : Leaf} (hl : l ∈ leaves)
    (hne : l.hash ≠ zeros 32) : ∃ c, (commitLoop db leaves).dirties.lookup l.hash = some c := by
  induction leaves generalizing db with
  | nil => cases hl
  | cons l' leaves ih =>
    obtain rfl | hl := List.mem_cons.mp hl
    · obtain ⟨c, hc⟩ : ∃ c, (db.insert l.hash l.size l.node).dirties.lookup l.hash = some c :=
        insert_lookup_self hne
      have hkeep : (commitLoop (db.insert l.hash l.size l.node) leaves).dirties.lookup l.hash = some c :=
        commitLoop_lookup hc
      exact ⟨c, hkeep⟩
    · exact ih _ hl

theorem Kept.commitLoop (hdb : Kept C I db)
    (hl : ∀ l ∈ leaves, ∃ t, I t ∧ isInner t = true ∧ l.hash = hashOf C t ∧ l.node = rawOf C t) :
    Kept C I (commitLoop db leaves) := by
  induction leaves generalizing db with
  | nil => exact hdb
  | cons l leaves ih =>
    obtain ⟨t, hI, hi, hh, hn⟩ := hl l mem_cons_self
    refine ih ?_ (fun l' hl' => hl l' (mem_cons_of_mem _ hl'))
    have hins := hdb.insert hI hi l.size
    rwa [← hh, ← hn] at hins

theorem Kept.setHashCache (h : Kept C I db) (d : HashCache) : Kept C I { db with dirtyHashCache := d } :=
  ⟨h.cleans, h.flushed, h.entries⟩

section

variable (hmono : ∀ h c, db.dirties.lookup h = some c → db'.dirties.lookup h = some c)
include hmono

theorem InDirties.mono (h : InDirties C db t) : InDirties C db' t := by
  obtain ⟨c, hc, hn⟩ := h
  exact ⟨c, hmono _ _ hc, hn⟩

theorem Held.mono (h : Held C db t) : Held C db' t :=
  ⟨h.storable, fun t' hw hi hl => (h.nodes t' hw hi hl).mono hmono⟩

end

theorem Held.setHashCache (h : Held C db t) (d : HashCache) : Held C { db with dirtyHashCache := d } t := by
  refine Held.mono (fun h c hc => ?_) h
  exact hc

structure OnDisk (C : Crypto) (db : Database) (t : Patricia) : Prop where
  storable : Storable t
  nodes : ∀ t', t'.Within t → isInner t' = true → 32 ≤ size C t' ∨ t' = t →
    hashOf C t' ≠ zeros 32 ∧ db.disk.lookup (hashOf C t') = some (encode (item C t'))

theorem closed_onDisk : Closed C (OnDisk C db) := by
  intro t t' ht hw hi hl
  exact ⟨storable_of_within ht.storable hw hi, nodes_within ht.nodes hw hl⟩

theorem serves_onDisk (hcleans : db.cleans = none) (hflushed : db.flushedHashCache = none)
    (hdirties : db.dirties = []) : Serves C (OnDisk C db) db := by
  intro t hi ht
  obtain ⟨hne, hdisk⟩ := ht.nodes t (within_self t) hi (.inr rfl)
  refine ⟨loaded C (some (hashOf C t)) t, ?_, isBranch_loaded hi _, ?_⟩
  · rw [Database.node, hcleans, hflushed, hdirties]
    simp only [bind_none, lookup_nil, hdisk]
    rw [if_neg hne, Database.mustDecodeNode, decodeNode_encode ht.storable hi]
  · exact rep_loaded ht.storable.typed hi ht fun t' hw hi' hl => closed_onDisk t t' ht hw hi' hl

end Geth.Trie.Holding
