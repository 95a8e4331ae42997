import Geth.Trie.Represents

namespace Geth.Trie.Hashing

open Lib.Radix Common.Basic Rlp.Encode Encoding Decode Merkle NodeStore Hasher
open Represents Function List
open RadixTree (isValue_iff isValue)

variable {C : Crypto} {S : Patricia → Prop} {f b : Bool} {c : Patricia}

/-- What stands for a tree in its parent, or for a whole trie. -/
def reference (C : Crypto) (f : Bool) (t : Patricia) : Hashed :=
  if isInner t = true ∧ (f = true ∨ 32 ≤ size C t) then .hashNode (hashOf C t) else .node (item C t)

theorem reference_item (t : Patricia) : (reference C false t).item = refItem C (item C t) := by
  rw [reference, refItem_item]
  by_cases he : embeds C t = true
  · rw [if_pos he, if_neg]
    · rfl
    rintro ⟨hi, hf | hl⟩
    · cases hf
    · exact absurd ((embeds_iff hi).mp he) (not_lt.mpr hl)
  have hi := isInner_of_embeds_eq_false (Bool.eq_false_iff.mpr he)
  have hl : 32 ≤ size C t := not_lt.mp (fun h => he ((embeds_iff hi).mpr h))
  rw [if_neg he, if_pos ⟨hi, .inr hl⟩]
  rfl

variable {t : Patricia} {fl : NodeFlag} {n : Node}

theorem nodeToHash_item (hi : isInner t = true) : nodeToHash C (item C t) f = reference C f t := by
  rw [nodeToHash, reference]
  by_cases hsmall : (encode (item C t)).length < 32 ∧ f = false
  · rw [if_pos hsmall, if_neg]
    rintro ⟨_, hf | hl⟩
    · rw [hf] at hsmall
      cases hsmall.2
    · exact absurd hsmall.1 (not_lt.mpr hl)
  have hf : f = true ∨ 32 ≤ size C t := by
    by_contra hn
    rw [not_or, not_le, Bool.not_eq_true] at hn
    exact hsmall ⟨hn.2, hn.1⟩
  rw [if_neg hsmall, if_pos ⟨hi, hf⟩]
  rfl

/-- Where a value or the rest of a typed tree may stand. -/
def TypedOrValue (t : Patricia) : Prop := t.isValue = true ∨ t.Typed terminator

theorem typedOrValue_below {k} (h : (RadixTree.short k c).Typed terminator) : TypedOrValue c := by
  obtain ⟨_, hv⟩ | ⟨_, hc⟩ := h
  · exact .inl hv
  · exact .inr hc

theorem typedOrValue_child {cs} (h : (RadixTree.full cs : Patricia).Typed terminator) (i : Nibble) :
    TypedOrValue (cs i) := by
  by_cases hi : i = terminator
  · subst i
    obtain hn | hv := h.1
    · exact .inr (by rw [hn]; trivial)
    · exact .inl hv
  · exact .inr (h.2 i hi)

theorem flagOk_keep (h : FlagOk C S f b fl t) (hi : isInner t = true) (d : HashCache) {withFlags}
    (hrep : ∀ fl', FlagOk C S f true fl' t → Rep C S f true (withFlags fl') t) :
    (keep withFlags fl (reference C f t) d).1 = reference C f t ∧
      Rep C S f true (keep withFlags fl (reference C f t) d).2.1 t := by
  by_cases hf : f = true ∨ 32 ≤ size C t
  · have hr : reference C f t = .hashNode (hashOf C t) := if_pos ⟨hi, hf⟩
    rw [hr]
    refine ⟨rfl, hrep _ ⟨fun h' hh => ?_, h.clean, fun _ hn => by cases hn⟩⟩
    cases hh
    exact ⟨rfl, hf⟩
  have hr : reference C f t = .node (item C t) := if_neg (fun h => hf h.2)
  rw [hr]
  refine ⟨rfl, hrep _ ⟨fun h' hh => (by cases hh), h.clean, fun _ _ => ?_⟩⟩
  rw [not_or, not_le, Bool.not_eq_true] at hf
  exact hf

theorem recall_spec {h : Hash} (hfl : FlagOk C S f b fl t)
    (hh : fl.hash = some h) (hi : isInner t = true) (d : HashCache) :
    (knownHash n h d).1 = reference C f t := by
  obtain ⟨rfl, hf⟩ := hfl.hash h hh
  rw [reference, if_pos ⟨hi, hf⟩]
  rfl

theorem hashChildren_spec {g} (ts : Nibble → Patricia) (hg : ∀ i, i ≠ terminator → ∀ d,
      (g i d).1 = reference C false (ts i) ∧ Rep C S false true (g i d).2.1 (ts i))
    (cs : Nibble → Node) (l : List (Fin 16)) (d : HashCache) :
    (hashChildren g cs l d).1 = l.map (fun i => refItem C (item C (ts i.castSucc))) ∧
      (∀ i ∈ l, Rep C S false true ((hashChildren g cs l d).2.1 i.castSucc) (ts i.castSucc)) ∧
      (hashChildren g cs l d).2.1 terminator = cs terminator := by
  induction l generalizing d with
  | nil => exact ⟨rfl, fun i hi => (by cases hi), rfl⟩
  | cons i l ih =>
    have hne := castSucc_ne_terminator i
    obtain ⟨hitem, hrep⟩ := hg i.castSucc hne d
    obtain ⟨hitems, hreps, hlast⟩ := ih (g i.castSucc d).2.2
    simp only [hashChildren_cons]
    refine ⟨?_, fun j hj => ?_, ?_⟩
    · rw [map_cons, ← hitems, ← reference_item, ← hitem]
    · by_cases hji : j = i
      · subst j
        rw [update_self]
        exact hrep
      rw [update_of_ne (fun h => hji (Fin.castSucc_injective _ h))]
      exact hreps j ((mem_cons.mp hj).resolve_left hji)
    rw [update_of_ne (Ne.symm hne)]
    exact hlast

theorem rep_last (h : Rep C S f b n t) (ht : t = .nil ∨ t.isValue = true) :
    Rep C S f true n t ∧ (simplifyNode n).item = item C t := by
  cases h with
  | nil => exact ⟨.nil, rfl⟩
  | value v => exact ⟨.value v, rfl⟩
  | hash hi hf hS =>
    obtain rfl | hv := ht
    · cases hi
    obtain ⟨v, rfl⟩ := isValue_iff.mp hv
    cases hi
  | short hv hfl => obtain ht | ht := ht <;> cases ht
  | full hcs hfl => obtain ht | ht := ht <;> cases ht

theorem valItem_of_rep (h : Rep C S f b n t) (hne : t ≠ .nil) (child : Hashed) :
    valItem n child = child.item := by
  cases h with
  | nil => exact (hne rfl).elim
  | value v => rfl
  | hash _ _ _ => rfl
  | short _ _ => rfl
  | full _ _ => rfl

theorem hash_spec (h : Rep C S f b n t) (ht : TypedOrValue t) (hp : t.Proper) (d : HashCache) :
    (hash C n f d).1 = reference C f t ∧ Rep C S f true (hash C n f d).2.1 t := by
  induction h generalizing d with
  | nil => exact ⟨rfl, .nil⟩
  | value v => exact ⟨rfl, .value v⟩
  | hash hi hf hS => exact ⟨(if_pos ⟨hi, hf⟩).symm, .hash hi hf hS⟩
  | @short f b k v c fl hv hfl ih =>
    have ht := ht.resolve_left (by simp [isValue])
    cases hh : fl.hash with
    | some h =>
      rw [hash_short_some hh]
      refine ⟨recall_spec hfl hh rfl d, .short (hv.relax fun _ => ?_) ⟨hfl.hash, hfl.clean, ?_⟩⟩
      · simp [hh]
      · simp [hh]
    | none =>
      obtain ⟨hchild, hval⟩ := ih (typedOrValue_below ht) hp.2.2 d
      have hitem : Item.list [.str (hexToCompact k), valItem v (hash C v false d).1] =
          item C (.short k c) := by
        rw [valItem_of_rep hv hp.2.1, hchild, reference_item, Merkle.item]
      rw [hash_short_none hh, hitem, nodeToHash_item rfl]
      exact flagOk_keep hfl rfl _ fun fl' hfl' => .short hval hfl'
  | @full f b cs ts fl hcs hfl ih =>
    have ht := ht.resolve_left (by simp [isValue])
    cases hh : fl.hash with
    | some h =>
      rw [hash_full_some hh]
      refine ⟨recall_spec hfl hh rfl d, .full (fun i => (hcs i).relax fun _ => ?_) ⟨hfl.hash, hfl.clean, ?_⟩⟩
      · simp [hh]
      · simp [hh]
    | none =>
      obtain ⟨hitems, hreps, hlast⟩ := hashChildren_spec (g := fun i d => hash C (cs i) false d) ts
        (fun i hi d => ih i (.inr (ht.2 i hi)) (hp i) d) cs (finRange 16) d
      obtain ⟨hrl, hil⟩ := rep_last (hcs terminator) ht.1
      have hitem : Item.list ((hashChildren (fun i d => hash C (cs i) false d) cs (finRange 16) d).1 ++
          [(simplifyNode (cs terminator)).item]) = item C (.full ts) := by
        rw [hitems, hil, Merkle.item]
      rw [hash_full_none hh, hitem, nodeToHash_item rfl]
      refine flagOk_keep hfl rfl _ fun fl' hfl' => .full (fun i => ?_) hfl'
      by_cases hi : i = terminator
      · subst i
        rw [hlast]
        exact hrl
      obtain ⟨j, rfl⟩ := exists_castSucc hi
      exact hreps j (mem_finRange j)

/-- A tree as the committer hands it to the database. -/
def rawOf (C : Crypto) : Patricia → RawNode
  | .nil => .nil
  | .value v => .value v
  | .short k c => .short (hexToCompact k) (if embeds C c then rawOf C c else .hash (hashOf C c))
  | .full cs => .full fun i => if embeds C (cs i) then rawOf C (cs i) else .hash (hashOf C (cs i))

def rawChild (C : Crypto) (t : Patricia) : RawNode :=
  if embeds C t then rawOf C t else .hash (hashOf C t)

/-- What the committer returns for a tree. -/
def rawRef (C : Crypto) (f : Bool) (t : Patricia) : RawNode :=
  if f = true ∨ 32 ≤ size C t then .hash (hashOf C t) else rawOf C t

theorem rawRef_false (hi : isInner t = true) : rawRef C false t = rawChild C t := by
  rw [rawRef, rawChild]
  by_cases hl : 32 ≤ size C t
  · rw [if_pos (.inr hl), if_neg (fun he => absurd ((embeds_iff hi).mp he) (not_lt.mpr hl))]
  · rw [if_neg (by simpa using hl), if_pos ((embeds_iff hi).mpr (not_le.mp hl))]

theorem expandNode_rawOf (ht : TypedOrValue t) (hash : Option Hash) :
    expandNode hash (rawOf C t) = loaded C hash t := by
  induction t generalizing hash with
  | nil => rfl
  | value v => rfl
  | short k c ih =>
    have ht := ht.resolve_left (by simp [isValue])
    rw [rawOf, expandNode, loaded, compactToHex_hexToCompact (valid_key ht)]
    split
    · rw [ih (typedOrValue_below ht)]
    · rfl
  | full cs ih =>
    have ht := ht.resolve_left (by simp [isValue])
    rw [rawOf, expandNode, loaded]
    congr 1
    funext i
    split
    · exact ih i (typedOrValue_child ht i) none
    · rfl

theorem rawChild_item (h : (rawOf C t).item = Merkle.item C t) :
    (rawChild C t).item = refItem C (Merkle.item C t) := by
  rw [rawChild, refItem_item]
  split
  · exact h
  · rfl

theorem rawChild_ne_nil (h : t ≠ .nil) : rawChild C t ≠ .nil := by
  rw [rawChild]
  split
  · cases t with
    | nil => exact (h rfl).elim
    | value v => simp [rawOf]
    | short k c => simp [rawOf]
    | full cs => simp [rawOf]
  · simp

theorem short_item {key} {val} (h : val ≠ .nil) :
    (RawNode.short key val).item = .list [.str key, val.item] := by
  cases val with
  | nil => exact (h rfl).elim
  | value v => rfl
  | hash h => rfl
  | short k v => rfl
  | full cs => rfl

theorem item_full {cs} (h : (RadixTree.full cs : Patricia).Typed terminator) :
    Merkle.item C (.full cs) = .list ((finRange 17).map fun i => refItem C (Merkle.item C (cs i))) := by
  have hlast : Merkle.item C (cs terminator) = refItem C (Merkle.item C (cs terminator)) := by
    obtain hn | hv := h.1
    · rw [hn]
      rfl
    obtain ⟨v, hv⟩ := isValue_iff.mp hv
    rw [hv]
    rfl
  rw [Merkle.item, hlast, finRange_succ_last, map_append, map_map]
  rfl

theorem rawOf_item (ht : TypedOrValue t) (hp : t.Proper) : (rawOf C t).item = Merkle.item C t := by
  induction t with
  | nil => rfl
  | value v => rfl
  | short k c ih =>
    have ht := ht.resolve_left (by simp [isValue])
    rw [Merkle.item, ← rawChild_item (ih (typedOrValue_below ht) hp.2.2)]
    exact short_item (rawChild_ne_nil hp.2.1)
  | full cs ih =>
    have ht := ht.resolve_left (by simp [isValue])
    have hchild (i : Nibble) : (rawChild C (cs i)).item = refItem C (Merkle.item C (cs i)) :=
      rawChild_item (ih i (typedOrValue_child ht i) (hp i))
    have hraw : (rawOf C (.full cs)).item = .list ((finRange 17).map fun i => (rawChild C (cs i)).item) := rfl
    rw [hraw, item_full ht]
    simp only [hchild]

/-- Large trees that the database holds have all their large parts there. -/
def Closed (C : Crypto) (S : Patricia → Prop) : Prop :=
  ∀ t t', S t → t'.Within t → isInner t' = true → 32 ≤ size C t' → S t'

/-- What the committer hands over for a tree: nodes of it, and every node
with a hash that the database does not hold already. -/
structure Handed (C : Crypto) (S : Patricia → Prop) (f : Bool) (t : Patricia) (leaves : List Leaf) :
    Prop where
  sound : ∀ l ∈ leaves, ∃ t', t'.Within t ∧ isInner t' = true ∧ l.hash = hashOf C t' ∧ l.node = rawOf C t'
  complete : ∀ t', t'.Within t → isInner t' = true → 32 ≤ size C t' ∨ (f = true ∧ t' = t) →
    S t' ∨ ∃ l ∈ leaves, l.hash = hashOf C t'

theorem handed_of_held (hcl : Closed C S) (hS : S t) : Handed C S f t [] := by
  refine ⟨fun l hl => (by cases hl), fun t' hw hi hl => .inl ?_⟩
  obtain hl | ⟨_, rfl⟩ := hl
  · exact hcl t t' hS hw hi hl
  · exact hS

theorem handed_of_not_isInner (h : isInner t = false) : Handed C S f t [] := by
  refine ⟨fun l hl => (by cases hl), fun t' hw hi _ => ?_⟩
  cases t with
  | nil => cases hw; cases hi
  | value v => cases hw; cases hi
  | short k c => cases h
  | full cs => cases h

theorem handed_storeAfter (leaves : List Leaf) (hfl : FlagOk C S f true fl t) (hi : isInner t = true)
    (hsound : ∀ l ∈ leaves, ∃ t', t'.Within t ∧ isInner t' = true ∧ l.hash = hashOf C t' ∧
      l.node = rawOf C t')
    (hcomplete : ∀ t', t'.Within t → t' ≠ t → isInner t' = true → 32 ≤ size C t' →
      S t' ∨ ∃ l ∈ leaves, l.hash = hashOf C t') :
    (storeAfter leaves (rawOf C t) fl.hash).1 = rawRef C f t ∧
      Handed C S f t (storeAfter leaves (rawOf C t) fl.hash).2 := by
  cases hh : fl.hash with
  | none =>
    obtain ⟨rfl, hsmall⟩ := hfl.noted rfl hh
    have hlarge : ¬ (false = true ∨ 32 ≤ size C t) := by simpa using hsmall
    refine ⟨(if_neg hlarge).symm, ⟨?_, fun t' hw hi' hl => ?_⟩⟩
    · simpa [storeAfter, store] using hsound
    obtain hl | ⟨hf, _⟩ := hl
    · have hne : t' ≠ t := by
        rintro rfl
        omega
      simpa [storeAfter, store] using hcomplete t' hw hne hi' hl
    · cases hf
  | some h =>
    obtain ⟨rfl, hf⟩ := hfl.hash h hh
    refine ⟨(if_pos hf).symm, ⟨fun l hl => ?_, fun t' hw hi' hl => ?_⟩⟩
    · obtain hl | hl := mem_append.mp hl
      · exact hsound l hl
      obtain rfl := mem_singleton.mp hl
      exact ⟨t, RadixTree.within_self t, hi, rfl, rfl⟩
    by_cases hne : t' = t
    · subst t'
      exact .inr ⟨_, mem_append_right _ (mem_singleton.mpr rfl), rfl⟩
    obtain hl | ⟨_, heq⟩ := hl
    · obtain hS | ⟨l, hl, hlh⟩ := hcomplete t' hw hne hi' hl
      · exact .inl hS
      · exact .inr ⟨l, mem_append_left _ hl, hlh⟩
    · exact (hne heq).elim

theorem dirty_or_held (hfl : FlagOk C S f b fl t) :
    (∃ h, fl.hash = some h ∧ fl.dirty = false ∧ S t) ∨ fl.hash = none ∨ fl.dirty = true := by
  cases hh : fl.hash with
  | none => exact .inr (.inl rfl)
  | some h =>
    cases hd : fl.dirty with
    | true => exact .inr (.inr rfl)
    | false =>
      obtain ⟨_, hf⟩ := hfl.hash h hh
      obtain hS | ⟨hnf, hsmall⟩ := hfl.clean hd
      · exact .inl ⟨h, rfl, rfl, hS⟩
      obtain hf | hl := hf
      · rw [hnf] at hf
        cases hf
      · omega

def ChildHanded (C : Crypto) (S : Patricia → Prop) (t : Patricia)
    (r : Except Panic (RawNode × List Leaf)) : Prop :=
  ∃ leaves, r = .ok (rawChild C t, leaves) ∧ Handed C S false t leaves

theorem childHanded_hash (hcl : Closed C S) (hi : isInner t = true)
    (hf : false = true ∨ 32 ≤ size C t) (hS : S t) : ChildHanded C S t (.ok (.hash (hashOf C t), [])) := by
  refine ⟨[], ?_, handed_of_held hcl hS⟩
  rw [← rawRef_false hi, rawRef, if_pos hf]

theorem commitVal_spec (hcl : Closed C S) {v : Node} (h : Rep C S false b v c)
    (hc : c.Canon) (hs : c.isShort = false)
    (ih : isInner c = true → ∃ leaves, commit v = .ok (rawRef C false c, leaves) ∧
      Handed C S false c leaves) : ChildHanded C S c (commitVal v (commit v)) := by
  cases h with
  | nil => exact hc.elim
  | value w => exact ⟨[], rfl, handed_of_not_isInner rfl⟩
  | hash hi hf hS => exact childHanded_hash hcl hi hf hS
  | short hv hfl => cases hs
  | full hcs hfl =>
    obtain ⟨leaves, hcommit, hhanded⟩ := ih rfl
    rw [rawRef_false rfl] at hcommit
    exact ⟨leaves, hcommit, hhanded⟩

theorem commitChild_spec (hcl : Closed C S) (h : Rep C S false b n t) (ht : t.Typed terminator)
    (ih : isInner t = true → ∃ leaves, commit n = .ok (rawRef C false t, leaves) ∧
      Handed C S false t leaves) : ChildHanded C S t (commitChild n (commit n)) := by
  cases h with
  | nil => exact ⟨[], rfl, handed_of_not_isInner rfl⟩
  | value w => exact ht.elim
  | hash hi hf hS => exact childHanded_hash hcl hi hf hS
  | short hv hfl =>
    obtain ⟨leaves, hcommit, hhanded⟩ := ih rfl
    rw [rawRef_false rfl] at hcommit
    exact ⟨leaves, hcommit, hhanded⟩
  | full hcs hfl =>
    obtain ⟨leaves, hcommit, hhanded⟩ := ih rfl
    rw [rawRef_false rfl] at hcommit
    exact ⟨leaves, hcommit, hhanded⟩

theorem commitChildren_spec (cs : Nibble → Node) (ts : Nibble → Patricia) {g}
    (hg : ∀ i, i ≠ terminator → ChildHanded C S (ts i) (commitChild (cs i) (g i))) (l : List (Fin 16)) :
    ∃ kids leaves, commitChildren g cs l = .ok (kids, leaves) ∧
      (∀ i ∈ l, kids i.castSucc = rawChild C (ts i.castSucc)) ∧
      kids terminator = simplifyNode (cs terminator) ∧
      (∀ x ∈ leaves, ∃ i t', t'.Within (ts i) ∧ isInner t' = true ∧ x.hash = hashOf C t' ∧
        x.node = rawOf C t') ∧
      ∀ i ∈ l, ∀ t', t'.Within (ts i.castSucc) → isInner t' = true → 32 ≤ size C t' →
        S t' ∨ ∃ x ∈ leaves, x.hash = hashOf C t' := by
  induction l with
  | nil => exact ⟨_, [], rfl, fun i hi => (by cases hi), if_pos rfl, fun x hx => (by cases hx),
      fun i hi => by cases hi⟩
  | cons i l ih =>
    obtain ⟨kids, later, hrest, hkids, hlast, hsound, hcomplete⟩ := ih
    have hne := castSucc_ne_terminator i
    obtain ⟨leaves, hchild, hhanded⟩ := hg i.castSucc hne
    refine ⟨_, _, commitChildren_cons hchild hrest, fun j hj => ?_, ?_, fun x hx => ?_, fun j hj => ?_⟩
    · by_cases hji : j = i
      · subst j
        rw [update_self]
      rw [update_of_ne (fun h => hji (Fin.castSucc_injective _ h))]
      exact hkids j ((mem_cons.mp hj).resolve_left hji)
    · rw [update_of_ne (Ne.symm hne)]
      exact hlast
    · obtain hx | hx := mem_append.mp hx
      · obtain ⟨t', hw, hi, hh, hn⟩ := hhanded.sound x hx
        exact ⟨i.castSucc, t', hw, hi, hh, hn⟩
      · exact hsound x hx
    intro t' hw hi hl
    obtain rfl | hj := mem_cons.mp hj
    · obtain hS | ⟨x, hx, hh⟩ := hhanded.complete t' hw hi (.inl hl)
      · exact .inl hS
      · exact .inr ⟨x, mem_append_left _ hx, hh⟩
    obtain hS | ⟨x, hx, hh⟩ := hcomplete j hj t' hw hi hl
    · exact .inl hS
    · exact .inr ⟨x, mem_append_right _ hx, hh⟩

theorem simplifyNode_last (h : Rep C S f b n t)
    (ht : t = .nil ∨ t.isValue = true) : simplifyNode n = rawChild C t := by
  cases h with
  | nil => rfl
  | value v => rfl
  | hash hi _ _ =>
    obtain rfl | hv := ht
    · cases hi
    obtain ⟨v, rfl⟩ := isValue_iff.mp hv
    cases hi
  | short hv hfl => obtain ht | ht := ht <;> cases ht
  | full hcs hfl => obtain ht | ht := ht <;> cases ht

/-- Committing a hashed node returns the reference to its tree and hands
every node over that the database does not hold. -/
theorem commit_spec (hcl : Closed C S) (h : Rep C S f b n t) (hb : b = true)
    (ht : t.Typed terminator) (hc : t.Canon) (hi : isInner t = true) :
    ∃ leaves, commit n = .ok (rawRef C f t, leaves) ∧ Handed C S f t leaves := by
  induction h with
  | nil => cases hi
  | value v => cases hi
  | hash _ hf hS =>
    refine ⟨[], ?_, handed_of_held hcl hS⟩
    rw [rawRef, if_pos hf]
    rfl
  | @short f b k v c fl hv hfl ih =>
    subst hb
    obtain ⟨h, hh, hd, hS⟩ | hd := dirty_or_held hfl
    · obtain ⟨rfl, hf⟩ := hfl.hash h hh
      refine ⟨[], ?_, handed_of_held hcl hS⟩
      rw [commit_short_clean hh hd, rawRef, if_pos hf]
    obtain ⟨leaves, hval, hhanded⟩ := commitVal_spec hcl hv hc.2.1 hc.2.2 (fun hci =>
      ih rfl ((typedOrValue_below ht).resolve_left (by cases c <;> simp_all [isInner, isValue])) hc.2.1 hci)
    obtain ⟨hraw, hstored⟩ := handed_storeAfter leaves hfl rfl (fun x hx => by
        obtain ⟨t', hw, hrest⟩ := hhanded.sound x hx
        exact ⟨t', RadixTree.within_short hw, hrest⟩)
      (fun t' hw hne hi' hl => hhanded.complete t' (hw.resolve_left hne) hi' (.inl hl))
    refine ⟨_, ?_, hstored⟩
    rw [commit_short_dirty hd hval, ← hraw]
    rfl
  | @full f b cs ts fl hcs hfl ih =>
    subst hb
    obtain ⟨h, hh, hd, hS⟩ | hd := dirty_or_held hfl
    · obtain ⟨rfl, hf⟩ := hfl.hash h hh
      refine ⟨[], ?_, handed_of_held hcl hS⟩
      rw [commit_full_clean hh hd, rawRef, if_pos hf]
    obtain ⟨kids, leaves, hkids, hraws, hlast, hsound, hcomplete⟩ := commitChildren_spec cs ts
      (g := fun i => commit (cs i)) (S := S) (C := C) (fun i hne => by
        refine commitChild_spec hcl (hcs i) (ht.2 i hne) (fun hci => ?_)
        exact ih i rfl (ht.2 i hne) ((hc.1 i).resolve_left (by rintro hn; rw [hn] at hci; cases hci)) hci)
      (finRange 16)
    have hrawfull : RawNode.full kids = rawOf C (.full ts) := by
      rw [rawOf]
      congr 1
      funext i
      by_cases hi' : i = terminator
      · subst i
        rw [hlast]
        exact simplifyNode_last (hcs terminator) ht.1
      obtain ⟨j, rfl⟩ := exists_castSucc hi'
      exact hraws j (mem_finRange j)
    obtain ⟨hraw, hstored⟩ := handed_storeAfter leaves hfl rfl (fun x hx => by
        obtain ⟨i, t', hw, hrest⟩ := hsound x hx
        exact ⟨t', RadixTree.within_full hw, hrest⟩)
      (fun t' hw hne hi' hl => by
        obtain ⟨i, hw⟩ := hw.resolve_left hne
        by_cases hit : i = terminator
        · subst i
          exfalso
          obtain hn | hv := ht.1
          · rw [hn] at hw
            cases hw
            cases hi'
          obtain ⟨v, hv⟩ := isValue_iff.mp hv
          rw [hv] at hw
          cases hw
          cases hi'
        obtain ⟨j, rfl⟩ := exists_castSucc hit
        exact hcomplete j (mem_finRange j) t' hw hi' hl)
    refine ⟨_, ?_, hstored⟩
    rw [commit_full_dirty hd hkids, ← hraw, hrawfull]

end Geth.Trie.Hashing
