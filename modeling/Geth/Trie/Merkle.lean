import Geth.Trie.Decode

namespace Geth.Trie.Merkle

open Lib.BigEndian Lib.Radix Common.Basic Rlp.Encode Rlp.Stream Rlp.Raw Encoding Decode List
open RadixTree (isValue_iff)

/-- The contents of a trie: a radix tree over the hex digits and the terminator. -/
abbrev Patricia := RadixTree 17 Bytes

/-- An encoded node as its parent refers to it: by hash if it takes 32 bytes or more. -/
def refItem (C : Crypto) : Item → Item
  | .str b => .str b
  | .list items =>
    if (encode (.list items)).length < 32 then .list items
    else .str (C.keccak256 (encode (.list items))).toList

def item (C : Crypto) : Patricia → Item
  | .nil => .str []
  | .value v => .str v
  | .short k c => .list [.str (hexToCompact k), refItem C (item C c)]
  | .full cs =>
    .list ((List.finRange 16).map (fun i => refItem C (item C (cs i.castSucc))) ++ [item C (cs terminator)])

def size (C : Crypto) (t : Patricia) : ℕ := (encode (item C t)).length

def hashOf (C : Crypto) (t : Patricia) : Hash := C.keccak256 (encode (item C t))

def isInner : Patricia → Bool
  | .short _ _ => true
  | .full _ => true
  | _ => false

/-- Whether a tree stands inside its parent's node. -/
def embeds (C : Crypto) (t : Patricia) : Bool := !isInner t || decide (size C t < 32)

/-- A tree as the database returns it: one node with its embedded ones. -/
def loaded (C : Crypto) (hash : Option Hash) : Patricia → Node
  | .nil => .nil
  | .value v => .value v
  | .short k c => .short k (if embeds C c then loaded C none c else .hash (hashOf C c)) { hash }
  | .full cs =>
    .full (fun i => if embeds C (cs i) then loaded C none (cs i) else .hash (hashOf C (cs i))) { hash }

def childNode (C : Crypto) (t : Patricia) : Node := if embeds C t then loaded C none t else .hash (hashOf C t)

/-- Keys and values are Go slices. -/
def Sized : Patricia → Prop
  | .nil => True
  | .value v => v.length < 2 ^ 63
  | .short k c => k.length < 2 ^ 63 ∧ Sized c
  | .full cs => ∀ i, Sized (cs i)

variable {C : Crypto} {α : Type} {i : Nibble}

variable {t c : Patricia} {k : List Nibble} {cs : Nibble → Patricia}
    {ref : Bytes → Except NodeError (Node × Bytes)}

theorem item_of_isInner (h : isInner t = true) : ∃ items, item C t = .list items := by
  cases t with
  | nil => cases h
  | value v => cases h
  | short k c => exact ⟨_, rfl⟩
  | full cs => exact ⟨_, rfl⟩

theorem refItem_item (t : Patricia) :
    refItem C (item C t) = if embeds C t then item C t else .str (hashOf C t).toList := by
  by_cases h : isInner t = true
  · obtain ⟨items, hi⟩ := item_of_isInner (C := C) h
    simp [embeds, h, size, hashOf, hi, refItem]
  · cases t <;> simp [isInner] at h <;> simp [embeds, isInner, item, refItem]

theorem embeds_of_not_isInner (h : isInner t = false) : embeds C t = true := by
  simp [embeds, h]

theorem embeds_iff (h : isInner t = true) : embeds C t = true ↔ size C t < 32 := by
  simp [embeds, h]

theorem isInner_of_embeds_eq_false (h : embeds C t = false) : isInner t = true := by
  by_contra hn
  rw [embeds_of_not_isInner (Bool.eq_false_iff.mpr hn)] at h
  cases h

theorem encode_refItem_length_le (h : t.isValue = false) : (encode (refItem C (item C t))).length ≤ 33 := by
  rw [refItem_item]
  split
  · next he =>
    by_cases hi : isInner t = true
    · have hsize := (embeds_iff hi).mp he
      rw [size] at hsize
      omega
    cases t with
    | nil => simp [item, encode, encodeString, encodeStringHeader, puthead]
    | value v => cases h
    | short k c => exact (hi rfl).elim
    | full cs => exact (hi rfl).elim
  rw [encode, encodeString_of_length (by simp)]
  simp [encodeStringHeader, puthead]

theorem typed_not_value (h : t.Typed terminator) : t.isValue = false := by
  cases t with
  | value v => exact h.elim
  | nil => rfl
  | short k c => rfl
  | full cs => rfl

theorem sized_value_length (h : Sized t) (hv : t.isValue = true) :
    (encode (item C t)).length ≤ 2 ^ 63 + 9 := by
  obtain ⟨v, rfl⟩ := isValue_iff.mp hv
  have hv : v.length < 2 ^ 63 := h
  have hle := encodeString_length_le_add (b := v) (by omega)
  rw [item, encode]
  omega

theorem encodeAll_short_length (ht : (RadixTree.short k c).Typed terminator) (h : Sized (.short k c)) :
    (encodeAll [.str (hexToCompact k), refItem C (item C c)]).length < 2 ^ 64 - 9 := by
  obtain ⟨hk, hc⟩ := h
  have hcompact := hexToCompact_length_le k
  have hkey := encodeString_length_le_add (b := hexToCompact k) (by omega)
  have hchild : (encode (refItem C (item C c))).length ≤ 2 ^ 63 + 9 := by
    obtain ⟨_, hv⟩ | ⟨_, htyped⟩ := ht
    · obtain ⟨v, rfl⟩ := isValue_iff.mp hv
      exact sized_value_length (C := C) hc rfl
    have hle := encode_refItem_length_le (C := C) (typed_not_value htyped)
    omega
  simp only [encodeAll, encode, length_append, length_nil]
  omega

theorem encodeAll_children_length (ht : (RadixTree.full cs).Typed terminator) :
    (encodeAll ((List.finRange 16).map fun i => refItem C (item C (cs i.castSucc)))).length ≤ 16 * 33 := by
  have hle := encodeAll_map_length_le (f := fun i : Fin 16 => refItem C (item C (cs i.castSucc)))
    (l := finRange 16) (fun i _ =>
      encode_refItem_length_le (typed_not_value (ht.2 i.castSucc (castSucc_ne_terminator i))))
  rwa [length_finRange] at hle

theorem encodeAll_full_length (ht : (RadixTree.full cs).Typed terminator) (h : Sized (.full cs)) :
    (encodeAll ((List.finRange 16).map (fun i => refItem C (item C (cs i.castSucc))) ++
      [item C (cs terminator)])).length < 2 ^ 64 - 9 := by
  have hchildren := encodeAll_children_length (C := C) ht
  have hlast : (encode (item C (cs terminator))).length ≤ 2 ^ 63 + 9 := by
    obtain hn | hv := ht.1
    · simp [hn, item, encode, encodeString, encodeStringHeader, puthead]
    · exact sized_value_length (h terminator) hv
  rw [encodeAll_append, length_append, encodeAll, encodeAll, append_nil]
  omega

theorem size_lt (ht : t.Typed terminator) (h : Sized t) : size C t < 2 ^ 64 := by
  rw [size]
  cases t with
  | nil => simp [item, encode, encodeString, encodeStringHeader, puthead]
  | value v => exact ht.elim
  | short k c =>
    have hall := encodeAll_short_length (C := C) ht h
    have hle := encode_list_length_le (lt_of_lt_of_le hall (by omega))
    rw [item]
    omega
  | full cs =>
    have hall := encodeAll_full_length (C := C) ht h
    have hle := encode_list_length_le (lt_of_lt_of_le hall (by omega))
    rw [item]
    omega

theorem copyInto_toList (h : Hash) : copyInto 32 h.toList = h := by
  apply List.Vector.toList_injective
  simp [copyInto]

theorem decodeRef_child {decode} (ht : t.Typed terminator) (hs : Sized t) (rest : Bytes)
    (hdec : isInner t = true → size C t < 32 → decode (encode (item C t) ++ rest) = .ok (loaded C none t)) :
    decodeRef decode (encode (refItem C (item C t)) ++ rest) = .ok (childNode C t, rest) := by
  rw [refItem_item, childNode]
  by_cases he : embeds C t = true
  · rw [if_pos he, if_pos he]
    by_cases hi : isInner t = true
    · have hsize := (embeds_iff hi).mp he
      obtain ⟨items, hitem⟩ := item_of_isInner hi
      have hsplit := split_encode (item C t) rest (size_lt ht hs)
      have hlist : kindOf (item C t) = .list := by
        rw [hitem]
        rfl
      have hlen : (encode (item C t) ++ rest).length - rest.length = size C t := by
        rw [length_append, Nat.add_sub_cancel, size]
      rw [decodeRef, hsplit, hlist]
      simp only [Except.mapError, bind, Except.bind, ↓reduceIte, hlen, hdec hi hsize]
      rw [if_neg (by simp only [hashLen]; omega)]
      rfl
    cases t with
    | nil =>
      have hsplit := split_encodeString (b := []) (by simp) (by simp) rest
      rw [item, encode, decodeRef, hsplit]
      rfl
    | value v => exact ht.elim
    | short k c => exact (hi rfl).elim
    | full cs => exact (hi rfl).elim
  have hsplit := split_encodeString (b := (hashOf C t).toList) (by simp) (by simp) rest
  rw [if_neg he, if_neg he, encode, decodeRef, hsplit]
  simp only [Except.mapError, bind, Except.bind]
  rw [if_neg (by simp), if_neg, if_pos (by simp), copyInto_toList]
  simp only [true_and]
  intro hnil
  have hlen := congrArg length hnil
  simp at hlen

theorem decodeChildren_encodeAll {f : α → Item} {g : α → Node} {l : List α}
    (href : ∀ x ∈ l, ∀ rest, ref (encode (f x) ++ rest) = .ok (g x, rest)) (i : ℕ) (rest : Bytes) :
    decodeChildren ref i l.length (encodeAll (l.map f) ++ rest) = .ok (l.map g, rest) := by
  induction l generalizing i with
  | nil => rfl
  | cons x l ih =>
    rw [map_cons, encodeAll, length_cons, decodeChildren, append_assoc, href x (by simp)]
    simp only [Except.mapError, bind, Except.bind]
    rw [ih (fun y hy => href y (by simp [hy]))]
    rfl

theorem valid_key (h : (RadixTree.short k c).Typed terminator) : ValidKey k := by
  obtain ⟨hk, _⟩ | ⟨hk, _⟩ := h
  · exact .inr hk
  · exact .inl hk

theorem item_value_or_nil (h : t = .nil ∨ t.isValue = true) :
    ∃ v, item C t = .str v ∧ (t = .nil → v = []) ∧ (t.isValue = true → t = .value v) := by
  obtain rfl | hv := h
  · exact ⟨[], rfl, fun _ => rfl, fun h => by cases h⟩
  obtain ⟨v, rfl⟩ := isValue_iff.mp hv
  exact ⟨v, rfl, fun h => (by cases h), fun _ => rfl⟩

/-- No value is empty. -/
def Filled : Patricia → Prop
  | .nil => True
  | .value v => v ≠ []
  | .short _ c => Filled c
  | .full cs => ∀ i, Filled (cs i)

theorem loaded_value_or_nil (h : t = .nil ∨ t.isValue = true) (hf : Filled t)
    {v} (hv : item C t = .str v) : lastChild v = childNode C t := by
  obtain rfl | hval := h
  · cases hv
    rfl
  obtain ⟨w, rfl⟩ := isValue_iff.mp hval
  cases hv
  rw [lastChild, if_pos (length_pos_of_ne_nil hf)]
  rfl

theorem decodeShort_encode (ht : (RadixTree.short k c).Typed terminator) (hs : Sized (.short k c))
    (href : c.Typed terminator → ∀ rest,
      ref (encode (refItem C (item C c)) ++ rest) = .ok (childNode C c, rest)) (hash : Option Hash) :
    decodeShort ref hash (encodeAll [.str (hexToCompact k), refItem C (item C c)]) =
      .ok (.short k (childNode C c) { hash }) := by
  have hall := encodeAll_short_length (C := C) ht hs
  have hkey := compactToHex_hexToCompact (valid_key ht)
  simp only [encodeAll, append_nil, length_append] at hall ⊢
  rw [encode, decodeShort, splitString_encode _ _ (by rw [encode] at hall; omega)]
  simp only [Except.mapError, bind, Except.bind, hkey]
  obtain ⟨hterm, hv⟩ | ⟨hmem, hc⟩ := ht
  · obtain ⟨v, rfl⟩ := isValue_iff.mp hv
    have hsplit := splitString_encode v [] (by simp only [item, refItem, encode] at hall; omega)
    rw [append_nil] at hsplit
    rw [if_pos (hasTerm_of_terminated hterm), item, refItem, encode, hsplit]
    rfl
  have hr := href hc []
  rw [append_nil] at hr
  rw [if_neg (by rw [hasTerm_of_not_mem hmem]; simp), hr]
  rfl

theorem decodeFull_encode
    (ht : (RadixTree.full cs).Typed terminator) (hs : Sized (.full cs)) (hf : Filled (.full cs))
    (href : ∀ i, i ≠ terminator → ∀ rest,
      ref (encode (refItem C (item C (cs i))) ++ rest) = .ok (childNode C (cs i), rest))
    (hash : Option Hash) : decodeFull ref hash (encodeAll ((List.finRange 16).map
      (fun i => refItem C (item C (cs i.castSucc))) ++ [item C (cs terminator)])) =
      .ok (.full (fun i => childNode C (cs i)) { hash }) := by
  have hall := encodeAll_full_length (C := C) ht hs
  obtain ⟨v, hv, _, _⟩ := item_value_or_nil ht.1
  have hclds := decodeChildren_encodeAll (f := fun i : Fin 16 => refItem C (item C (cs i.castSucc)))
    (g := fun i : Fin 16 => childNode C (cs i.castSucc)) (l := finRange 16)
    (fun i _ => href i.castSucc (castSucc_ne_terminator i)) 0 (encodeAll [item C (cs terminator)])
  rw [length_finRange] at hclds
  rw [encodeAll_append, length_append, hv, encodeAll, encode, encodeAll, append_nil] at hall
  have hsplit := splitString_encode v [] (by omega)
  rw [append_nil] at hsplit
  rw [encodeAll_append, decodeFull, hclds, hv, encodeAll, encode, encodeAll, append_nil]
  simp only [bind, Except.bind, hsplit, Except.mapError, pure, Except.pure]
  congr 2
  funext i
  by_cases hi : i = terminator
  · rw [if_pos hi, hi]
    exact loaded_value_or_nil ht.1 (hf terminator) hv
  obtain ⟨j, rfl⟩ := exists_castSucc hi
  rw [if_neg hi]
  simp

theorem size_child_lt_short (hi : isInner c = true)
    (hsmall : size C c < 32) : size C c < size C (.short k c) := by
  have hle := length_encodeAll [.str (hexToCompact k), refItem C (item C c)]
  have hkey := length_pos_of_ne_nil (encode_ne_nil (.str (hexToCompact k)))
  have href : refItem C (item C c) = item C c := by
    rw [refItem_item, if_pos ((embeds_iff hi).mpr hsmall)]
  rw [encodeAll, encodeAll, encodeAll, href, length_append, append_nil] at hle
  rw [size, size, item, href]
  omega

theorem length_le_encodeAll_of_mem {i : Item} {items} (h : i ∈ items) :
    (encode i).length ≤ (encodeAll items).length := by
  induction items with
  | nil => cases h
  | cons j items ih =>
    rw [encodeAll, length_append]
    obtain rfl | h := mem_cons.mp h
    · omega
    have hle := ih h
    omega

theorem size_child_lt_full (hi : i ≠ terminator)
    (hin : isInner (cs i) = true) (hsmall : size C (cs i) < 32) : size C (cs i) < size C (.full cs) := by
  obtain ⟨j, rfl⟩ := exists_castSucc hi
  have href : refItem C (item C (cs j.castSucc)) = item C (cs j.castSucc) := by
    rw [refItem_item, if_pos ((embeds_iff hin).mpr hsmall)]
  have hmem : item C (cs j.castSucc) ∈ (finRange 16).map (fun i => refItem C (item C (cs i.castSucc))) := by
    rw [mem_map]
    exact ⟨j, mem_finRange j, href⟩
  have hle := length_le_encodeAll_of_mem hmem
  have hlast := length_pos_of_ne_nil (encode_ne_nil (item C (cs terminator)))
  have hall := length_encodeAll ((finRange 16).map
    (fun i => refItem C (item C (cs i.castSucc))) ++ [item C (cs terminator)])
  rw [encodeAll_append, length_append, encodeAll, encodeAll, append_nil] at hall
  rw [size, size, item]
  omega

theorem decodeFrom_encode (ht : t.Typed terminator) (hs : Sized t) (hf : Filled t)
    (hi : isInner t = true) (hash : Option Hash) (rest : Bytes) {fuel : ℕ} (hfuel : size C t ≤ fuel) :
    decodeFrom fuel hash (encode (item C t) ++ rest) = .ok (loaded C hash t) := by
  have hsize := size_lt (C := C) ht hs
  have hpos : 0 < size C t := length_pos_of_ne_nil (encode_ne_nil _)
  induction t generalizing hash rest fuel with
  | nil => cases hi
  | value v => cases hi
  | short k c ih =>
    obtain ⟨fuel, rfl⟩ : ∃ f, fuel = f + 1 := ⟨fuel - 1, by omega⟩
    have hall := encodeAll_short_length (C := C) ht hs
    have href (hc : c.Typed terminator) (r : Bytes) :
        decodeRef (decodeFrom fuel none) (encode (refItem C (item C c)) ++ r) = .ok (childNode C c, r) := by
      apply decodeRef_child hc hs.2
      intro hin hsmall
      have hlt := size_child_lt_short (k := k) hin hsmall
      exact ih hc hs.2 hf hin none r (by omega) (by omega) (length_pos_of_ne_nil (encode_ne_nil _))
    rw [decodeFrom, if_neg (by simp [encode_ne_nil]), item]
    rw [size, item] at hsize
    rw [splitList_encode _ _ hsize]
    simp only [Except.mapError, bind, Except.bind]
    rw [countValues_encodeAll _ (by omega)]
    rw [decodeShort_encode ht hs href]
    rfl
  | full cs ih =>
    obtain ⟨fuel, rfl⟩ : ∃ f, fuel = f + 1 := ⟨fuel - 1, by omega⟩
    have hall := encodeAll_full_length (C := C) ht hs
    have href (i : Nibble) (hne : i ≠ terminator) (r : Bytes) :
        decodeRef (decodeFrom fuel none) (encode (refItem C (item C (cs i))) ++ r) =
          .ok (childNode C (cs i), r) := by
      apply decodeRef_child (ht.2 i hne) (hs i)
      intro hin hsmall
      have hlt := size_child_lt_full hne hin hsmall
      exact ih i (ht.2 i hne) (hs i) (hf i) hin none r (by omega) (by omega)
        (length_pos_of_ne_nil (encode_ne_nil _))
    rw [decodeFrom, if_neg (by simp [encode_ne_nil]), item]
    rw [size, item] at hsize
    rw [splitList_encode _ _ hsize]
    simp only [Except.mapError, bind, Except.bind]
    rw [countValues_encodeAll _ (by omega)]
    simp only [length_append, length_map, length_finRange, length_cons,
      length_nil, Except.toOption, Option.getD_some, Nat.zero_add, Nat.reduceAdd]
    rw [decodeFull_encode ht hs hf href]
    rfl

/-- A tree whose nodes can be written and read back. -/
structure Storable (t : Patricia) : Prop where
  typed : t.Typed terminator
  sized : Sized t
  filled : Filled t

theorem storable_nil : Storable .nil := ⟨trivial, trivial, trivial⟩

theorem Storable.below (h : Storable (.short k c)) (hc : c.Typed terminator) : Storable c :=
  ⟨hc, h.sized.2, h.filled⟩

theorem Storable.child (h : Storable (.full cs)) (hi : i ≠ terminator) : Storable (cs i) :=
  ⟨h.typed.2 i hi, h.sized i, h.filled i⟩

theorem decodeNode_encode (h : Storable t) (hi : isInner t = true) (hash : Option Hash) :
    decodeNode hash (encode (item C t)) = .ok (loaded C hash t) := by
  have hdec := decodeFrom_encode (C := C) h.typed h.sized h.filled hi hash [] (le_rfl)
  rwa [append_nil] at hdec

def encodings (C : Crypto) (t : Patricia) : Set Bytes :=
  { b | ∃ t', t'.Within t ∧ isInner t' = true ∧ b = encode (item C t') }

theorem encodings_short : encodings C c ⊆ encodings C (.short k c) := by
  rintro b ⟨t', ht', hi, rfl⟩
  exact ⟨t', RadixTree.within_short ht', hi, rfl⟩

theorem encodings_full (i : Nibble) : encodings C (cs i) ⊆ encodings C (.full cs) := by
  rintro b ⟨t', ht', hi, rfl⟩
  exact ⟨t', RadixTree.within_full ht', hi, rfl⟩

theorem mem_encodings (h : isInner t = true) : encode (item C t) ∈ encodings C t :=
  ⟨t, RadixTree.within_self t, h, rfl⟩

section

variable {S : Set Bytes}

theorem encode_item_inj {t t'} (h : Storable t) (h' : Storable t')
    (heq : encode (item C t) = encode (item C t')) : item C t = item C t' :=
  (encode_append_inj _ _ [] [] (size_lt h.typed h.sized) (size_lt h'.typed h'.sized) (by rw [heq])).1

theorem item_hash_of_hashOf_eq (hinj : Set.InjOn C.keccak256 S) {t t'} (h : Storable t)
    (h' : Storable t') (ht : encodings C t ⊆ S) (ht' : encodings C t' ⊆ S) (hi : isInner t = true)
    (hi' : isInner t' = true) (heq : hashOf C t = hashOf C t') : item C t = item C t' :=
  encode_item_inj h h' (hinj (ht (mem_encodings hi)) (ht' (mem_encodings hi')) heq)

theorem embedded_ne_hash {t t'} (ht : t.Typed terminator) (he : embeds C t = true) :
    item C t ≠ .str (hashOf C t').toList := by
  intro heq
  by_cases hi : isInner t = true
  · obtain ⟨items, hitem⟩ := item_of_isInner hi
    rw [hitem] at heq
    cases heq
  cases t with
  | nil =>
    have hlen := congrArg length (Item.str.inj heq)
    simp at hlen
  | value v => exact ht
  | short k c => exact hi rfl
  | full cs => exact hi rfl

theorem item_of_refItem_eq (hinj : Set.InjOn C.keccak256 S) {t t'} (h : Storable t)
    (h' : Storable t') (ht : encodings C t ⊆ S) (ht' : encodings C t' ⊆ S)
    (heq : refItem C (item C t) = refItem C (item C t')) : item C t = item C t' := by
  rw [refItem_item, refItem_item] at heq
  by_cases he : embeds C t = true <;> by_cases he' : embeds C t' = true
  · rwa [if_pos he, if_pos he'] at heq
  · rw [if_pos he, if_neg he'] at heq
    exact (embedded_ne_hash h.typed he heq).elim
  · rw [if_neg he, if_pos he'] at heq
    exact (embedded_ne_hash h'.typed he' heq.symm).elim
  rw [if_neg he, if_neg he'] at heq
  exact item_hash_of_hashOf_eq hinj h h' ht ht' (isInner_of_embeds_eq_false (Bool.eq_false_iff.mpr he))
    (isInner_of_embeds_eq_false (Bool.eq_false_iff.mpr he'))
    (List.Vector.toList_injective (Item.str.inj heq))

theorem last_of_item_eq {t t'} (h : t = .nil ∨ t.isValue = true)
    (h' : t' = .nil ∨ t'.isValue = true) (hf : Filled t) (hf' : Filled t')
    (heq : item C t = item C t') : t = t' := by
  obtain rfl | hv := h <;> obtain rfl | hv' := h'
  · rfl
  · obtain ⟨w, rfl⟩ := isValue_iff.mp hv'
    exact (hf' (Item.str.inj heq).symm).elim
  · obtain ⟨v, rfl⟩ := isValue_iff.mp hv
    exact (hf (Item.str.inj heq)).elim
  obtain ⟨v, rfl⟩ := isValue_iff.mp hv
  obtain ⟨w, rfl⟩ := isValue_iff.mp hv'
  rw [Item.str.inj heq]

/-- What is encoded determines the whole tree, as long as no two of the
nodes in play have the same hash. -/
theorem item_inj (hinj : Set.InjOn C.keccak256 S) {t t'} (h : Storable t)
    (h' : Storable t') (ht : encodings C t ⊆ S) (ht' : encodings C t' ⊆ S)
    (heq : item C t = item C t') : t = t' := by
  induction t generalizing t' with
  | nil =>
    cases t' with
    | nil => rfl
    | value v => exact h'.typed.elim
    | short k c => cases heq
    | full cs => cases heq
  | value v => exact h.typed.elim
  | short k c ih =>
    cases t' with
    | nil => cases heq
    | value v => exact h'.typed.elim
    | full cs =>
      have hlen := congrArg length (Item.list.inj heq)
      simp at hlen
    | short k' c' =>
      obtain ⟨hkey, hrest⟩ := cons.inj (Item.list.inj heq)
      obtain ⟨hchild, _⟩ := cons.inj hrest
      obtain rfl := hexToCompact_inj (valid_key h.typed) (valid_key h'.typed) (Item.str.inj hkey)
      congr 1
      obtain ⟨hterm, hv⟩ | ⟨hmem, hc⟩ := h.typed
      · obtain ⟨_, hv'⟩ | ⟨hmem', _⟩ := h'.typed
        · obtain ⟨v, rfl⟩ := isValue_iff.mp hv
          obtain ⟨w, rfl⟩ := isValue_iff.mp hv'
          rw [Item.str.inj hchild]
        · exact (hmem' hterm.mem).elim
      obtain ⟨hterm', _⟩ | ⟨_, hc'⟩ := h'.typed
      · exact (hmem hterm'.mem).elim
      have hb := h.below hc
      have hb' := h'.below hc'
      have hs := encodings_short.trans ht
      have hs' := encodings_short.trans ht'
      exact ih hb hb' hs hs' (item_of_refItem_eq hinj hb hb' hs hs' hchild)
  | full cs ih =>
    cases t' with
    | nil => cases heq
    | value v => exact h'.typed.elim
    | short k c =>
      have hlen := congrArg length (Item.list.inj heq)
      simp at hlen
    | full cs' =>
      obtain ⟨hmap, hlast⟩ := append_inj (Item.list.inj heq) (by simp)
      congr 1
      funext i
      by_cases hi : i = terminator
      · subst i
        exact last_of_item_eq h.typed.1 h'.typed.1 (h.filled terminator) (h'.filled terminator)
          (cons.inj hlast).1
      obtain ⟨j, rfl⟩ := exists_castSucc hi
      have hj := map_inj_left.mp hmap j (mem_finRange j)
      have hc := h.child hi
      have hc' := h'.child hi
      have hs := (encodings_full j.castSucc).trans ht
      have hs' := (encodings_full j.castSucc).trans ht'
      exact ih _ hc hc' hs hs' (item_of_refItem_eq hinj hc hc' hs hs' hj)

theorem hashOf_inj (hinj : Set.InjOn C.keccak256 S) {t t'} (h : Storable t)
    (h' : Storable t') (ht : encodings C t ⊆ S) (ht' : encodings C t' ⊆ S) (hi : isInner t = true)
    (hi' : isInner t' = true) (heq : hashOf C t = hashOf C t') : t = t' :=
  item_inj hinj h h' ht ht' (item_hash_of_hashOf_eq hinj h h' ht ht' hi hi' heq)

end

end Geth.Trie.Merkle
