import Geth.Trie.Stack

namespace Geth.Types.DeriveSha

open Lib.BigEndian Common.Basic Rlp.Encode Rlp.Stream Trie.Encoding
open Trie.Merkle Trie.Operations Trie.FiniteMap Trie.Stack List Nat UInt64 Function

def appendUint64 (b : Bytes) (i : UInt64) : Bytes :=
  if i = 0 then b ++ [0x80]
  else if i < 0x80 then b ++ [UInt8.ofNat i.toNat]
  else if i < 0x100 then b ++ 0x81 :: beBytes 1 i.toNat
  else if i < 0x10000 then b ++ 0x82 :: beBytes 2 i.toNat
  else if i < 0x1000000 then b ++ 0x83 :: beBytes 3 i.toNat
  else if i < 0x100000000 then b ++ 0x84 :: beBytes 4 i.toNat
  else if i < 0x10000000000 then b ++ 0x85 :: beBytes 5 i.toNat
  else if i < 0x1000000000000 then b ++ 0x86 :: beBytes 6 i.toNat
  else if i < 0x100000000000000 then b ++ 0x87 :: beBytes 7 i.toNat
  else b ++ 0x88 :: beBytes 8 i.toNat

def indexKey (i : ℕ) : Bytes := appendUint64 [] (UInt64.ofNat i)

/-- The order of insertion: from one to 0x7f, then zero, then from 0x80 on. -/
def deriveOrder (n : ℕ) : List ℕ :=
  List.range' 1 (min (n - 1) 0x7f) ++ (if 0 < n then [0] else []) ++ List.range' 0x80 (n - 0x80)

def derivePairs (items : List Bytes) : List (Bytes × Bytes) :=
  (deriveOrder items.length).map fun i => (indexKey i, items.getD i [])

def reset (_hasher : Builder) : Builder := newStackTrie none

def deriveSha (C : Crypto) (items : List Bytes) (hasher : Builder) : Except StackError Hash := do
  let b ← (reset hasher).updateAll C (derivePairs items)
  let (h, _) ← b.hash C
  return h

section

theorem byteLen_eq {v k : ℕ} (hlow : 256 ^ k ≤ v) (hhigh : v < 256 ^ (k + 1)) : byteLen v = k + 1 := by
  refine le_antisymm (byteLen_le hhigh) ?_
  by_contra hlt
  have hle : 256 ^ byteLen v ≤ 256 ^ k := Nat.pow_le_pow_right (by decide) (by omega)
  exact absurd (lt_pow_byteLen v) (not_lt.mpr (hle.trans hlow))

theorem appendUint64_eq (b : Bytes) (i : UInt64) : appendUint64 b i = b ++ encodeUint i := by
  have hpiece (k : ℕ) (hlow : 256 ^ k ≤ i.toNat) (hhigh : i.toNat < 256 ^ (k + 1)) :
      b ++ (0x80 + UInt8.ofNat (k + 1)) :: beBytes (k + 1) i.toNat =
        b ++ (0x80 + UInt8.ofNat (byteLen i.toNat)) :: natBytes i.toNat := by
    rw [natBytes, byteLen_eq hlow hhigh]
  have hbound : i.toNat < 256 ^ 8 := i.toNat_lt
  rw [appendUint64, encodeUint]
  by_cases h0 : i = 0
  · rw [if_pos h0, if_pos h0]
  rw [if_neg h0, if_neg h0]
  by_cases h1 : i < 0x80
  · rw [if_pos h1, if_pos h1]
  rw [if_neg h1, if_neg h1]
  simp only [lt_iff_toNat_lt, reduceToNat, not_lt] at h1 ⊢
  split
  · exact hpiece 0 (by omega) (by omega)
  split
  · exact hpiece 1 (by omega) (by omega)
  split
  · exact hpiece 2 (by omega) (by omega)
  split
  · exact hpiece 3 (by omega) (by omega)
  split
  · exact hpiece 4 (by omega) (by omega)
  split
  · exact hpiece 5 (by omega) (by omega)
  split
  · exact hpiece 6 (by omega) (by omega)
  · exact hpiece 7 (by omega) (by omega)

variable {i j : ℕ}

theorem toNat_index (h : i < 2 ^ 64) : (UInt64.ofNat i).toNat = i := by
  rw [toNat_ofNat', mod_eq_of_lt h]

theorem indexKey_eq (h : i < 2 ^ 64) : indexKey i = encode (.str (natBytes i)) := by
  rw [indexKey, appendUint64_eq, encodeUint_eq, toNat_index h]
  rfl

theorem indexKey_zero : indexKey 0 = [0x80] := rfl

theorem indexKey_small (hpos : 0 < i) (h : i < 0x80) : indexKey i = [UInt8.ofNat i] := by
  have hnat := toNat_index (i := i) (by omega)
  have hne : UInt64.ofNat i ≠ 0 := by
    intro h0
    rw [h0] at hnat
    exact absurd hnat.symm hpos.ne'
  have hlt : UInt64.ofNat i < 128 := by
    rw [lt_iff_toNat_lt, hnat]
    exact h
  rw [indexKey, appendUint64_eq, encodeUint, if_neg hne, if_pos hlt, hnat]
  rfl

theorem indexKey_large (hlow : 0x80 ≤ i) (hhigh : i < 2 ^ 64) :
    indexKey i = (0x80 + UInt8.ofNat (byteLen i)) :: natBytes i := by
  have hnat := toNat_index hhigh
  have hlt : ¬ UInt64.ofNat i < 128 := by
    rw [lt_iff_toNat_lt, hnat]
    exact not_lt.mpr hlow
  have hne : UInt64.ofNat i ≠ 0 := by
    intro h0
    rw [h0] at hlt
    exact hlt (by decide)
  rw [indexKey, appendUint64_eq, encodeUint, if_neg hne, if_neg hlt, hnat]
  rfl

theorem lt_of_beNat_lt {a b} (hlen : a.length = b.length) (h : beNat a < beNat b) : a < b := by
  induction a generalizing b with
  | nil =>
    rw [eq_nil_of_length_eq_zero hlen.symm] at h
    exact absurd h (lt_irrefl _)
  | cons x a ih =>
    cases b with
    | nil => cases hlen
    | cons y b =>
      have hlen' : a.length = b.length := succ.inj hlen
      rw [beNat, beNat, hlen'] at h
      have ha := beNat_lt a
      have hb := beNat_lt b
      rw [hlen'] at ha
      rw [cons_lt_cons_iff]
      obtain hxy | hxy | hxy := lt_trichotomy x.toNat y.toNat
      · exact .inl (UInt8.lt_iff_toNat_lt.mpr hxy)
      · refine .inr ⟨UInt8.toNat_inj.mp hxy, ih hlen' ?_⟩
        rw [hxy] at h
        exact lt_of_add_lt_add_left h
      have hle : (y.toNat + 1) * 256 ^ b.length ≤ x.toNat * 256 ^ b.length :=
        mul_le_mul_right _ hxy
      rw [succ_mul] at hle
      omega

theorem tag_toNat (h : i < 2 ^ 64) : (0x80 + UInt8.ofNat (byteLen i)).toNat = 128 + byteLen i := by
  have hle : byteLen i ≤ 8 := byteLen_le (by simpa using h)
  have htag : (0x80 : UInt8).toNat = 128 := rfl
  rw [UInt8.toNat_add, UInt8.toNat_ofNat', htag]
  omega

theorem byteLen_mono (h : i ≤ j) : byteLen i ≤ byteLen j :=
  byteLen_le (h.trans_lt (lt_pow_byteLen j))

theorem indexKey_lt_large (hlow : 0x80 ≤ i) (hlt : i < j) (hhigh : j < 2 ^ 64) :
    indexKey i < indexKey j := by
  rw [indexKey_large hlow (hlt.trans hhigh), indexKey_large (hlow.trans hlt.le) hhigh,
    cons_lt_cons_iff, UInt8.lt_iff_toNat_lt, tag_toNat (hlt.trans hhigh), tag_toNat hhigh]
  obtain hlen | hlen := (byteLen_mono hlt.le).lt_or_eq
  · exact .inl (by omega)
  refine .inr ⟨by rw [hlen], lt_of_beNat_lt ?_ ?_⟩
  · rw [natBytes, natBytes, beBytes_length, beBytes_length, hlen]
  · rwa [beNat_natBytes, beNat_natBytes]

theorem indexKey_lt_of_small (hi : i < 0x80) (hj : 0x80 ≤ j) (hhigh : j < 2 ^ 64) :
    indexKey i < indexKey j := by
  have hpos : 0 < byteLen j := byteLen_pos (by omega)
  rw [indexKey_large hj hhigh]
  obtain rfl | hi0 := Nat.eq_zero_or_pos i
  · rw [indexKey_zero, cons_lt_cons_iff, UInt8.lt_iff_toNat_lt, tag_toNat hhigh]
    exact .inl (by simp only [UInt8.reduceToNat]; omega)
  rw [indexKey_small hi0 hi, cons_lt_cons_iff, UInt8.lt_iff_toNat_lt, tag_toNat hhigh,
    UInt8.toNat_ofNat', mod_eq_of_lt (by omega)]
  exact .inl (by omega)

theorem indexKey_lt_zero (hpos : 0 < i) (hi : i < 0x80) : indexKey i < indexKey 0 := by
  rw [indexKey_small hpos hi, indexKey_zero, cons_lt_cons_iff, UInt8.lt_iff_toNat_lt,
    UInt8.toNat_ofNat', mod_eq_of_lt (by omega)]
  exact .inl (by simp only [UInt8.reduceToNat]; omega)

theorem indexKey_lt_small (hpos : 0 < i) (hlt : i < j) (hj : j < 0x80) : indexKey i < indexKey j := by
  rw [indexKey_small hpos (hlt.trans hj), indexKey_small (hpos.trans hlt) hj, cons_lt_cons_iff,
    UInt8.lt_iff_toNat_lt, UInt8.toNat_ofNat', UInt8.toNat_ofNat', mod_eq_of_lt (by omega),
    mod_eq_of_lt (by omega)]
  exact .inl hlt

theorem encode_index_length (hi : i < 2 ^ 64) : (encode (.str (natBytes i))).length ≤ 17 := by
  have hle : byteLen i ≤ 8 := byteLen_le (by simpa using hi)
  have hlen : (natBytes i).length ≤ 8 := by rwa [natBytes, beBytes_length]
  have hbound := encodeString_length_le_add (b := natBytes i) (by omega)
  rw [encode]
  omega

theorem eq_of_indexKey_starts (hi : i < 2 ^ 64) (hj : j < 2 ^ 64) (h : indexKey i <+: indexKey j) :
    i = j := by
  obtain ⟨rest, hrest⟩ := h
  have hshort {k : ℕ} (hk : k < 2 ^ 64) : (encode (.str (natBytes k))).length < 2 ^ 64 :=
    (encode_index_length hk).trans_lt (by decide)
  rw [indexKey_eq hi, indexKey_eq hj, ← append_nil (encode (.str (natBytes j)))] at hrest
  obtain ⟨heq, -⟩ := encode_append_inj _ _ _ _ (hshort hi) (hshort hj) hrest
  exact natBytes_injective (Item.str.inj heq)

theorem indexKey_injOn (hi : i < 2 ^ 64) (hj : j < 2 ^ 64) (h : indexKey i = indexKey j) : i = j :=
  eq_of_indexKey_starts hi hj (h ▸ prefix_rfl)

end

section

variable {n i : ℕ}

theorem mem_deriveOrder : i ∈ deriveOrder n ↔ i < n := by
  have hzero : (i ∈ if 0 < n then [0] else []) ↔ 0 < n ∧ i = 0 := by
    split <;> simp_all
  rw [deriveOrder, mem_append, mem_append, hzero, mem_range'_1, mem_range'_1]
  omega

theorem pairwise_deriveOrder (hn : n < 2 ^ 64) :
    (deriveOrder n).Pairwise fun i j => indexKey i < indexKey j := by
  have hrange (start len : ℕ) : (range' start len).Pairwise (· < ·) := pairwise_lt_range'
  have hmem {start len i : ℕ} (hi : i ∈ range' start len) : start ≤ i ∧ i < start + len :=
    mem_range'_1.mp hi
  have hzero {i : ℕ} (hi : i ∈ if 0 < n then [0] else []) : i = 0 := by
    split at hi <;> simp_all
  rw [deriveOrder]
  refine pairwise_append.mpr ⟨pairwise_append.mpr ⟨?_, ?_, ?_⟩, ?_, ?_⟩
  · refine (hrange 1 _).imp_of_mem fun {i j} hi hj hlt => ?_
    have hi' := hmem hi
    have hj' := hmem hj
    exact indexKey_lt_small (by omega) hlt (by omega)
  · split <;> simp
  · intro i hi j hj
    have hi' := hmem hi
    rw [hzero hj]
    exact indexKey_lt_zero (by omega) (by omega)
  · refine (hrange 0x80 _).imp_of_mem fun {i j} hi hj hlt => ?_
    have hi' := hmem hi
    have hj' := hmem hj
    exact indexKey_lt_large hi'.1 hlt (by omega)
  intro i hi j hj
  have hj' := hmem hj
  refine indexKey_lt_of_small ?_ hj'.1 (by omega)
  obtain hi | hi := mem_append.mp hi
  · have hi' := hmem hi
    omega
  rw [hzero hi]
  decide

end

section

variable {C : Crypto} {items : List Bytes}

theorem sorted_derivePairs (hlen : items.length < 2 ^ 63) (hne : ∀ b ∈ items, b ≠ []) :
    Sorted (derivePairs items) := by
  have hbound {i : ℕ} (hi : i ∈ deriveOrder items.length) : i < 2 ^ 64 := by
    have hi' := mem_deriveOrder.mp hi
    omega
  refine ⟨?_, ?_, ?_⟩
  · intro p hp
    obtain ⟨i, hi, rfl⟩ := mem_map.mp hp
    have hi' := mem_deriveOrder.mp hi
    rw [getD_eq_getElem?_getD, getElem?_eq_getElem hi']
    exact hne _ (getElem_mem hi')
  · rw [derivePairs, pairwise_map]
    exact pairwise_deriveOrder (by omega)
  intro p hp q hq hpre
  obtain ⟨i, hi, rfl⟩ := mem_map.mp hp
  obtain ⟨j, hj, rfl⟩ := mem_map.mp hq
  rw [eq_of_indexKey_starts (hbound hi) (hbound hj) hpre]

theorem lookup_map_key {α : Type} {key : ℕ → Bytes} {f : ℕ → α} {l : List ℕ} {i : ℕ} (hi : i ∈ l)
    (hinj : ∀ j ∈ l, key i = key j → i = j) : (l.map fun j => (key j, f j)).lookup (key i) = some (f i) := by
  induction l with
  | nil => cases hi
  | cons j l ih =>
    rw [map_cons, lookup_cons]
    split
    next heq => rw [hinj j mem_cons_self (eq_of_beq heq)]
    next hne =>
      refine ih ((mem_cons.mp hi).resolve_left ?_) fun k hk => hinj k (mem_cons_of_mem _ hk)
      rintro rfl
      simp at hne

theorem lookup_derivePairs (hlen : items.length < 2 ^ 63) {i : ℕ} (hi : i < items.length) :
    (derivePairs items).lookup (indexKey i) = items[i]? := by
  have hinj : ∀ j ∈ deriveOrder items.length, indexKey i = indexKey j → i = j := by
    intro j hj hkey
    have hj' := mem_deriveOrder.mp hj
    exact indexKey_injOn (by omega) (by omega) hkey
  have hfound := lookup_map_key (f := fun i => items.getD i []) (mem_deriveOrder.mpr hi) hinj
  rw [derivePairs, hfound, getD_eq_getElem?_getD, getElem?_eq_getElem hi]
  rfl

theorem lookup_derivePairs_of_ne {key} (hkey : ∀ i < items.length, key ≠ indexKey i) :
    (derivePairs items).lookup key = none := by
  rw [lookup_eq_none_iff]
  intro p hp
  obtain ⟨i, hi, rfl⟩ := mem_map.mp hp
  rw [bne_iff_ne]
  exact hkey i (mem_deriveOrder.mp hi)

def indexTree (items : List Bytes) : Patricia := (trees (updates (derivePairs items))).now

section

variable (hlen : items.length < 2 ^ 63) (hne : ∀ b ∈ items, b ≠ [])
    (hsize : ∀ b ∈ items, b.length < 2 ^ 63)
include hlen hne hsize

theorem models_indexTree : Models (indexTree items) fun key => (derivePairs items).lookup key := by
  have hmem : ∀ op ∈ updates (derivePairs items), op.InMemory := by
    intro op hop
    obtain ⟨p, hp, rfl⟩ := mem_map.mp hop
    obtain ⟨i, hi, rfl⟩ := mem_map.mp hp
    have hi' := mem_deriveOrder.mp hi
    have hlong : i < 2 ^ 64 := by omega
    refine ⟨?_, ?_⟩
    · have hkey := encode_index_length hlong
      rw [← indexKey_eq hlong] at hkey
      dsimp only
      rw [keybytesToHex_length]
      omega
    dsimp only
    rw [getD_eq_getElem?_getD, getElem?_eq_getElem hi']
    exact hsize _ (getElem_mem hi')
  have hm := (related_run hmem).now
  have hcontents : (maps (updates (derivePairs items))).now = contents (updates (derivePairs items)) := rfl
  rw [hcontents, contents_updates (sorted_derivePairs hlen hne)] at hm
  exact hm

omit hlen hne hsize in
/-- Deriving never panics, and the result is the root of the tree. -/
theorem deriveSha_eq (C : Crypto) (hlen : items.length < 2 ^ 63) (hne : ∀ b ∈ items, b ≠ [])
    (hasher : Builder) : deriveSha C items hasher = .ok (rootHash C (indexTree items)) := by
  obtain ⟨st, W, hrun, hready⟩ := ready_of_updateAll (sorted_derivePairs hlen hne) none
  obtain ⟨b, hb⟩ := builder_hash_spec none hready
  rw [deriveSha, reset, hrun]
  simp only [bind, Except.bind, Option.map_none, hb]
  rfl

theorem eq_of_indexTree_eq {items'} (hlen' : items'.length < 2 ^ 63) (hne' : ∀ b ∈ items', b ≠ [])
    (hsize' : ∀ b ∈ items', b.length < 2 ^ 63) (h : indexTree items = indexTree items') :
    items = items' := by
  have hm := models_indexTree hlen hne hsize
  have hm' := models_indexTree hlen' hne' hsize'
  have hlookup (key : Bytes) : (derivePairs items).lookup key = (derivePairs items').lookup key := by
    rw [← hm.get key, ← hm'.get key, h]
  -- an index within one list is an index within the other, with the same item
  have hone {l l' : List Bytes} (hl : l.length < 2 ^ 63) (hl' : l'.length < 2 ^ 63)
      (hsame : ∀ key, (derivePairs l).lookup key = (derivePairs l').lookup key) {i : ℕ}
      (hi : i < l.length) : l'[i]? = l[i]? := by
    have hfound := lookup_derivePairs hl hi
    rw [hsame] at hfound
    by_cases hi' : i < l'.length
    · rw [← lookup_derivePairs hl' hi', hfound]
    have hnone : (derivePairs l').lookup (indexKey i) = none := by
      refine lookup_derivePairs_of_ne fun j hj hkey => hi' ?_
      rwa [indexKey_injOn (by omega) (by omega) hkey]
    rw [hnone, getElem?_eq_getElem hi] at hfound
    cases hfound
  apply ext_getElem?
  intro i
  by_cases hi : i < items.length
  · exact (hone hlen hlen' hlookup hi).symm
  by_cases hi' : i < items'.length
  · exact hone hlen' hlen (fun key => (hlookup key).symm) hi'
  · rw [getElem?_eq_none (not_lt.mp hi), getElem?_eq_none (not_lt.mp hi')]

end

/-- Without collisions among the nodes of the two trees, equal roots have equal trees. -/
theorem rootHash_inj {S} (hC : Ideal C S) {t t'} {m m'}
    (hm : Models t m) (hm' : Models t' m') (ht : encodings C t ⊆ S) (ht' : encodings C t' ⊆ S)
    (h : rootHash C t = rootHash C t') : t = t' := by
  have hempty {t : Patricia} (hi : isInner t = true) (ht : encodings C t ⊆ S) : hashOf C t ≠ emptyRoot :=
    hC.ne_emptyRoot _ (ht (mem_encodings hi))
  have hinner {t : Patricia} {m : Contents} (hm : Models t m) : t = .nil ∨ isInner t = true :=
    or_iff_not_imp_left.mpr (isInner_of_typed hm.typed)
  obtain rfl | hi := hinner hm
  · obtain rfl | hi' := hinner hm'
    · rfl
    rw [rootHash_inner hi'] at h
    exact absurd h.symm (hempty hi' ht')
  rw [rootHash_inner hi] at h
  obtain rfl | hi' := hinner hm'
  · exact absurd h (hempty hi ht)
  rw [rootHash_inner hi'] at h
  exact hashOf_inj hC.injOn hm.storable hm'.storable ht ht' hi hi' h

end

def encodedItems (items : Slice (Slice UInt8)) : List Bytes := items.data.map Slice.data

/-- The keys are inserted in increasing order, none a beginning of another, and deriving the hash
does not panic. The result is the root of every trie that maps the encoding of each index to its
item and nothing else. Lists with the same result are the same. -/
theorem deriveSha_commits (C : Crypto) (items : Slice (Slice UInt8)) (hne : ∀ b ∈ items.data, b.data ≠ [])
    (hasher : Builder) :
    Sorted (derivePairs (encodedItems items)) ∧
    (∃ root, deriveSha C (encodedItems items) hasher = .ok root ∧
      ∀ ops, (∀ op ∈ ops, op.InMemory) → Ideal C (inPlay C ops) →
        (∀ i < items.data.length, contents ops (encodeUint (UInt64.ofNat i)) = (encodedItems items)[i]?) →
        (∀ key, (∀ i < items.data.length, key ≠ encodeUint (UInt64.ofNat i)) → contents ops key = none) →
        ∃ s r, run C ops = .ok s ∧ hashTrie C s.db s.root = .ok (root, r)) ∧
    ∀ (items' : Slice (Slice UInt8)) (hasher' : Builder) (S : Set Bytes),
      (∀ b ∈ items'.data, b.data ≠ []) → Ideal C S → encodings C (indexTree (encodedItems items)) ⊆ S →
      encodings C (indexTree (encodedItems items')) ⊆ S →
      deriveSha C (encodedItems items) hasher = deriveSha C (encodedItems items') hasher' →
      items = items' := by
  have hfacts (items : Slice (Slice UInt8)) (hne : ∀ b ∈ items.data, b.data ≠ []) :
      (encodedItems items).length < 2 ^ 63 ∧ (∀ b ∈ encodedItems items, b ≠ []) ∧
        ∀ b ∈ encodedItems items, b.length < 2 ^ 63 := by
    refine ⟨by simpa [encodedItems] using items.len_lt, fun b hb => ?_, fun b hb => ?_⟩
    · obtain ⟨s, hs, rfl⟩ := mem_map.mp hb
      exact hne s hs
    obtain ⟨s, hs, rfl⟩ := mem_map.mp hb
    exact s.len_lt
  obtain ⟨hlen, hne₁, hsize⟩ := hfacts items hne
  have hcount : (encodedItems items).length = items.data.length := length_map _
  have hkey (i : ℕ) : encodeUint (ofNat i) = indexKey i := by
    rw [indexKey, appendUint64_eq, nil_append]
  refine ⟨sorted_derivePairs hlen hne₁, ⟨_, deriveSha_eq C hlen hne₁ hasher, ?_⟩, ?_⟩
  · intro ops hops hC hitems hothers
    have hm := (related_run hops).now
    have hsame : contents ops = fun key => (derivePairs (encodedItems items)).lookup key := by
      funext key
      by_cases hex : ∃ i < items.data.length, key = indexKey i
      · obtain ⟨i, hi, rfl⟩ := hex
        rw [lookup_derivePairs hlen (hcount ▸ hi), ← hkey]
        exact hitems i hi
      have hno : ∀ i < items.data.length, key ≠ indexKey i := fun i hi h => hex ⟨i, hi, h⟩
      rw [lookup_derivePairs_of_ne (hcount ▸ hno)]
      exact hothers key fun i hi => hkey i ▸ hno i hi
    have hcontents : (maps ops).now = contents ops := rfl
    rw [hcontents, hsame] at hm
    rw [(models_indexTree hlen hne₁ hsize).unique hm]
    obtain ⟨s, hs, hf⟩ := follows_run hC hops (Set.Subset.refl _)
    obtain ⟨n, d, hhash, -⟩ := hashTrie_spec s.db hf.root hm.typed hm.proper
    exact ⟨s, _, hs, hhash⟩
  intro items' hasher' S hne' hC ht ht' heq
  obtain ⟨hlen', hne₁', hsize'⟩ := hfacts items' hne'
  rw [deriveSha_eq C hlen hne₁, deriveSha_eq C hlen' hne₁', Except.ok.injEq] at heq
  have htree := rootHash_inj hC (models_indexTree hlen hne₁ hsize)
    (models_indexTree hlen' hne₁' hsize') ht ht' heq
  have hlist := eq_of_indexTree_eq hlen hne₁ hsize hlen' hne₁' hsize' htree
  have hdata : items.data = items'.data :=
    map_injective_iff.mpr (fun _ _ => Slice.ext) hlist
  exact Slice.ext hdata

section

def leafItem (key value : Bytes) : Item := .list [.str key, .str value]

def fullItem (children : List Item) : Item :=
  .list (children ++ replicate (17 - children.length) (.str []))

def listLeafHash : Hash := hexToHash 0xec8788e2d3f23299435e2a2dc2935cdcc61d9f099293a1a1a1d6beb8359b4861
def lowHash : Hash := hexToHash 0x1f139f1f38d995fc70ff093e49a19a9e4c53bb880f3dbc72fd728aedbfbdc9df
def midHash : Hash := hexToHash 0x7d3e030a8d9c890823033e853dbbf9f7b337f17a8ec3bd71e8a5d743cda46da7

/-- The node with the indices 0 and 0x80. -/
def highItem (x : UInt8) : Item := fullItem [leafItem [0x20] [7], leafItem [0x20, 0x80] [x]]

def manyRoot (x : UInt8) : Item :=
  fullItem (.str lowHash.toList :: replicate 7 (.str midHash.toList) ++ [highItem x])

/-- The nodes of the tries below with their hashes, as they were recorded. -/
def recordedNodes : List (Item × Hash) :=
  [(leafItem [0x20, 0x80] longValue, hexToHash 0xea0de2aa1cfd8e1dda1edcca558800b707175a2eaa24739f9607954bd4003e0e),
    (fullItem (leafItem [0x31] [8] :: replicate 7 (.str []) ++ [.str listLeafHash.toList]),
      hexToHash 0x5eb600aa03f1ef59f48dc879d658d11c0bf702cb20206ef33f6293e329d8690e),
    (leafItem [0x31] [8], hexToHash 0x7009b370fdafddbb4ed272099ef9d7f43a95073670cdb11450000c491f9f9598),
    (leafItem [0x30] longValue, listLeafHash),
    (fullItem (fullItem [.str [], leafItem [0x20] [8], leafItem [0x20] [9]] :: replicate 7 (.str []) ++
      [.str listLeafHash.toList]), hexToHash 0xf4b838ee3e0f32bb043541ca37331f1dd5133def739e5c4ff91fe00957fdedaf),
    (fullItem [.str [], leafItem [0x20] [8], leafItem [0x20] [9]],
      hexToHash 0xd5dc56fb2c9e4544ba29a5214d323ff52f200a8a6e456dff2f393c03c577dc0d),
    (leafItem [0x20] [8], hexToHash 0xfc58d8d0b9cc881d3dfd75739f1f9e8e19c2876057951717f78505db3693cd70),
    (leafItem [0x20] [9], hexToHash 0x071cae1a2a192787fd1ced8747490c2802b09c9cdd0db7a433687409865166a0),
    (leafItem [0x20] [7], hexToHash 0xd366bb1134536da82319aac6561e9b71a25dcb888c3959591876b1dfa9c644a9),
    (fullItem (.str [] :: replicate 15 (leafItem [0x20] [7])), lowHash),
    (fullItem (replicate 16 (leafItem [0x20] [7])), midHash),
    (highItem 7, hexToHash 0xc17750cb5727469b1e9d413fd6b1e0b8b2ceba0c64762f361426d958c4b47d86),
    (leafItem [0x20, 0x80] [7], hexToHash 0x6aad1d6cdb452aafcd150be0f297831223290252b10dfd9b9eb85f5751761b6b),
    (manyRoot 7, hexToHash 0x07e728c47ee2f7aa2e468373a73b504754cc39b4e2343c74cc61350b787e3643),
    (highItem 8, hexToHash 0xa434922b226b19c49c5c7021b32a4793884090dca517f1056dc70f786357bae6),
    (leafItem [0x20, 0x80] [8], hexToHash 0x0ad269cdb8662c9ff6b05a6ce1a54e34448ec30db1c41f567b87393098cdb3d5),
    (manyRoot 8, hexToHash 0xf9111ce9131704fbc2073e6b0eea054088a1b930e4a01fdac62e4c5d68c7e869)]

def recordedEncodings : List Bytes := recordedNodes.map fun r => encode r.1

def listCrypto : Crypto := Crypto.ofTables (recordedNodes.map fun r => (encode r.1, r.2)) []

theorem listCrypto_ideal {S : Set Bytes} (hS : ∀ b ∈ S, b ∈ recordedEncodings) : Ideal listCrypto S :=
  ideal_of_list hS (by decide +kernel)

def threeItems : Slice (Slice UInt8) :=
  ⟨[⟨longValue, by decide⟩, ⟨[8], by decide⟩, ⟨[9], by decide⟩], by decide⟩

def threeOps : List Op := [.tryUpdate [0x80] longValue, .tryUpdate [1] [8], .tryUpdate [2] [9]]

/-- One item past index 0x7f. -/
def manyItems (x : UInt8) : Slice (Slice UInt8) :=
  ⟨replicate 128 ⟨[7], by decide⟩ ++ [⟨[x], by simp⟩], by simp⟩

theorem manyItems_encodings : ∀ x ∈ [(7 : UInt8), 8],
    ∀ b ∈ nodeEncodings listCrypto (indexTree (encodedItems (manyItems x))), b ∈ recordedEncodings := by
  decide +kernel

/-- Three items have the root of the trie they are inserted into, and lists that
differ past index 0x7f have different roots. -/
theorem deriveSha_commits_lists :
    (∃ root s r, deriveSha listCrypto [longValue, [8], [9]] (newStackTrie none) = .ok root ∧
      run listCrypto threeOps = .ok s ∧ hashTrie listCrypto s.db s.root = .ok (root, r)) ∧
    Sorted (derivePairs (encodedItems (manyItems 7))) ∧
    deriveSha listCrypto (encodedItems (manyItems 7)) (newStackTrie none) ≠
      deriveSha listCrypto (encodedItems (manyItems 8)) (newStackTrie none) := by
  have hmany (x : UInt8) : ∀ b ∈ (manyItems x).data, b.data ≠ [] := by simp [manyItems]
  obtain ⟨-, ⟨root, hroot, htrie⟩, -⟩ :=
    deriveSha_commits listCrypto threeItems (by decide) (newStackTrie none)
  obtain ⟨hsorted, -, hdiffer⟩ := deriveSha_commits listCrypto (manyItems 7) (hmany 7) (newStackTrie none)
  refine ⟨?_, hsorted, fun heq => ?_⟩
  · have hops : ∀ op ∈ threeOps, op.InMemory := by
      simp [threeOps, Op.InMemory, keybytesToHex_length, longValue]
    have hC : Ideal listCrypto (inPlay listCrypto threeOps) := by
      have hsub : ∀ b ∈ threeOps.inits.flatMap fun pre => nodeEncodings listCrypto (trees pre).now,
          b ∈ recordedEncodings := by
        decide +kernel
      exact listCrypto_ideal fun b hb => hsub b (mem_inits_of_inPlay hb)
    have hcontents : contents threeOps =
        update (update (update (fun _ => none) [0x80] (some longValue)) [1] (some [8])) [2] (some [9]) := rfl
    have hitems : ∀ i < threeItems.data.length,
        contents threeOps (encodeUint (ofNat i)) = (encodedItems threeItems)[i]? := by
      decide +kernel
    have hothers : ∀ key, (∀ i < threeItems.data.length, key ≠ encodeUint (ofNat i)) →
        contents threeOps key = none := by
      intro key hkey
      have hzero : key ≠ [0x80] := hkey 0 (by decide)
      have hone : key ≠ [1] := hkey 1 (by decide)
      have htwo : key ≠ [2] := hkey 2 (by decide)
      rw [hcontents, update_of_ne htwo, update_of_ne hone, update_of_ne hzero]
    obtain ⟨s, r, hs, hr⟩ := htrie _ hops hC hitems hothers
    exact ⟨root, s, r, hroot, hs, hr⟩
  have hin (x : UInt8) (hx : x ∈ [(7 : UInt8), 8]) :
      encodings listCrypto (indexTree (encodedItems (manyItems x))) ⊆ { b | b ∈ recordedEncodings } :=
    fun b hb => manyItems_encodings x hx b (mem_nodeEncodings hb)
  have hsame := hdiffer (manyItems 8) (newStackTrie none) _ (hmany 8) (listCrypto_ideal fun _ hb => hb)
    (hin 7 mem_cons_self) (hin 8 (mem_cons_of_mem _ mem_cons_self)) heq
  exact absurd (congrArg (fun items => (items.data.getLast?).map Slice.data) hsame) (by simp [manyItems])

end

end Geth.Types.DeriveSha
