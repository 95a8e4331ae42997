import Geth.Trie.FiniteMap

namespace Geth.Trie.Stack

open Lib.BigEndian Lib.Radix Common.Basic Rlp.Encode Encoding Merkle NodeStore
open Operations Represents Holding FiniteMap Function List Nat
open RadixTree (within_short within_self within_full fork)

/-- The nodes of a stack trie, `absent` for a nil pointer. Keys are digits
without a terminator, and no child stands at the terminator's place. -/
inductive StackTrie where
  | absent
  | empty (keyOffset : ℕ)
  | branch (keyOffset : ℕ) (children : Nibble → StackTrie)
  | ext (keyOffset : ℕ) (key : List Nibble) (child : StackTrie)
  | leaf (keyOffset : ℕ) (key : List Nibble) (val : Bytes)
  | hashed (val : Bytes)

/-- The calls of `Put` on the database, in order. -/
abbrev Puts := List (Hash × Bytes)

def StackTrie.isAbsent : StackTrie → Bool
  | .absent => true
  | _ => false

/-- A hashed child inside its parent: as it is, or as a string with its hash. -/
def rawPart (val : Bytes) : Bytes := if val.length < 32 then val else encodeString val

def encodeList (parts : List Bytes) : Bytes :=
  puthead 0xC0 0xF7 parts.flatten.length ++ parts.flatten

/-- What the node is replaced by, and the write of a node that has a hash. -/
def finish (C : Crypto) (enc : Bytes) : Bytes × Puts :=
  if enc.length < 32 then (enc, []) else ((C.keccak256 enc).toList, [(C.keccak256 enc, enc)])

def hashChildren (hash : Nibble → Except Panic (Bytes × Puts)) (cs : Nibble → StackTrie) :
    List (Fin 16) → Except Panic (List Bytes × Puts)
  | [] => .ok ([], [])
  | i :: l =>
    if (cs i.castSucc).isAbsent then do
      let (parts, puts) ← hashChildren hash cs l
      return (encodeString [] :: parts, puts)
    else do
      let (val, puts) ← hash i.castSucc
      let (parts, puts') ← hashChildren hash cs l
      return (rawPart val :: parts, puts ++ puts')

/-- The value of the hashed node that the node becomes. -/
def hash (C : Crypto) : StackTrie → Except Panic (Bytes × Puts)
  | .hashed val => .ok (val, [])
  | .branch _ cs => do
    let (parts, puts) ← hashChildren (fun i => hash C (cs i)) cs (List.finRange 16)
    let (val, puts') := finish C (encodeList (parts ++ [encodeString []]))
    return (val, puts ++ puts')
  | .ext _ key child => do
    let (v, puts) ← hash C child
    let (val, puts') := finish C (encodeList [encodeString (hexToCompact key), rawPart v])
    return (val, puts ++ puts')
  | .leaf _ key v =>
    .ok (finish C (encodeList [encodeString (hexToCompact (key ++ [terminator])), encodeString v]))
  | .empty _ => .ok (emptyRoot.toList, [])
  | .absent => .error .nilPointer

def newLeaf (ko : ℕ) (key : List Nibble) (val : Bytes) : Except Panic StackTrie :=
  if ko ≤ key.length then .ok (.leaf ko (key.drop ko) val) else .error .sliceBounds

/-- Where the chunk of the node and the key from its offset on differ. -/
def getDiffIndex : List Nibble → List Nibble → Except Panic ℕ
  | [], _ => .ok 0
  | _ :: _, [] => .error .indexRange
  | a :: k, b :: key => if a = b then (getDiffIndex k key).map (· + 1) else .ok 0

theorem place_lt (i : ℕ) : i % 17 < 17 := Nat.mod_lt i (by decide)

def place (i : ℕ) : Nibble := ⟨i % 17, place_lt i⟩

def elder (cs : Nibble → StackTrie) : ℕ → Option Nibble
  | 0 => none
  | i + 1 => if (cs (place i)).isAbsent then elder cs i else some (place i)

/-- Elder siblings are unresolved: the nearest one is hashed. -/
def unresolve (C : Crypto) (cs : Nibble → StackTrie) (idx : Nibble) :
    Except Panic ((Nibble → StackTrie) × Puts) :=
  match elder cs idx.val with
  | none => .ok (cs, [])
  | some i => do
    let (val, puts) ← hash C (cs i)
    return (update cs i (.hashed val), puts)

/-- The children of a branch with the part that was there, hashed, and a new leaf. -/
def forkAt (origIdx newIdx : Nibble) (val : Bytes) (leaf : StackTrie) : Except Panic (Nibble → StackTrie) :=
  if origIdx = terminator ∨ newIdx = terminator then .error .indexRange
  else .ok (update (update (fun _ => .absent) origIdx (.hashed val)) newIdx leaf)

/-- A branch behind the part of the chunk that the two keys share. -/
def split (keyOffset : ℕ) (shared : List Nibble) (cs : Nibble → StackTrie) : StackTrie :=
  if shared = [] then .branch keyOffset cs
  else .ext keyOffset shared (.branch (keyOffset + shared.length) cs)

/-- A node is split where the key leaves its chunk `k`: `n` is what stood
behind that place. -/
def part (C : Crypto) (o diffidx : ℕ) (k key : List Nibble) (origIdx newIdx : Nibble) (n : StackTrie)
    (value : Bytes) : Except Panic (StackTrie × Puts) := do
  let (val, puts) ← hash C n
  let l ← newLeaf (o + diffidx + 1) key value
  let cs ← forkAt origIdx newIdx val l
  return (split o (k.take diffidx) cs, puts)

def insert (C : Crypto) : StackTrie → List Nibble → Bytes → Except Panic (StackTrie × Puts)
  | .branch o cs, key, value =>
    match key[o]? with
    | none => .error .indexRange
    | some idx =>
      if idx = terminator then .error .indexRange
      else do
        let (cs', puts) ← unresolve C cs idx
        let (child, puts') ← if (cs idx).isAbsent then do
            let l ← newLeaf (o + 1) key value
            .ok (l, [])
          else insert C (cs idx) key value
        return (.branch o (update cs' idx child), puts ++ puts')
  | .ext o k child, key, value => do
    let diffidx ← getDiffIndex k (key.drop o)
    match k[diffidx]?, key[diffidx + o]? with
    | none, _ => do
      let (child', puts) ← insert C child key value
      return (.ext o k child', puts)
    | some _, none => .error .indexRange
    | some origIdx, some newIdx =>
      part C o diffidx k key origIdx newIdx
        (if diffidx < k.length - 1 then .ext (diffidx + 1) (k.drop (diffidx + 1)) child else child) value
  | .leaf o k v, key, value => do
    let diffidx ← getDiffIndex k (key.drop o)
    match k[diffidx]?, key[diffidx + o]? with
    | none, _ => .error .explicit
    | some _, none => .error .indexRange
    | some origIdx, some newIdx =>
      part C o diffidx k key origIdx newIdx (.leaf (diffidx + 1) (k.drop (diffidx + 1)) v) value
  | .empty o, key, value => do
    let l ← newLeaf o key value
    return (l, [])
  | .hashed _, _, _ => .error .explicit
  | .absent, _, _ => .error .nilPointer

inductive StackError where
  | panic (p : Panic)
  | commitDisabled
  deriving DecidableEq

/-- A stack trie and the writes to its database, if one is attached. -/
structure Builder where
  st : StackTrie
  db : Option Puts

def newStackTrie (db : Option Puts) : Builder := ⟨.empty 0, db⟩

namespace Builder

def tryUpdate (C : Crypto) (b : Builder) (key value : Bytes) : Except StackError Builder :=
  if value.length = 0 then .error (.panic .explicit)
  else
    match Stack.insert C b.st (keybytesToHex key).dropLast value with
    | .ok (st, puts) => .ok ⟨st, b.db.map (· ++ puts)⟩
    | .error p => .error (.panic p)

def hashSelf (C : Crypto) (b : Builder) : Except StackError (Bytes × Builder) :=
  match Stack.hash C b.st with
  | .ok (val, puts) => .ok (val, ⟨.hashed val, b.db.map (· ++ puts)⟩)
  | .error p => .error (.panic p)

def hash (C : Crypto) (b : Builder) : Except StackError (Hash × Builder) := do
  let (val, b) ← b.hashSelf C
  return (if val.length ≠ 32 then C.keccak256 val else copyInto 32 val, b)

def commit (C : Crypto) (b : Builder) : Except StackError (Hash × Builder) :=
  if b.db.isNone then .error .commitDisabled
  else do
    let (val, b) ← b.hashSelf C
    if val.length ≠ 32 then
      return (C.keccak256 val, { b with db := b.db.map (· ++ [(C.keccak256 val, val)]) })
    else return (copyInto 32 val, b)

end Builder

section

variable {C : Crypto} {W W' : Puts} {t : Patricia} {F : Patricia → Prop} {o : ℕ} {cs : Nibble → StackTrie}
    {ts : Nibble → Patricia} (items : List Item)

/-- What a tree is replaced by when it is hashed. -/
def stub (C : Crypto) (t : Patricia) : Bytes :=
  if size C t < 32 then encode (item C t) else (hashOf C t).toList

theorem rawPart_stub (hi : isInner t = true) : rawPart (stub C t) = encode (refItem C (item C t)) := by
  rw [refItem_item, rawPart, stub]
  by_cases hs : size C t < 32
  · have hlen : (encode (item C t)).length < 32 := hs
    rw [if_pos hs, if_pos ((embeds_iff hi).mpr hs), if_pos hlen]
  rw [if_neg hs, if_neg (by simp), if_neg (fun he => hs ((embeds_iff hi).mp he))]
  rfl

theorem flatten_map_encode : (items.map encode).flatten = encodeAll items := by
  induction items with
  | nil => rfl
  | cons i items ih => rw [map_cons, flatten_cons, ih, encodeAll]

theorem encodeList_map : encodeList (items.map encode) = encode (.list items) := by
  rw [encodeList, flatten_map_encode, encode]

theorem finish_item (t : Patricia) : finish C (encode (item C t)) =
      (stub C t, if size C t < 32 then [] else [(hashOf C t, encode (item C t))]) := by
  rw [finish, stub, hashOf]
  change (if size C t < 32 then _ else _) = _
  split <;> rfl

/-- All large nodes of the tree have been written. -/
def Saved (C : Crypto) (W : Puts) (t : Patricia) : Prop :=
  ∀ t', t'.Within t → isInner t' = true → 32 ≤ size C t' → (hashOf C t', encode (item C t')) ∈ W

/-- The writes are nodes of trees in `F`. -/
def NodesOf (C : Crypto) (F : Patricia → Prop) (W : Puts) : Prop :=
  ∀ e ∈ W, ∃ t, F t ∧ isInner t = true ∧ e = (hashOf C t, encode (item C t))

theorem NodesOf.append (h : NodesOf C F W) (h' : NodesOf C F W') : NodesOf C F (W ++ W') := by
  intro e he
  obtain he | he := mem_append.mp he
  · exact h e he
  · exact h' e he

theorem NodesOf.imp {F'} (h : NodesOf C F W) (hF : ∀ t, F t → F' t) : NodesOf C F' W := by
  intro e he
  obtain ⟨t, ht, hi, heq⟩ := h e he
  exact ⟨t, hF t ht, hi, heq⟩

theorem nodesOf_nil : NodesOf C F [] := fun e he => by cases he

theorem nodesOf_finish (hi : isInner t = true) :
    NodesOf C (fun t' => t'.Within t) (finish C (encode (item C t))).2 := by
  rw [finish_item]
  split
  · exact nodesOf_nil
  intro e he
  obtain rfl := mem_singleton.mp he
  exact ⟨t, within_self t, hi, rfl⟩

theorem Saved.mono (h : Saved C W t) (hW : W ⊆ W') : Saved C W' t :=
  fun t' hw hi hl => hW (h t' hw hi hl)

theorem saved_of_not_isInner (h : isInner t = false) : Saved C W t := by
  intro t' hw hi _
  cases t with
  | nil => cases hw; cases hi
  | value v => cases hw; cases hi
  | short k c => cases h
  | full cs => cases h

/-- The write of the node itself completes those of the trees below it. -/
theorem saved_finish (puts : Puts)
    (hbelow : ∀ t', t'.Within t → t' ≠ t → isInner t' = true → 32 ≤ size C t' →
      (hashOf C t', encode (item C t')) ∈ W ++ puts) :
    Saved C (W ++ (puts ++ (finish C (encode (item C t))).2)) t := by
  intro t' hw hi hl
  rw [← append_assoc]
  by_cases ht : t' = t
  · subst t'
    rw [finish_item, if_neg (not_lt.mpr hl)]
    exact mem_append_right _ mem_cons_self
  · exact mem_append_left _ (hbelow t' hw ht hi hl)

/-- The node hashes to what the tree is replaced by, and with that all large
nodes of the tree are written. -/
def Hashes (C : Crypto) (W : Puts) (st : StackTrie) (t : Patricia) : Prop :=
  ∃ puts, hash C st = .ok (stub C t, puts) ∧ Saved C (W ++ puts) t ∧
    NodesOf C (fun t' => t'.Within t) puts

theorem hashes_leaf (o : ℕ) (k : List Nibble) (v : Bytes) :
    Hashes C W (.leaf o k v) (.short (k ++ [terminator]) (.value v)) := by
  have hitem : encodeList [encodeString (hexToCompact (k ++ [terminator])), encodeString v] =
      encode (item C (.short (k ++ [terminator]) (.value v))) :=
    encodeList_map [.str (hexToCompact (k ++ [terminator])), .str v]
  refine ⟨(finish C (encode (item C (.short (k ++ [terminator]) (.value v))))).2, ?_, ?_,
    nodesOf_finish rfl⟩
  · rw [Stack.hash, hitem, finish_item]
  have hsaved := saved_finish (C := C) (W := W) (t := .short (k ++ [terminator]) (.value v)) []
    (fun t' hw hne hi hl => by
      cases hw.resolve_left hne
      cases hi)
  rwa [nil_append] at hsaved

theorem hashes_ext {k} {child} {c} (hi : isInner c = true)
    (h : Hashes C W child c) : Hashes C W (.ext o k child) (.short k c) := by
  obtain ⟨puts, hhash, hsaved, hnodes⟩ := h
  have hitem : encodeList [encodeString (hexToCompact k), rawPart (stub C c)] =
      encode (item C (.short k c)) := by
    rw [rawPart_stub hi]
    exact encodeList_map [.str (hexToCompact k), refItem C (item C c)]
  refine ⟨puts ++ (finish C (encode (item C (.short k c)))).2, ?_,
    saved_finish puts fun t' hw hne hi' hl => hsaved t' (hw.resolve_left hne) hi' hl,
    (hnodes.imp fun _ h => within_short h).append (nodesOf_finish rfl)⟩
  rw [Stack.hash, hhash]
  simp only [bind, Except.bind, hitem, finish_item]
  rfl

def ChildHashes (C : Crypto) (W : Puts) (st : StackTrie) (t : Patricia) : Prop :=
  (st = .absent ∧ t = .nil) ∨ (st.isAbsent = false ∧ isInner t = true ∧ Hashes C W st t)

theorem hashChildren_spec (h : ∀ i, ChildHashes C W (cs i) (ts i)) (l : List (Fin 16)) :
    ∃ puts, hashChildren (fun i => hash C (cs i)) cs l =
        .ok (l.map (fun i => encode (refItem C (item C (ts i.castSucc)))), puts) ∧
      (∀ i ∈ l, Saved C (W ++ puts) (ts i.castSucc)) ∧
      NodesOf C (fun t' => ∃ i, t'.Within (ts i)) puts := by
  induction l with
  | nil => exact ⟨[], rfl, fun i hi => (by cases hi), nodesOf_nil⟩
  | cons i l ih =>
    obtain ⟨puts, hl, hsaved, hnodes⟩ := ih
    obtain ⟨hst, ht⟩ | ⟨hst, hi, puts', hhash, hs, hnodes'⟩ := h i.castSucc
    · refine ⟨puts, ?_, fun j hj => ?_, hnodes⟩
      · rw [hashChildren, if_pos (by rw [hst]; rfl), hl, map_cons, ht]
        rfl
      obtain rfl | hj := mem_cons.mp hj
      · rw [ht]
        exact saved_of_not_isInner rfl
      · exact hsaved j hj
    refine ⟨puts' ++ puts, ?_, fun j hj => ?_, (hnodes'.imp fun _ h => ⟨_, h⟩).append hnodes⟩
    · rw [hashChildren, if_neg (by rw [hst]; simp), hhash, hl, map_cons, ← rawPart_stub hi]
      rfl
    rw [← append_assoc]
    obtain rfl | hj := mem_cons.mp hj
    · exact hs.mono (subset_append_left _ _)
    apply (hsaved j hj).mono
    intro x hx
    obtain hx | hx := mem_append.mp hx
    · exact mem_append_left _ (mem_append_left _ hx)
    · exact mem_append_right _ hx

theorem hashes_branch (h : ∀ i, ChildHashes C W (cs i) (ts i)) (hterm : ts terminator = .nil) :
    Hashes C W (.branch o cs) (.full ts) := by
  obtain ⟨puts, hparts, hsaved, hnodes⟩ := hashChildren_spec h (finRange 16)
  have hitem : encodeList ((finRange 16).map (fun i => encode (refItem C (item C (ts i.castSucc)))) ++
      [encodeString []]) = encode (item C (.full ts)) := by
    have hmap := encodeList_map ((finRange 16).map (fun i => refItem C (item C (ts i.castSucc))) ++
      [item C (ts terminator)])
    rw [map_append, map_map, hterm] at hmap
    rw [Merkle.item, hterm]
    exact hmap
  refine ⟨puts ++ (finish C (encode (item C (.full ts)))).2, ?_,
    saved_finish puts fun t' hw hne hi hl => ?_, (hnodes.imp fun _ h => .inr h).append (nodesOf_finish rfl)⟩
  · rw [Stack.hash, hparts]
    simp only [bind, Except.bind, hitem, finish_item]
    rfl
  obtain ⟨i, hw⟩ := hw.resolve_left hne
  by_cases hit : i = terminator
  · subst i
    rw [hterm] at hw
    cases hw
    cases hi
  obtain ⟨j, rfl⟩ := exists_castSucc hit
  exact hsaved j (mem_finRange j) t' hw hi hl

end

/-- The first word comes before the second, and they part at a digit. -/
def Before (k r : List Nibble) : Prop :=
  ∃ p a b k' r', k = p ++ a :: k' ∧ r = p ++ b :: r' ∧ a < b

theorem Before.cons {a b} {k r} (h : Before (a :: k) (b :: r)) : a < b ∨ (a = b ∧ Before k r) := by
  obtain ⟨p, x, y, k', r', hk, hr, hxy⟩ := h
  cases p with
  | nil =>
    cases hk
    cases hr
    exact .inl hxy
  | cons z p =>
    cases hk
    cases hr
    exact .inr ⟨rfl, p, x, y, k', r', rfl, rfl, hxy⟩

theorem Before.append {e r new} (h : Before (e ++ r) new) : (∃ r', new = e ++ r' ∧ Before r r') ∨
      ∃ p a b e' r', e = p ++ a :: e' ∧ new = p ++ b :: r' ∧ a < b := by
  induction e generalizing new with
  | nil => exact .inl ⟨new, rfl, h⟩
  | cons x e ih =>
    cases new with
    | nil =>
      obtain ⟨p, _, _, _, _, _, hnil, _⟩ := h
      cases p <;> cases hnil
    | cons y new =>
      obtain hxy | ⟨rfl, hrest⟩ := h.cons
      · exact .inr ⟨[], x, y, e, new, rfl, rfl, hxy⟩
      obtain ⟨r', rfl, hr⟩ | ⟨p, a, b, e', r', rfl, rfl, hab⟩ := ih hrest
      · exact .inl ⟨r', rfl, hr⟩
      · exact .inr ⟨x :: p, a, b, e', r', rfl, rfl, hab⟩

theorem getDiffIndex_append (k r : List Nibble) : getDiffIndex k (k ++ r) = .ok k.length := by
  induction k with
  | nil => rfl
  | cons a k ih =>
    rw [cons_append, getDiffIndex, if_pos rfl, ih]
    rfl

theorem getDiffIndex_part {a b} (hab : a ≠ b) (p k r : List Nibble) :
    getDiffIndex (p ++ a :: k) (p ++ b :: r) = .ok p.length := by
  induction p with
  | nil => rw [nil_append, nil_append, getDiffIndex, if_neg hab]; rfl
  | cons x p ih =>
    rw [cons_append, cons_append, getDiffIndex, if_pos rfl, ih]
    rfl

theorem drop_part (p k : List Nibble) (a : Nibble) : (p ++ a :: k).drop (p.length + 1) = k := by
  rw [drop_append, drop_eq_nil_of_le (by omega)]
  simp

/-- The digit behind a beginning of what is left of a key. -/
theorem getElem?_of_drop {key p r : List Nibble} {o : ℕ} {b : Nibble} (h : key.drop o = p ++ b :: r) :
    key[p.length + o]? = some b ∧ key.drop (o + p.length + 1) = r ∧ o + p.length + 1 ≤ key.length := by
  have hget : (key.drop o)[p.length]? = some b := by
    rw [h]
    simp
  have hlen := congrArg length h
  rw [length_drop, length_append, length_cons] at hlen
  refine ⟨?_, ?_, by omega⟩
  · rw [getElem?_drop] at hget
    rwa [add_comm]
  have hdrop : (key.drop o).drop (p.length + 1) = r := by rw [h, drop_part]
  rwa [drop_drop, ← add_assoc] at hdrop

theorem newLeaf_of_drop {key p r : List Nibble} {o : ℕ} {b : Nibble} (h : key.drop o = p ++ b :: r)
    (v : Bytes) : newLeaf (o + p.length + 1) key v = .ok (.leaf (o + p.length + 1) r v) := by
  obtain ⟨_, hdrop, hle⟩ := getElem?_of_drop h
  rw [newLeaf, if_pos hle, hdrop]

variable {n : ℕ} {puts : Puts}

theorem elder_eq_some {cs} {a} (ha : (cs a).isAbsent = false)
    (hn : n ≤ 17) (han : a.val < n) (hright : ∀ i, a < i → (cs i).isAbsent = true) :
    elder cs n = some a := by
  induction n with
  | zero => omega
  | succ n ih =>
    have hval : (place n).val = n := mod_eq_of_lt (by omega)
    rw [elder]
    by_cases heq : a.val = n
    · have hfin : place n = a := Fin.ext (by omega)
      rw [hfin, if_neg (by rw [ha]; simp)]
    rw [if_pos (hright _ (Fin.lt_def.mpr (by omega)))]
    exact ih (by omega) (by omega)

theorem elder_lt {cs} (hn : n ≤ 17) {i} (h : elder cs n = some i) :
    i.val < n ∧ (cs i).isAbsent = false := by
  induction n with
  | zero => cases h
  | succ n ih =>
    have hval : (place n).val = n := mod_eq_of_lt (by omega)
    rw [elder] at h
    split at h
    · obtain ⟨hlt, ha⟩ := ih (by omega) h
      exact ⟨by omega, ha⟩
    next habs =>
      cases h
      exact ⟨by omega, Bool.eq_false_iff.mpr habs⟩

section

variable {C : Crypto} {W W' : Puts}

/-- A child that takes no more keys: there is none, or it is hashed and its
large nodes are written. -/
def Sealed (C : Crypto) (W : Puts) (st : StackTrie) (t : Patricia) : Prop :=
  (st = .absent ∧ t = .nil) ∨ (st = .hashed (stub C t) ∧ isInner t = true ∧ Saved C W t)

/-- The stack trie holds the tree; `last` is what is left at offset `o` of
the key inserted last. The nodes on the way to that key are in memory, those
to its left are sealed, and there are none to its right. -/
inductive Spine (C : Crypto) (W : Puts) : ℕ → List Nibble → StackTrie → Patricia → Prop where
  | leaf (o : ℕ) (k : List Nibble) (v : Bytes) :
      Spine C W o k (.leaf o k v) (.short (k ++ [terminator]) (.value v))
  | ext {o : ℕ} {k r : List Nibble} {child : StackTrie} {c : Patricia} (hk : k ≠ [])
      (h : Spine C W (o + k.length) r child c) : Spine C W o (k ++ r) (.ext o k child) (.short k c)
  | branch {o : ℕ} {a : Nibble} {r : List Nibble} {cs : Nibble → StackTrie} {ts : Nibble → Patricia}
      (ha : a ≠ terminator) (h : Spine C W (o + 1) r (cs a) (ts a))
      (hleft : ∀ i, i < a → Sealed C W (cs i) (ts i))
      (hright : ∀ i, a < i → cs i = .absent ∧ ts i = .nil) :
      Spine C W o (a :: r) (.branch o cs) (.full ts)

variable {st : StackTrie} {t ta t' : Patricia} {o : ℕ} {last k p r : List Nibble} {a b : Nibble}
    {ts : Nibble → Patricia}

theorem Sealed.mono (h : Sealed C W st t) (hW : W ⊆ W') : Sealed C W' st t := by
  obtain h | ⟨hst, hi, hs⟩ := h
  · exact .inl h
  · exact .inr ⟨hst, hi, hs.mono hW⟩

theorem Sealed.childHashes (h : Sealed C W st t) : ChildHashes C W st t := by
  obtain h | ⟨rfl, hi, hs⟩ := h
  · exact .inl h
  · exact .inr ⟨rfl, hi, [], rfl, by rwa [append_nil], nodesOf_nil⟩

theorem Spine.isInner (h : Spine C W o last st t) : Merkle.isInner t = true ∧ st.isAbsent = false := by
  cases h with
  | leaf o k v => exact ⟨rfl, rfl⟩
  | ext hk _ => exact ⟨rfl, rfl⟩
  | branch ha _ hleft hright => exact ⟨rfl, rfl⟩

theorem attach_of_ne (h : k ≠ []) (t : Patricia) : RadixTree.attach k t = .short k t :=
  if_neg h

theorem lt_terminator (h : a ≠ terminator) : a < terminator :=
  lt_of_le_of_ne (Fin.le_last a) h

theorem hashes_spine (h : Spine C W o last st t) : Hashes C W st t := by
  induction h with
  | leaf o k v => exact hashes_leaf o k v
  | ext hk h ih => exact hashes_ext h.isInner.1 ih
  | @branch o a r cs ts ha h hleft hright ih =>
    refine hashes_branch (fun i => ?_) (hright _ (lt_terminator ha)).2
    obtain hlt | rfl | hgt := lt_trichotomy i a
    · exact (hleft i hlt).childHashes
    · exact .inr ⟨h.isInner.2, h.isInner.1, ih⟩
    · exact .inl (hright i hgt)

theorem spine_split (hab : a < b) (hb : b ≠ terminator) (hi : isInner ta = true) (hs : Saved C W ta)
    (v : Bytes) :
    Spine C W o (p ++ b :: r) (split o p (update (update (fun _ => .absent) a (.hashed (stub C ta))) b
        (.leaf (o + p.length + 1) r v)))
      (RadixTree.attach p (fork a ta b (.short (r ++ [terminator]) (.value v)))) := by
  have hbranch : Spine C W (o + p.length) (b :: r)
      (.branch (o + p.length) (update (update (fun _ => .absent) a (.hashed (stub C ta))) b
        (.leaf (o + p.length + 1) r v)))
      (fork a ta b (.short (r ++ [terminator]) (.value v))) := by
    refine .branch hb ?_ (fun i hlt => ?_) (fun i hgt => ?_)
    · rw [update_self, update_self]
      exact .leaf _ r v
    · rw [update_of_ne hlt.ne, update_of_ne hlt.ne]
      by_cases hia : i = a
      · subst i
        rw [update_self, update_self]
        exact .inr ⟨rfl, hi, hs⟩
      rw [update_of_ne hia, update_of_ne hia]
      exact .inl ⟨rfl, rfl⟩
    have hia : i ≠ a := (hab.trans hgt).ne'
    rw [update_of_ne hgt.ne', update_of_ne hgt.ne', update_of_ne hia, update_of_ne hia]
    exact ⟨rfl, rfl⟩
  rw [split, RadixTree.attach]
  by_cases hp : p = []
  · subst p
    exact hbranch
  rw [if_neg hp, if_neg hp]
  exact .ext hp hbranch

theorem unresolve_same {cs}
    (hleft : ∀ i, i < a → Sealed C W (cs i) (ts i)) : unresolve C cs a = .ok (cs, []) := by
  rw [unresolve]
  cases he : elder cs a.val with
  | none => rfl
  | some i =>
    obtain ⟨hlt, habs⟩ := elder_lt a.isLt.le he
    obtain ⟨hst, _⟩ | ⟨hst, _⟩ := hleft i (Fin.lt_def.mpr hlt)
    · rw [hst] at habs
      cases habs
    simp only [hst, Stack.hash, bind, Except.bind, pure, Except.pure]
    rw [← hst, update_eq_self]

theorem unresolve_last {cs} (h : Spine C W o r (cs a) (ts a))
    (hright : ∀ i, a < i → cs i = .absent ∧ ts i = .nil)
    (hab : a < b) :
    ∃ puts, unresolve C cs b = .ok (update cs a (.hashed (stub C (ts a))), puts) ∧
      Saved C (W ++ puts) (ts a) ∧ NodesOf C (fun t' => t'.Within (ts a)) puts := by
  obtain ⟨puts, hhash, hsaved, hnodes⟩ := hashes_spine h
  refine ⟨puts, ?_, hsaved, hnodes⟩
  have helder : elder cs b.val = some a := by
    apply elder_eq_some h.isInner.2 b.isLt.le (Fin.lt_def.mp hab)
    intro i hi
    rw [(hright i hi).1]
    rfl
  simp only [unresolve, helder, hhash, bind, Except.bind]
  rfl

/-- The tree `t'` stands to the left of the path, where nothing changes any more. -/
inductive Frozen : List Nibble → Patricia → Patricia → Prop where
  | left {a i : Nibble} {r : List Nibble} {ts : Nibble → Patricia} {t' : Patricia} (hi : i < a)
      (hw : t'.Within (ts i)) : Frozen (a :: r) (.full ts) t'
  | down {a : Nibble} {r : List Nibble} {ts : Nibble → Patricia} {t' : Patricia} (h : Frozen r (ts a) t') :
      Frozen (a :: r) (.full ts) t'
  | short {k r : List Nibble} {c t' : Patricia} (h : Frozen r c t') : Frozen (k ++ r) (.short k c) t'

theorem Frozen.within (h : Frozen r t t') : t'.Within t := by
  induction h with
  | left hi hw => exact within_full hw
  | down _ ih => exact within_full ih
  | short _ ih => exact within_short ih

theorem frozen_short_iff {c} (h : Frozen (k ++ r) (.short k c) t') : Frozen r c t' := by
  generalize hk : k ++ r = last at h
  cases h with
  | short h =>
    rw [append_cancel_left hk]
    exact h

theorem frozen_full_iff
    (h : Frozen (a :: r) (.full ts) t') : (∃ i, i < a ∧ t'.Within (ts i)) ∨ Frozen r (ts a) t' := by
  generalize hl : a :: r = last at h
  cases h with
  | left hi hw =>
    cases hl
    exact .inl ⟨_, hi, hw⟩
  | down h =>
    cases hl
    exact .inr h

theorem not_frozen_value {w} : ¬ Frozen last (.short k (.value w)) t' := by
  intro h
  cases h with
  | short h => cases h

theorem frozen_split (hab : a < b) {tb}
    (h : t'.Within ta) : Frozen (p ++ b :: r) (RadixTree.attach p (fork a ta b tb)) t' := by
  have hfork : Frozen (b :: r) (fork a ta b tb) t' := by
    refine .left hab ?_
    rwa [update_of_ne hab.ne, update_self]
  rw [RadixTree.attach]
  by_cases hp : p = []
  · subst p
    exact hfork
  rw [if_neg hp]
  exact .short hfork

theorem part_spec {key} (k' : List Nibble) (hab : a < b)
    (hb : b ≠ terminator) (hkey : key.drop o = p ++ b :: r) {n}
    (hi : isInner ta = true) (h : Hashes C W n ta) (v : Bytes) :
    ∃ st puts, part C o p.length (p ++ a :: k') key a b n v = .ok (st, puts) ∧
      Spine C (W ++ puts) o (p ++ b :: r) st
        (RadixTree.attach p (fork a ta b (.short (r ++ [terminator]) (.value v)))) ∧
      NodesOf C (fun t' => t'.Within ta) puts := by
  obtain ⟨puts, hhash, hsaved, hnodes⟩ := h
  have hat : a ≠ terminator := (lt_of_lt_of_le hab (Fin.le_last b)).ne
  refine ⟨split o p (update (update (fun _ => .absent) a (.hashed (stub C ta))) b
    (.leaf (o + p.length + 1) r v)), puts, ?_, spine_split hab hb hi hsaved v, hnodes⟩
  rw [part, hhash]
  simp only [bind, Except.bind]
  rw [newLeaf_of_drop hkey]
  simp only [forkAt]
  rw [if_neg (by simp [hat, hb]), take_left]
  rfl

theorem ne_terminator_of_not_mem (h : terminator ∉ p ++ b :: r) : b ≠ terminator := by
  rintro rfl
  exact h (by simp)

/-- An insertion goes through and the trie holds the tree with the new entry. The nodes it hashes
are frozen then, and so is all that was frozen before. -/
def Inserts (C : Crypto) (W : Puts) (o : ℕ) (last new key : List Nibble) (v : Bytes) (st : StackTrie)
    (t : Patricia) : Prop :=
  ∃ st' puts, insert C st key v = .ok (st', puts) ∧
    Spine C (W ++ puts) o new st' (t.insert (new ++ [terminator]) v) ∧
    NodesOf C (Frozen new (t.insert (new ++ [terminator]) v)) puts ∧
    ∀ t', Frozen last t t' → Frozen new (t.insert (new ++ [terminator]) v) t'

variable {key k' r' : List Nibble} {v : Bytes} {cs : Nibble → StackTrie} {c : Patricia}

theorem inserts_leaf (hkey : key.drop o = p ++ b :: r') (hbt : b ≠ terminator) (hab : a < b)
    (w : Bytes) : Inserts C W o (p ++ a :: k') (p ++ b :: r') key v (.leaf o (p ++ a :: k') w)
      (.short ((p ++ a :: k') ++ [terminator]) (.value w)) := by
  obtain ⟨st', puts, hpart, hspine, hnodes⟩ := part_spec k' hab hbt hkey rfl
    (hashes_leaf (p.length + 1) k' w) v
  have htree : RadixTree.insert (.short ((p ++ a :: k') ++ [terminator]) (.value w))
      ((p ++ b :: r') ++ [terminator]) v =
      RadixTree.attach p (fork a (.short (k' ++ [terminator]) (.value w)) b
        (.short (r' ++ [terminator]) (.value v))) := by
    rw [append_assoc, append_assoc, cons_append, cons_append,
      RadixTree.insert_short_part hab.ne', attach_of_ne (by simp : k' ++ [terminator] ≠ []),
      attach_of_ne (by simp : r' ++ [terminator] ≠ [])]
  rw [Inserts, htree]
  refine ⟨st', puts, ?_, hspine, hnodes.imp fun t' h => frozen_split hab h,
    fun t' h => (not_frozen_value h).elim⟩
  rw [insert, hkey, getDiffIndex_part hab.ne]
  simp only [bind, Except.bind, (getElem?_of_drop hkey).1]
  rw [getElem?_append_right (le_refl _), Nat.sub_self]
  rw [drop_part]
  exact hpart

theorem inserts_ext_part {child : StackTrie} (h : Spine C W (o + (p ++ a :: k').length) r child c)
    (hkey : key.drop o = p ++ b :: r') (hbt : b ≠ terminator) (hab : a < b) :
    Inserts C W o ((p ++ a :: k') ++ r) (p ++ b :: r') key v (.ext o (p ++ a :: k') child)
      (.short (p ++ a :: k') c) := by
  have hn : Hashes C W (if p.length < (p ++ a :: k').length - 1 then .ext (p.length + 1) k' child
      else child) (RadixTree.attach k' c) := by
    rw [length_append, length_cons]
    by_cases hk' : k' = []
    · subst k'
      rw [if_neg (by simp)]
      exact hashes_spine h
    have hpos := length_pos_of_ne_nil hk'
    rw [if_pos (by omega), attach_of_ne hk']
    exact hashes_ext h.isInner.1 (hashes_spine h)
  have hinner : isInner (RadixTree.attach k' c) = true ∧ c.Within (RadixTree.attach k' c) := by
    rw [RadixTree.attach]
    split
    · exact ⟨h.isInner.1, within_self c⟩
    · exact ⟨rfl, within_short (within_self c)⟩
  obtain ⟨st', puts, hpart, hspine, hnodes⟩ := part_spec k' hab hbt hkey hinner.1 hn v
  rw [Inserts, append_assoc, cons_append, RadixTree.insert_short_part hab.ne',
    attach_of_ne (by simp : r' ++ [terminator] ≠ [])]
  refine ⟨st', puts, ?_, hspine, hnodes.imp fun t' h => frozen_split hab h,
    fun t' h => frozen_split hab ((frozen_short_iff h).within.trans hinner.2)⟩
  rw [insert, hkey, getDiffIndex_part hab.ne]
  simp only [bind, Except.bind, (getElem?_of_drop hkey).1]
  rw [getElem?_append_right (le_refl _), Nat.sub_self]
  rw [drop_part]
  exact hpart

section

variable (h : Spine C W (o + 1) r (cs a) (ts a)) (hleft : ∀ i, i < a → Sealed C W (cs i) (ts i))
  (hright : ∀ i, a < i → cs i = .absent ∧ ts i = .nil)

include h hleft hright

-- the new key goes to the right of the last one, whose child is sealed
theorem inserts_right (hkey : key.drop o = b :: r') (hbt : b ≠ terminator) (hab : a < b) :
    Inserts C W o (a :: r) (b :: r') key v (.branch o cs) (.full ts) := by
  obtain ⟨hget, -, -⟩ := getElem?_of_drop (p := []) hkey
  rw [length_nil, zero_add] at hget
  obtain ⟨puts, hunres, hsaved, hnodes⟩ := unresolve_last h hright hab
  obtain ⟨habsent, hnil⟩ := hright b hab
  have hkeep {i : Nibble} {t' : Patricia} (hi : i < b) (hw : t'.Within (ts i)) :
      Frozen (b :: r') (.full (update ts b ((ts b).insert (r' ++ [terminator]) v))) t' := by
    refine .left hi ?_
    rwa [update_of_ne hi.ne]
  rw [Inserts, cons_append, RadixTree.insert_full]
  refine ⟨.branch o (update (update cs a (.hashed (stub C (ts a)))) b
    (.leaf (o + 1) r' v)), puts ++ [], ?_, ?_, ?_, fun t' h => ?_⟩
  · have hleaf := newLeaf_of_drop (p := []) hkey v
    rw [length_nil, add_zero] at hleaf
    rw [insert, hget]
    simp only [bind, Except.bind, hunres, hleaf]
    rw [if_neg hbt, if_pos (by rw [habsent]; rfl)]
    rfl
  · rw [append_nil, hnil, RadixTree.insert_nil (by simp)]
    refine .branch hbt ?_ (fun i hlt => ?_) (fun i hgt => ?_)
    · rw [update_self, update_self]
      exact .leaf _ r' v
    · rw [update_of_ne hlt.ne, update_of_ne hlt.ne]
      obtain hia | rfl | hia := lt_trichotomy i a
      · rw [update_of_ne hia.ne]
        exact (hleft i hia).mono (subset_append_left _ _)
      · rw [update_self]
        exact .inr ⟨rfl, h.isInner.1, hsaved⟩
      rw [update_of_ne hia.ne', (hright i hia).1, (hright i hia).2]
      exact .inl ⟨rfl, rfl⟩
    rw [update_of_ne hgt.ne', update_of_ne hgt.ne', update_of_ne (hab.trans hgt).ne']
    exact hright i (hab.trans hgt)
  · rw [append_nil]
    exact hnodes.imp fun t' hw => hkeep hab hw
  obtain ⟨i, hi, hw⟩ | h := frozen_full_iff h
  · exact hkeep (hi.trans hab) hw
  · exact hkeep hab h.within

-- the new key goes into the child of the last one
theorem inserts_down (hkey : key.drop o = a :: r') (hat : a ≠ terminator)
    (hin : Inserts C W (o + 1) r r' key v (cs a) (ts a)) :
    Inserts C W o (a :: r) (a :: r') key v (.branch o cs) (.full ts) := by
  obtain ⟨hget, -, -⟩ := getElem?_of_drop (p := []) hkey
  rw [length_nil, zero_add] at hget
  obtain ⟨child', puts, hins, hspine, hnodes, hfrozen⟩ := hin
  have hdown {t' : Patricia} (h : Frozen r' ((ts a).insert (r' ++ [terminator]) v) t') :
      Frozen (a :: r') (.full (update ts a ((ts a).insert (r' ++ [terminator]) v))) t' := by
    refine .down ?_
    rwa [update_self]
  rw [Inserts, cons_append, RadixTree.insert_full]
  refine ⟨.branch o (update cs a child'), [] ++ puts, ?_, ?_,
    hnodes.imp fun t' h => hdown h, fun t' h => ?_⟩
  · rw [insert, hget]
    simp only [bind, Except.bind, unresolve_same hleft, hins]
    rw [if_neg hat, if_neg (by rw [h.isInner.2]; simp)]
    rfl
  · rw [nil_append]
    refine .branch hat ?_ (fun i hlt => ?_) (fun i hgt => ?_)
    · rw [update_self, update_self]
      exact hspine
    · rw [update_of_ne hlt.ne, update_of_ne hlt.ne]
      exact (hleft i hlt).mono (subset_append_left _ _)
    rw [update_of_ne hgt.ne', update_of_ne hgt.ne']
    exact hright i hgt
  obtain ⟨i, hi, hw⟩ | h := frozen_full_iff h
  · refine .left hi ?_
    rwa [update_of_ne hi.ne]
  · exact hdown (hfrozen t' h)

end

theorem insert_spine (h : Spine C W o last st t) {new : List Nibble} (hkey : key.drop o = new)
    (hterm : terminator ∉ new) (hb : Before last new) (v : Bytes) :
    Inserts C W o last new key v st t := by
  induction h generalizing new with
  | leaf o k w =>
    obtain ⟨p, a, b, k', r', rfl, rfl, hab⟩ := hb
    exact inserts_leaf hkey (ne_terminator_of_not_mem hterm) hab w
  | @ext o k r child c hk h ih =>
    obtain ⟨r', rfl, hr⟩ | ⟨p, a, b, k', r', rfl, rfl, hab⟩ := hb.append
    · have hrest : key.drop (o + k.length) = r' := by
        rw [← drop_drop, hkey, drop_left]
      obtain ⟨child', puts, hins, hspine, hnodes, hfrozen⟩ :=
        ih hrest (fun hm => hterm (by simp [hm])) hr
      rw [Inserts, append_assoc, RadixTree.insert_short_append (by simp [hk])]
      refine ⟨.ext o k child', puts, ?_, .ext hk hspine, hnodes.imp fun t' h => .short h,
        fun t' h => .short (hfrozen t' (frozen_short_iff h))⟩
      rw [insert, hkey, getDiffIndex_append]
      simp only [bind, Except.bind, getElem?_eq_none (le_refl k.length), hins]
      rfl
    · exact inserts_ext_part h hkey (ne_terminator_of_not_mem hterm) hab
  | @branch o a r cs ts ha h hleft hright ih =>
    cases new with
    | nil =>
      obtain ⟨p, _, _, _, _, _, hnil, _⟩ := hb
      cases p <;> cases hnil
    | cons b r' =>
      have hbt := ne_terminator_of_not_mem (p := []) hterm
      obtain hab | ⟨rfl, hr⟩ := hb.cons
      · exact inserts_right h hleft hright hkey hbt hab
      obtain ⟨-, hdrop, -⟩ := getElem?_of_drop (p := []) hkey
      rw [length_nil, add_zero] at hdrop
      exact inserts_down h hleft hright hkey hbt (ih hdrop (fun hm => hterm (by simp [hm])) hr)

end

theorem digits_lt {x y : UInt8} (h : x < y) : Fin.ofNat 17 (x / 16).toNat < Fin.ofNat 17 (y / 16).toNat ∨
      (Fin.ofNat 17 (x / 16).toNat = Fin.ofNat 17 (y / 16).toNat ∧
        Fin.ofNat 17 (x % 16).toNat < Fin.ofNat 17 (y % 16).toNat) := by
  have hxy := UInt8.lt_iff_toNat_lt.mp h
  have hhx := digit_val (high_lt x)
  have hhy := digit_val (high_lt y)
  have hlx := digit_val (low_lt x)
  have hly := digit_val (low_lt y)
  have h16 : (16 : UInt8).toNat = 16 := rfl
  rw [UInt8.toNat_div, h16] at hhx hhy
  rw [UInt8.toNat_mod, h16] at hlx hly
  simp only [Fin.lt_def, Fin.ext_iff, UInt8.toNat_div, UInt8.toNat_mod, h16]
  omega

theorem before_nibbles {k r} (hlt : k < r) (hpre : ¬ k <+: r) : Before (nibbles k) (nibbles r) := by
  induction k generalizing r with
  | nil => exact (hpre nil_prefix).elim
  | cons x k ih =>
    cases r with
    | nil => cases hlt
    | cons y r =>
      rw [nibbles, nibbles]
      obtain hxy | ⟨rfl, hrest⟩ := cons_lt_cons_iff.mp hlt
      · obtain hhigh | ⟨hhigh, hlow⟩ := digits_lt hxy
        · exact ⟨[], _, _, _, _, rfl, rfl, hhigh⟩
        rw [hhigh]
        exact ⟨[_], _, _, _, _, rfl, rfl, hlow⟩
      have hpre' : ¬ k <+: r := fun h => hpre (cons_prefix_cons.mpr ⟨rfl, h⟩)
      obtain ⟨p, a, b, k', r', hk, hr, hab⟩ := ih hrest hpre'
      rw [hk, hr]
      exact ⟨_ :: _ :: p, a, b, k', r', rfl, rfl, hab⟩

/-- Pairs as the stack trie takes them: values are not empty, keys increase,
and none is a beginning of another. -/
structure Sorted (pairs : List (Bytes × Bytes)) : Prop where
  values : ∀ p ∈ pairs, p.2 ≠ []
  keys : pairs.Pairwise fun p q => p.1 < q.1
  apart : ∀ p ∈ pairs, ∀ q ∈ pairs, p.1 <+: q.1 → p.1 = q.1

def updates (pairs : List (Bytes × Bytes)) : List Op := pairs.map fun p => .tryUpdate p.1 p.2

def Builder.updateAll (C : Crypto) (b : Builder) (pairs : List (Bytes × Bytes)) : Except StackError Builder :=
  pairs.foldlM (fun b p => b.tryUpdate C p.1 p.2) b

section

variable {C : Crypto} {W : Puts} {st : StackTrie} {t : Patricia}

theorem dropLast_keybytesToHex (key : Bytes) : (keybytesToHex key).dropLast = nibbles key := by
  rw [keybytesToHex, dropLast_concat]

variable {q : Bytes × Bytes} {pairs : List (Bytes × Bytes)}

theorem trees_updates_append (pairs : List (Bytes × Bytes)) (hq : q.2 ≠ []) :
    (trees (updates (pairs ++ [q]))).now =
      (trees (updates pairs)).now.insert (nibbles q.1 ++ [terminator]) q.2 := by
  rw [updates, map_append, map_singleton, trees_append]
  exact if_neg hq

theorem Sorted.init (h : Sorted (pairs ++ [q])) : Sorted pairs :=
  ⟨fun p hp => h.values p (by simp [hp]), (pairwise_append.mp h.keys).1,
    fun p hp r hr => h.apart p (by simp [hp]) r (by simp [hr])⟩

theorem Sorted.before {p} (h : Sorted (pairs ++ [q]))
    (hp : p ∈ pairs) : Before (nibbles p.1) (nibbles q.1) := by
  have hlt := (pairwise_append.mp h.keys).2.2 p hp q (by simp)
  apply before_nibbles hlt
  intro hpre
  rw [h.apart p (by simp [hp]) q (by simp) hpre] at hlt
  exact List.lt_irrefl _ hlt

/-- Inserting the pairs goes through; the trie then holds their tree, and
what has been written are nodes of it that stay. -/
theorem updateAll_spec (h : Sorted pairs) (db : Option Puts) :
    ∃ st W, (newStackTrie db).updateAll C pairs = .ok ⟨st, db.map (· ++ W)⟩ ∧
      ((pairs = [] ∧ st = .empty 0 ∧ W = []) ∨
        ∃ p ∈ pairs, Spine C W 0 (nibbles p.1) st (trees (updates pairs)).now ∧
          NodesOf C (Frozen (nibbles p.1) (trees (updates pairs)).now) W) := by
  induction pairs using reverseRecOn with
  | nil =>
    refine ⟨.empty 0, [], ?_, .inl ⟨rfl, rfl, rfl⟩⟩
    cases db with
    | none => rfl
    | some puts =>
      rw [Option.map_some, append_nil]
      rfl
  | append_singleton pairs q ih =>
    have hq : q.2 ≠ [] := h.values q (by simp)
    obtain ⟨st, W, hrun, hst⟩ := ih h.init
    obtain ⟨st', puts, hins, hspine, hnodes⟩ : ∃ st' puts, insert C st (nibbles q.1) q.2 = .ok (st', puts) ∧
          Spine C (W ++ puts) 0 (nibbles q.1) st' (trees (updates (pairs ++ [q]))).now ∧
          NodesOf C (Frozen (nibbles q.1) (trees (updates (pairs ++ [q]))).now) (W ++ puts) := by
      rw [trees_updates_append pairs hq]
      obtain ⟨rfl, rfl, rfl⟩ | ⟨p, hp, hspine, hold⟩ := hst
      · refine ⟨.leaf 0 (nibbles q.1) q.2, [], rfl, ?_, nodesOf_nil⟩
        rw [updates, map_nil, trees, foldl_nil, RadixTree.insert_nil (by simp)]
        exact .leaf 0 _ _
      obtain ⟨st', puts, hins, hspine', hnew, hfrozen⟩ :=
        insert_spine hspine drop_zero (not_mem_nibbles q.1) (h.before hp) q.2
      exact ⟨st', puts, hins, hspine', (hold.imp hfrozen).append hnew⟩
    refine ⟨st', W ++ puts, ?_, .inr ⟨q, by simp, hspine, hnodes⟩⟩
    have happ : (newStackTrie db).updateAll C (pairs ++ [q]) =
        (newStackTrie db).updateAll C pairs >>= fun b => b.tryUpdate C q.1 q.2 := by
      simp [Builder.updateAll]
    rw [happ, hrun]
    simp only [bind, Except.bind, Builder.tryUpdate]
    rw [if_neg (by simpa using hq), dropLast_keybytesToHex, hins]
    cases db with
    | none => rfl
    | some puts' => simp

theorem stub_length (t : Patricia) : (stub C t).length = if size C t < 32 then size C t else 32 := by
  rw [stub]
  split
  · rfl
  · simp

theorem root_of_stub (t : Patricia) :
    (if (stub C t).length ≠ 32 then C.keccak256 (stub C t) else copyInto 32 (stub C t)) = hashOf C t := by
  rw [stub_length, stub]
  by_cases hs : size C t < 32
  · rw [if_pos hs, if_pos (by omega), if_pos hs]
    rfl
  · rw [if_neg hs, if_neg (by simp), if_neg hs, copyInto_toList]

/-- What the trie is before it is hashed: empty, or it hashes to the tree and
its writes are nodes of it. -/
def Ready (C : Crypto) (W : Puts) (st : StackTrie) (t : Patricia) : Prop :=
  (st = .empty 0 ∧ t = .nil ∧ W = []) ∨
    (isInner t = true ∧ Hashes C W st t ∧ NodesOf C (fun t' => t'.Within t) W)

theorem ready_of_updateAll (h : Sorted pairs) (db : Option Puts) :
    ∃ st W, (newStackTrie db).updateAll C pairs = .ok ⟨st, db.map (· ++ W)⟩ ∧
      Ready C W st (trees (updates pairs)).now := by
  obtain ⟨st, W, hrun, ⟨rfl, rfl, rfl⟩ | ⟨p, _, hspine, hnodes⟩⟩ := updateAll_spec (C := C) h db
  · exact ⟨.empty 0, [], hrun, .inl ⟨rfl, rfl, rfl⟩⟩
  · exact ⟨st, W, hrun, .inr ⟨hspine.isInner.1, hashes_spine hspine, hnodes.imp fun t' h => h.within⟩⟩

theorem builder_hash_spec (db : Option Puts)
    (h : Ready C W st t) : ∃ b, (Builder.mk st db).hash C = .ok (rootHash C t, b) := by
  obtain ⟨rfl, rfl, _⟩ | ⟨hi, ⟨puts, hhash, _, _⟩, _⟩ := h
  · refine ⟨⟨.hashed emptyRoot.toList, db.map (· ++ [])⟩, ?_⟩
    have hroot : (if emptyRoot.toList.length ≠ 32 then C.keccak256 emptyRoot.toList
        else copyInto 32 emptyRoot.toList) = emptyRoot := by
      rw [if_neg (by simp), copyInto_toList]
    rfl
  refine ⟨⟨.hashed (stub C t), db.map (· ++ puts)⟩, ?_⟩
  simp only [Builder.hash, Builder.hashSelf, hhash, bind, Except.bind, root_of_stub]
  rw [rootHash_inner hi]
  rfl

theorem builder_commit_spec (h : Ready C W st t) :
    ∃ st' puts, (Builder.mk st (some W)).commit C = .ok (rootHash C t, ⟨st', some puts⟩) ∧
      NodesOf C (fun t' => t'.Within t) puts ∧
      ∀ t', t'.Within t → isInner t' = true → 32 ≤ size C t' ∨ t' = t →
        (hashOf C t', encode (item C t')) ∈ puts := by
  obtain ⟨rfl, rfl, rfl⟩ | ⟨hi, ⟨puts, hhash, hsaved, hnew⟩, hold⟩ := h
  · refine ⟨.hashed emptyRoot.toList, [], ?_, nodesOf_nil, fun t' hw hi _ => ?_⟩
    · simp only [Builder.commit, Builder.hashSelf, Stack.hash, bind, Except.bind]
      rw [if_neg (by simp), if_neg (by simp), copyInto_toList]
      rfl
    cases hw
    cases hi
  by_cases hs : size C t < 32
  · have hstub : stub C t = encode (item C t) := if_pos hs
    have hroot : NodesOf C (fun t' => t'.Within t) [(hashOf C t, encode (item C t))] := by
      intro e he
      obtain rfl := mem_singleton.mp he
      exact ⟨t, within_self t, hi, rfl⟩
    refine ⟨.hashed (stub C t), W ++ puts ++ [(hashOf C t, encode (item C t))], ?_,
      (hold.append hnew).append hroot, fun t' hw hi' hl => ?_⟩
    · simp only [Builder.commit, Builder.hashSelf, hhash, bind, Except.bind]
      rw [if_neg (by simp), if_pos (by rw [stub_length, if_pos hs]; omega), hstub, rootHash_inner hi]
      rfl
    obtain hl | rfl := hl
    · exact mem_append_left _ (hsaved t' hw hi' hl)
    · exact mem_append_right _ mem_cons_self
  have hstub : stub C t = (hashOf C t).toList := if_neg hs
  refine ⟨.hashed (stub C t), W ++ puts, ?_, hold.append hnew, fun t' hw hi' hl => hsaved t' hw hi' ?_⟩
  · simp only [Builder.commit, Builder.hashSelf, hhash, bind, Except.bind]
    rw [if_neg (by simp), if_neg (by rw [stub_length, if_neg hs]; simp), hstub, copyInto_toList,
      rootHash_inner hi]
    rfl
  obtain hl | rfl := hl
  · exact hl
  · exact not_lt.mp hs

end

theorem Sorted.lookup_last {pairs} {q} (h : Sorted (pairs ++ [q])) : pairs.lookup q.1 = none := by
  rw [lookup_eq_none_iff]
  intro p hp
  have hlt := (pairwise_append.mp h.keys).2.2 p hp q (by simp)
  rw [bne_iff_ne]
  intro heq
  rw [heq] at hlt
  exact List.lt_irrefl _ hlt

theorem contents_updates {pairs} (h : Sorted pairs) :
    contents (updates pairs) = fun key => pairs.lookup key := by
  induction pairs using reverseRecOn with
  | nil => rfl
  | append_singleton pairs q ih =>
    funext key
    have hstep : contents (updates (pairs ++ [q])) = updateMap q.1 q.2 (contents (updates pairs)) := by
      rw [updates, map_append, map_singleton, contents, maps_append]
      rfl
    rw [hstep, ih h.init, updateMap, if_neg (h.values q (by simp)), update_apply, lookup_append]
    by_cases hkey : key = q.1
    · rw [if_pos hkey, hkey, h.lookup_last, lookup_cons, beq_self_eq_true]
      rfl
    · rw [if_neg hkey, lookup_cons, beq_eq_false_iff_ne.mpr hkey, lookup_nil, Option.or_none]

theorem write_lookup {e} (he : e ∈ puts) (disk : AList fun _ : Hash => Bytes) :
    ∃ b, (Database.write disk puts).lookup e.1 = some b ∧ (e.1, b) ∈ puts := by
  induction puts using reverseRecOn with
  | nil => cases he
  | append_singleton puts q ih =>
    have happ : Database.write disk (puts ++ [q]) = (Database.write disk puts).insert q.1 q.2 := by
      simp [Database.write]
    rw [happ]
    by_cases hq : e.1 = q.1
    · rw [hq, AList.lookup_insert]
      exact ⟨q.2, rfl, by simp⟩
    obtain he | he := mem_append.mp he
    · obtain ⟨b, hb, hmem⟩ := ih he
      exact ⟨b, by rwa [AList.lookup_insert_ne hq], mem_append_left _ hmem⟩
    rw [mem_singleton.mp he] at hq
    exact (hq rfl).elim

theorem onDisk_of_puts {S} {C} (hC : Ideal C S) {t} (ht : InPlay C S t) (hnodes : NodesOf C (fun t' => t'.Within t) puts)
    (hall : ∀ t', t'.Within t → isInner t' = true → 32 ≤ size C t' ∨ t' = t →
      (hashOf C t', encode (item C t')) ∈ puts) :
    OnDisk C (newDatabase (Database.write ∅ puts) none) t := by
  refine ⟨ht.storable, fun t' hw hi hl => ⟨(hC.hashOf_ne (ht.within hw hi) hi).1, ?_⟩⟩
  obtain ⟨b, hb, hbmem⟩ := write_lookup (hall t' hw hi hl) ∅
  obtain ⟨t'', hw', hi', heq⟩ := hnodes _ hbmem
  obtain ⟨hhash, rfl⟩ := Prod.mk.inj heq
  have hsame : encode (item C t') = encode (item C t'') :=
    hC.injOn (ht.encodings ⟨t', hw, hi, rfl⟩) (ht.encodings ⟨t'', hw', hi', rfl⟩) hhash
  rw [hsame]
  exact hb

/-- Inserting sorted pairs never panics, and the root hash is that of every
trie with these contents. With a database attached the nodes that have a hash
are written, and the trie can be opened from the writes. -/
theorem stack_trie_agrees (C : Crypto) (pairs : List (Bytes × Bytes)) (h : Sorted pairs) (ops : List Op)
    (hmem : ∀ op ∈ ops ++ updates pairs, op.InMemory) (hC : Ideal C (inPlay C ops))
    (hsame : contents ops = fun key => pairs.lookup key) :
    ∃ s root r, run C ops = .ok s ∧ hashTrie C s.db s.root = .ok (root, r) ∧
      (∀ db, ∃ b b', (newStackTrie db).updateAll C pairs = .ok b ∧ b.hash C = .ok (root, b')) ∧
      ∃ b st puts n, (newStackTrie (some [])).updateAll C pairs = .ok b ∧
        b.commit C = .ok (root, ⟨st, some puts⟩) ∧
        (∀ t' : Patricia, t'.Within (trees ops).now → isInner t' = true →
          32 ≤ size C t' ∨ t' = (trees ops).now → (hashOf C t', encode (item C t')) ∈ puts) ∧
        newTrie (newDatabase (Database.write ∅ puts) none) root = .ok n ∧
        ∀ key, ∃ n', tryGetKey (newDatabase (Database.write ∅ puts) none) n key =
          .ok (pairs.lookup key, n') := by
  have hops (op : Op) (h : op ∈ ops) : op.InMemory := hmem op (mem_append_left _ h)
  have hm := (related_run hops).now
  have hm' := (related_run fun op h => hmem op (mem_append_right ops h)).now
  change Models (trees ops).now (contents ops) at hm
  change Models (trees (updates pairs)).now (contents (updates pairs)) at hm'
  rw [contents_updates h, ← hsame] at hm'
  have htree := hm'.unique hm
  have ht := inPlay_of_part hops (prefix_refl ops) (Set.Subset.refl (inPlay C ops))
  obtain ⟨s, hs, hf⟩ := follows_run hC hops (Set.Subset.refl _)
  obtain ⟨n, d, hhash, _⟩ := hashTrie_spec s.db hf.root hm.typed hm.proper
  refine ⟨s, rootHash C (trees ops).now, _, hs, hhash, fun db => ?_, ?_⟩
  · obtain ⟨st, W, hrun, hready⟩ := ready_of_updateAll h db
    obtain ⟨b', hb'⟩ := builder_hash_spec (db.map (· ++ W)) hready
    rw [htree] at hb'
    exact ⟨_, b', hrun, hb'⟩
  obtain ⟨st, W, hrun, hready⟩ := ready_of_updateAll h (some [])
  obtain ⟨st', puts, hcommit, hnodes, hall⟩ := builder_commit_spec hready
  rw [htree] at hcommit hall hnodes
  have hserves : Serves C (OnDisk C (newDatabase (Database.write ∅ puts) none))
      (newDatabase (Database.write ∅ puts) none) := serves_onDisk rfl rfl rfl
  obtain ⟨n, hn, hrep⟩ := Missed.resolve
    (newTrie_spec hC hserves.answers ht (.inr (onDisk_of_puts hC ht hnodes hall)))
  refine ⟨_, st', puts, n, hrun, hcommit, hall, hn, fun key => ?_⟩
  obtain ⟨n', hget, _⟩ := Missed.resolve (tryGetKey_spec hserves.answers hrep hm key)
  rw [hsame] at hget
  exact ⟨n', hget⟩

def samplePairs : List (Bytes × Bytes) := [([0x12], longValue), ([0x34], [8])]

theorem stack_trie_agrees_reloading :
    ∃ s root r, run sampleCrypto reloadingOps = .ok s ∧
      hashTrie sampleCrypto s.db s.root = .ok (root, r) ∧
      ∃ b b', (newStackTrie none).updateAll sampleCrypto samplePairs = .ok b ∧
        b.hash sampleCrypto = .ok (root, b') := by
  have hsorted : Sorted samplePairs := ⟨by decide, by decide, by decide⟩
  have hmem : ∀ op ∈ reloadingOps ++ updates samplePairs, op.InMemory := by
    simp [reloadingOps, updates, samplePairs, Op.InMemory, keybytesToHex_length, longValue]
  have hC : Ideal sampleCrypto (inPlay sampleCrypto reloadingOps) := by
    have hsub : ∀ b ∈ reloadingOps.inits.flatMap fun pre => nodeEncodings sampleCrypto (trees pre).now,
        b ∈ sampleHashes.map Prod.fst := by
      decide +kernel
    exact ideal_of_list (fun b hb => hsub b (mem_inits_of_inPlay hb)) (by decide +kernel)
  have hsame : contents reloadingOps = fun key => samplePairs.lookup key := by
    funext key
    by_cases h₁ : key = [0x12]
    · subst key
      decide
    by_cases h₂ : key = [0x34]
    · subst key
      decide
    have hnone : samplePairs.lookup key = none := by
      simp [lookup_eq_none_iff, samplePairs, h₁, h₂]
    rw [hnone]
    simp [contents, maps, reloadingOps, History.step, updateMap, longValue, h₁, h₂]
  obtain ⟨s, root, r, hs, hhash, hstack, _⟩ :=
    stack_trie_agrees sampleCrypto samplePairs hsorted reloadingOps hmem hC hsame
  exact ⟨s, root, r, hs, hhash, hstack none⟩

end Geth.Trie.Stack
