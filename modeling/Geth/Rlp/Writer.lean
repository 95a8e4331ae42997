import Geth.Rlp.Encode

namespace Geth.Rlp.Writer

open Lib.BigEndian Encode List

inductive Width where
  | w8 | w16 | w32 | w64

def Width.bits : Width → ℕ
  | .w8 => 8
  | .w16 => 16
  | .w32 => 32
  | .w64 => 64

mutual

/-- The Go types that the codec is asked for. Slices and arrays of `uint8` are
byte strings. -/
inductive Ty where
  | iface
  | uint (w : Width)
  | bigInt
  | bool
  | string
  | slice (t : Ty)
  | array (n : ℕ) (t : Ty)
  | struct (fields : Fields)

inductive Fields where
  | nil
  | cons (t : Ty) (fields : Fields)

end

mutual

def Ty.Val : Ty → Type
  | .iface => Item
  | .uint w => BitVec w.bits
  | .bigInt => ℤ
  | .bool => Bool
  | .string => Bytes
  | .slice t => List t.Val
  | .array n t => List.Vector t.Val n
  | .struct fields => fields.Val

def Fields.Val : Fields → Type
  | .nil => Unit
  | .cons t fields => t.Val × fields.Val

end

def byteEquiv : BitVec 8 ≃ UInt8 where
  toFun := UInt8.ofBitVec
  invFun := UInt8.toBitVec
  left_inv _ := rfl
  right_inv _ := rfl

/-- Whether the elements are bytes, and which ones. -/
def Ty.byte : (t : Ty) → Option (t.Val ≃ UInt8)
  | .uint .w8 => some byteEquiv
  | _ => none

structure ListHead where
  offset : ℕ
  size : ℕ

/-- The buffer holds everything but the list headers, which are kept apart with
the places they belong to. -/
structure Encbuf where
  str : Bytes
  lheads : List ListHead
  lhsize : ℕ

namespace Encbuf

def empty : Encbuf := ⟨[], [], 0⟩

def append (w : Encbuf) (b : Bytes) : Encbuf := { w with str := w.str ++ b }

def size (w : Encbuf) : ℕ := w.str.length + w.lhsize

/-- A new header, with its index. Until the list ends its size is that of the
headers before it. -/
def list (w : Encbuf) : ℕ × Encbuf :=
  (w.lheads.length, { w with lheads := w.lheads ++ [⟨w.str.length, w.lhsize⟩] })

def listEnd (w : Encbuf) (index : ℕ) : Encbuf :=
  match w.lheads[index]? with
  | none => w
  | some lh =>
    let size := w.size - lh.offset - lh.size
    { w with
      lheads := w.lheads.set index ⟨lh.offset, size⟩
      lhsize := w.lhsize + if size < 56 then 1 else 1 + byteLen size }

/-- The pieces that `toBytes` copies one after the other. -/
def pieces : List ListHead → ℕ → Bytes → Bytes
  | [], _, str => str
  | head :: lheads, strpos, str =>
    str.take (head.offset - strpos) ++ (puthead 0xC0 0xF7 head.size ++
      pieces lheads (strpos + (head.offset - strpos)) (str.drop (head.offset - strpos)))

/-- The output has the size that was computed, whatever is copied into it. -/
def toBytes (w : Encbuf) : Bytes :=
  let out := pieces w.lheads 0 w.str
  (out ++ List.replicate (w.size - out.length) 0).take w.size

/-- A slice or array: an empty one needs no header. -/
def writeList {α : Type} (write : α → Encbuf → Except EncodeError Encbuf) (vs : List α) (w : Encbuf) :
    Except EncodeError Encbuf :=
  if vs.length = 0 then .ok (w.append [0xC0])
  else do
    let w' ← vs.foldlM (fun w v => write v w) w.list.2
    return w'.listEnd w.list.1

end Encbuf

def writeBool (b : Bool) : Bytes := if b then [0x01] else [0x80]

mutual

/-- `writeInterface`, for byte strings and lists of such values. -/
def writeItem : Item → Encbuf → Encbuf
  | .str b, w => w.append (encodeString b)
  | .list [], w => w.append [0xC0]
  | .list (i :: items), w => (writeItems (i :: items) w.list.2).listEnd w.list.1

def writeItems : List Item → Encbuf → Encbuf
  | [], w => w
  | i :: items, w => writeItems items (writeItem i w)

end

mutual

def writeVal : (t : Ty) → t.Val → Encbuf → Except EncodeError Encbuf
  | .iface, v, w => .ok (writeItem v w)
  | .uint _, v, w => .ok (w.append (encodeUint (UInt64.ofNat v.toNat)))
  | .bigInt, i, w => (writeBigInt i).map w.append
  | .bool, b, w => .ok (w.append (writeBool b))
  | .string, b, w => .ok (w.append (encodeString b))
  | .slice t, vs, w =>
    match t.byte with
    | some e => .ok (w.append (encodeString (vs.map e)))
    | none => Encbuf.writeList (writeVal t) vs w
  | .array _ t, vs, w =>
    match t.byte with
    | some e => .ok (w.append (writeByteArray (vs.toList.map e)))
    | none => Encbuf.writeList (writeVal t) vs.toList w
  | .struct fields, v, w => do
    let w' ← writeFields fields v w.list.2
    return w'.listEnd w.list.1

def writeFields : (fields : Fields) → fields.Val → Encbuf → Except EncodeError Encbuf
  | .nil, _, w => .ok w
  | .cons t fields, v, w => do
    let w ← writeVal t v.1 w
    writeFields fields v.2 w

end

def encodeToBytes (t : Ty) (v : t.Val) : Except EncodeError Bytes :=
  (writeVal t v .empty).map Encbuf.toBytes

mutual

/-- The tree of byte strings that a value stands for. -/
def itemOf : (t : Ty) → t.Val → Except EncodeError Item
  | .iface, v => .ok v
  | .uint _, v => .ok (.str (natBytes v.toNat))
  | .bigInt, i => bigIntItem (some i)
  | .bool, b => .ok (.str (natBytes (Bool.toNat b)))
  | .string, b => .ok (.str b)
  | .slice t, vs =>
    match t.byte with
    | some e => .ok (.str (vs.map e))
    | none => (vs.mapM (itemOf t)).map .list
  | .array _ t, vs =>
    match t.byte with
    | some e => .ok (.str (vs.toList.map e))
    | none => (vs.toList.mapM (itemOf t)).map .list
  | .struct fields, v => (itemsOf fields v).map .list

def itemsOf : (fields : Fields) → fields.Val → Except EncodeError (List Item)
  | .nil, _ => .ok []
  | .cons t fields, v => do
    let i ← itemOf t v.1
    let items ← itemsOf fields v.2
    return i :: items

end

section

open Encbuf Nat

variable {w w₁ w₂ : Encbuf} {out out' : Bytes}

/-- What was written since `w` comes out as `out`. -/
structure Writes (w w' : Encbuf) (out : Bytes) : Prop where
  exists_pieces : ∃ (str : Bytes) (lheads : List ListHead) (lhsize : ℕ),
    w'.str = w.str ++ str ∧ w'.lheads = w.lheads ++ lheads ∧ w'.lhsize = w.lhsize + lhsize ∧
    str.length + lhsize = out.length ∧ (∀ h ∈ lheads, w.str.length ≤ h.offset) ∧
    ∀ tail rest, (∀ h ∈ tail.head?, w.str.length + str.length ≤ h.offset) →
      pieces (lheads ++ tail) w.str.length (str ++ rest) =
        out ++ pieces tail (w.str.length + str.length) rest

theorem Writes.refl (w : Encbuf) : Writes w w [] := by
  refine ⟨[], [], 0, (append_nil _).symm, (append_nil _).symm, rfl, rfl, ?_, ?_⟩
  · exact fun h hh => absurd hh not_mem_nil
  intro tail rest _
  rfl

theorem pieces_append {tail} {pos : ℕ} {str rest} (h : ∀ h ∈ tail.head?, pos + str.length ≤ h.offset) :
    pieces tail pos (str ++ rest) = str ++ pieces tail (pos + str.length) rest := by
  cases tail with
  | nil => rfl
  | cons head tail =>
    have hle : pos + str.length ≤ head.offset := h head rfl
    have hsplit : head.offset - pos = str.length + (head.offset - (pos + str.length)) := by omega
    have hpos : pos + (head.offset - pos) = pos + str.length + (head.offset - (pos + str.length)) := by
      omega
    rw [pieces, pieces, hpos, hsplit, take_length_add_append, drop_length_add_append, append_assoc]

theorem Writes.append (w : Encbuf) (b : Bytes) : Writes w (w.append b) b := by
  refine ⟨b, [], 0, rfl, (append_nil _).symm, rfl, rfl, ?_, ?_⟩
  · exact fun h hh => absurd hh not_mem_nil
  intro tail rest htail
  exact pieces_append htail

theorem Writes.trans (h : Writes w w₁ out) (h' : Writes w₁ w₂ out') : Writes w w₂ (out ++ out') := by
  obtain ⟨str, lheads, n, hstr, hheads, hn, hlen, hoff, hpieces⟩ := h.exists_pieces
  obtain ⟨str', lheads', n', hstr', hheads', hn', hlen', hoff', hpieces'⟩ := h'.exists_pieces
  have hw₁ : w₁.str.length = w.str.length + str.length := by rw [hstr, length_append]
  refine ⟨str ++ str', lheads ++ lheads', n + n', ?_, ?_, ?_, ?_, ?_, ?_⟩
  · rw [hstr', hstr, append_assoc]
  · rw [hheads', hheads, append_assoc]
  · rw [hn', hn, add_assoc]
  · rw [length_append, length_append]
    omega
  · intro x hx
    obtain hx | hx := mem_append.mp hx
    · exact hoff x hx
    have := hoff' x hx
    omega
  intro tail rest htail
  rw [append_assoc, append_assoc, hpieces, ← hw₁, hpieces', append_assoc, hw₁, length_append, add_assoc]
  · intro x hx
    have := htail x hx
    rw [length_append] at this
    omega
  intro x hx
  cases lheads' with
  | nil =>
    have := htail x hx
    rw [length_append] at this
    omega
  | cons y l =>
    obtain rfl : y = x := Option.some.inj hx
    have := hoff' y mem_cons_self
    omega

theorem puthead_length (smalltag largetag : UInt8) (size : ℕ) :
    (puthead smalltag largetag size).length = if size < 56 then 1 else 1 + byteLen size := by
  rw [puthead]
  split
  · rfl
  · rw [length_cons, natBytes, beBytes_length, add_comm]

theorem Writes.list (h : Writes w.list.2 w₁ out) :
    Writes w (w₁.listEnd w.list.1) (puthead 0xC0 0xF7 out.length ++ out) := by
  obtain ⟨str, lheads, n, hstr, hheads, hn, hlen, hoff, hpieces⟩ := h.exists_pieces
  change w₁.str = w.str ++ str at hstr
  change w₁.lheads = w.lheads ++ [⟨w.str.length, w.lhsize⟩] ++ lheads at hheads
  change w₁.lhsize = w.lhsize + n at hn
  have hget : w₁.lheads[w.lheads.length]? = some ⟨w.str.length, w.lhsize⟩ := by
    rw [hheads, append_assoc, getElem?_append_right le_rfl, Nat.sub_self]
    rfl
  have hsize : w₁.size - w.str.length - w.lhsize = out.length := by
    rw [Encbuf.size, hstr, hn, length_append]
    omega
  have hend : w₁.listEnd w.list.1 =
      { w₁ with
        lheads := w.lheads ++ [⟨w.str.length, out.length⟩] ++ lheads
        lhsize := w₁.lhsize + (puthead 0xC0 0xF7 out.length).length } := by
    rw [Encbuf.listEnd, show w.list.1 = w.lheads.length from rfl, hget]
    dsimp only
    rw [hsize, puthead_length, hheads, append_assoc, set_append_right _ _ le_rfl,
      Nat.sub_self, append_assoc]
    rfl
  rw [hend]
  refine ⟨str, ⟨w.str.length, out.length⟩ :: lheads, (puthead 0xC0 0xF7 out.length).length + n,
    hstr, ?_, ?_, ?_, ?_, ?_⟩
  · rw [append_assoc]
    rfl
  · change w₁.lhsize + _ = _
    rw [hn]
    omega
  · rw [length_append]
    omega
  · intro x hx
    obtain rfl | hx := mem_cons.mp hx
    · exact le_rfl
    · exact hoff x hx
  intro tail rest htail
  have hp := hpieces tail rest htail
  change pieces (lheads ++ tail) w.str.length (str ++ rest) = _ at hp
  rw [cons_append, pieces]
  rw [Nat.sub_self, take_zero, drop_zero, add_zero, hp, nil_append, append_assoc]
  rfl

theorem Writes.toBytes (h : Writes .empty w out) : w.toBytes = out := by
  obtain ⟨str, lheads, n, hstr, hheads, hn, hlen, -, hpieces⟩ := h.exists_pieces
  have hp := hpieces [] [] fun x hx => absurd hx (by simp)
  rw [append_nil, append_nil] at hp
  change pieces lheads 0 str = out ++ [] at hp
  change w.str = [] ++ str at hstr
  change w.lheads = [] ++ lheads at hheads
  change w.lhsize = 0 + n at hn
  have hsize : w.size = out.length := by
    rw [Encbuf.size, hstr, hn, nil_append]
    omega
  rw [Encbuf.toBytes, hstr, hheads, nil_append, nil_append, hp, append_nil, hsize,
    Nat.sub_self, replicate_zero, append_nil, take_length]

end

section

variable {w : Encbuf}

/-- A writer adds the bytes, or both fail with the same error. -/
def Agrees (w : Encbuf) : Except EncodeError Encbuf → Except EncodeError Bytes → Prop
  | .ok w', .ok out => Writes w w' out
  | .error e, .error e' => e = e'
  | _, _ => False

mutual

theorem writeItem_writes (i : Item) (w : Encbuf) : Writes w (writeItem i w) (encode i) := by
  cases i with
  | str b =>
    rw [writeItem, encode]
    exact .append w _
  | list items =>
    cases items with
    | nil =>
      rw [writeItem]
      exact .append w _
    | cons i items =>
      rw [writeItem, encode]
      exact (writeItems_writes (i :: items) w.list.2).list

theorem writeItems_writes (items : List Item) (w : Encbuf) :
    Writes w (writeItems items w) (encodeAll items) := by
  cases items with
  | nil => exact .refl w
  | cons i items =>
    rw [writeItems, encodeAll]
    exact (writeItem_writes i w).trans (writeItems_writes items (writeItem i w))

end

section

variable {α : Type} {write : α → Encbuf → Except EncodeError Encbuf} {item : α → Except EncodeError Item}
    {r : Except EncodeError Encbuf}

theorem Agrees.seq {f : Encbuf → Except EncodeError Encbuf}
    {i : Except EncodeError Item} {is : Except EncodeError (List Item)}
    (h : Agrees w r (i.map encode)) (h' : ∀ w', Agrees w' (f w') (is.map encodeAll)) :
    Agrees w (r >>= f) ((do let x ← i; let xs ← is; return x :: xs).map encodeAll) := by
  cases r with
  | error e =>
    cases i with
    | error e' => exact h
    | ok x => exact h.elim
  | ok w' =>
    cases i with
    | error e' => exact h.elim
    | ok x =>
      have h' := h' w'
      change Agrees w (f w') _
      cases hf : f w' with
      | error e =>
        rw [hf] at h'
        cases is with
        | error e' => exact h'
        | ok xs => exact h'.elim
      | ok w'' =>
        rw [hf] at h'
        cases is with
        | error e' => exact h'.elim
        | ok xs =>
          change Writes w w'' (encodeAll (x :: xs))
          rw [encodeAll]
          exact Writes.trans h h'

theorem foldlM_agrees (h : ∀ v w, Agrees w (write v w) ((item v).map encode)) (vs : List α) (w : Encbuf) :
    Agrees w (vs.foldlM (fun w v => write v w) w) ((vs.mapM item).map encodeAll) := by
  induction vs generalizing w with
  | nil => exact Writes.refl w
  | cons v vs ih =>
    rw [foldlM_cons, mapM_cons]
    exact (h v w).seq ih

theorem Agrees.listEnd {items : Except EncodeError (List Item)}
    (h : Agrees w.list.2 r (items.map encodeAll)) :
    Agrees w (r.map fun w' => w'.listEnd w.list.1) ((items.map .list).map encode) := by
  cases r with
  | error e =>
    cases items with
    | error e' => exact h
    | ok items => exact h.elim
  | ok w' =>
    cases items with
    | error e' => exact h.elim
    | ok items =>
      change Writes w (w'.listEnd w.list.1) (encode (.list items))
      rw [encode]
      exact Writes.list h

theorem writeList_agrees (h : ∀ v w, Agrees w (write v w) ((item v).map encode)) (vs : List α)
    (w : Encbuf) :
    Agrees w (Encbuf.writeList write vs w) (((vs.mapM item).map .list).map encode) := by
  rw [Encbuf.writeList]
  split
  · next hvs =>
    obtain rfl := eq_nil_of_length_eq_zero hvs
    exact Writes.append w [0xC0]
  · exact (foldlM_agrees h vs w.list.2).listEnd

end

theorem writeBool_writes (b : Bool) (w : Encbuf) :
    Writes w (w.append (writeBool b)) (encodeString (natBytes b.toNat)) := by
  have hb : writeBool b = encodeString (natBytes b.toNat) := by
    cases b with
    | false => rfl
    | true =>
      rw [natBytes_small (by decide) (by decide)]
      rfl
  rw [hb]
  exact .append w _

theorem writeBigInt_agrees (i : ℤ) (w : Encbuf) :
    Agrees w ((writeBigInt i).map w.append) ((bigIntItem (some i)).map encode) := by
  rw [writeBigInt_eq, bigIntItem]
  split
  · exact rfl
  · exact Writes.append w _

theorem Width.bits_le (w : Width) : w.bits ≤ 64 := by
  cases w <;> decide

mutual

theorem writeVal_agrees (t : Ty) (v : t.Val) (w : Encbuf) :
    Agrees w (writeVal t v w) ((itemOf t v).map encode) := by
  cases t with
  | iface =>
    rw [writeVal, itemOf]
    exact writeItem_writes v w
  | uint width =>
    have hlt : BitVec.toNat (show BitVec width.bits from v) < 2 ^ 64 :=
      lt_of_lt_of_le (BitVec.isLt _) (Nat.pow_le_pow_right (by decide) width.bits_le)
    rw [writeVal, itemOf]
    rw [encodeUint_eq, UInt64.toNat_ofNat', Nat.mod_eq_of_lt hlt]
    exact .append w _
  | bigInt =>
    rw [writeVal, itemOf]
    exact writeBigInt_agrees v w
  | bool =>
    rw [writeVal, itemOf]
    exact writeBool_writes v w
  | string =>
    rw [writeVal, itemOf]
    exact Writes.append w _
  | slice t =>
    rw [writeVal, itemOf]
    cases t.byte with
    | some e => exact Writes.append w _
    | none => exact writeList_agrees (writeVal_agrees t) v w
  | array n t =>
    rw [writeVal, itemOf]
    cases t.byte with
    | some e =>
      dsimp only
      rw [writeByteArray_eq]
      exact Writes.append w _
    | none => exact writeList_agrees (writeVal_agrees t) _ w
  | struct fields =>
    rw [writeVal, itemOf]
    exact (writeFields_agrees fields v w.list.2).listEnd

theorem writeFields_agrees (fields : Fields) (v : fields.Val) (w : Encbuf) :
    Agrees w (writeFields fields v w) ((itemsOf fields v).map encodeAll) := by
  cases fields with
  | nil =>
    rw [writeFields, itemsOf]
    exact Writes.refl w
  | cons t fields =>
    rw [writeFields, itemsOf]
    exact (writeVal_agrees t v.1 w).seq fun w' => writeFields_agrees fields v.2 w'

end

theorem encodeToBytes_eq (t : Ty) (v : t.Val) : encodeToBytes t v = (itemOf t v).map encode := by
  have h := writeVal_agrees t v .empty
  rw [encodeToBytes]
  cases hi : itemOf t v with
  | error e =>
    rw [hi] at h
    cases hw : writeVal t v .empty with
    | error e' =>
      rw [hw] at h
      exact congrArg Except.error h
    | ok w =>
      rw [hw] at h
      exact h.elim
  | ok i =>
    rw [hi] at h
    cases hw : writeVal t v .empty with
    | error e =>
      rw [hw] at h
      exact h.elim
    | ok w =>
      rw [hw] at h
      exact congrArg Except.ok (Writes.toBytes h)

end

end Geth.Rlp.Writer
