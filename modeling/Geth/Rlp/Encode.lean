import Geth.Common.Basic

namespace Geth.Rlp.Encode

open Lib.BigEndian Common.Basic List Nat UInt64 Except

inductive EncodeError where
  | negativeBigInt
  deriving DecidableEq, Repr

def puthead (smalltag largetag : UInt8) (size : Nat) : Bytes :=
  if size < 56 then [smalltag + UInt8.ofNat size]
  else (largetag + UInt8.ofNat (byteLen size)) :: natBytes size

def encodeStringHeader (size : Nat) : Bytes := puthead 0x80 0xB7 size

def encodeString : Bytes → Bytes
  | [x] => if x ≤ 0x7F then [x] else encodeStringHeader 1 ++ [x]
  | b => encodeStringHeader b.length ++ b

def encodeUint (i : UInt64) : Bytes :=
  if i = 0 then [0x80]
  else if i < 128 then [UInt8.ofNat i.toNat]
  else (0x80 + UInt8.ofNat (byteLen i.toNat)) :: natBytes i.toNat

def writeBigInt (i : Int) : Except EncodeError Bytes :=
  if i < 0 then .error .negativeBigInt
  else if bitLen i.toNat ≤ 64 then .ok (encodeUint (UInt64.ofNat i.toNat))
  else .ok (encodeStringHeader (byteLen i.toNat) ++ natBytes i.toNat)

def writeBigIntPtr : Option Int → Except EncodeError Bytes
  | none => .ok [0x80]
  | some i => writeBigInt i

def writeByteArray : Bytes → Bytes
  | [] => [0x80]
  | [x] => if x ≤ 0x7F then [x] else [0x81, x]
  | b => encodeStringHeader b.length ++ b

/-- The Go values that reach the encoder. A nil pointer to a byte array
encodes like the empty string. -/
inductive Value where
  | uint (i : UInt64)
  | bigInt (i : Option Int)
  | bytes (b : Bytes)
  | array (b : Bytes)
  | arrayPtr (b : Option Bytes)
  | list (vs : List Value)

mutual
def write : Value → Except EncodeError Bytes
  | .uint i => .ok (encodeUint i)
  | .bigInt i => writeBigIntPtr i
  | .bytes b => .ok (encodeString b)
  | .array b => .ok (writeByteArray b)
  | .arrayPtr none => .ok [0x80]
  | .arrayPtr (some b) => .ok (writeByteArray b)
  | .list vs => do
      let content ← writeAll vs
      return puthead 0xC0 0xF7 content.length ++ content
def writeAll : List Value → Except EncodeError Bytes
  | [] => .ok []
  | v :: vs => do
      let head ← write v
      let tail ← writeAll vs
      return head ++ tail
end

/-- What an encoding means: a tree of byte strings. -/
inductive Item where
  | str (b : Bytes)
  | list (items : List Item)

mutual
def encode : Item → Bytes
  | .str b => encodeString b
  | .list items => puthead 0xC0 0xF7 (encodeAll items).length ++ encodeAll items
def encodeAll : List Item → Bytes
  | [] => []
  | i :: items => encode i ++ encodeAll items
end

def bigIntItem : Option Int → Except EncodeError Item
  | none => .ok (.str [])
  | some i => if i < 0 then .error .negativeBigInt else .ok (.str (natBytes i.toNat))

mutual
def item : Value → Except EncodeError Item
  | .uint i => .ok (.str (natBytes i.toNat))
  | .bigInt i => bigIntItem i
  | .bytes b => .ok (.str b)
  | .array b => .ok (.str b)
  | .arrayPtr b => .ok (.str (b.getD []))
  | .list vs => do
      let items ← itemAll vs
      return .list items
def itemAll : List Value → Except EncodeError (List Item)
  | [] => .ok []
  | v :: vs => do
      let head ← item v
      let tail ← itemAll vs
      return head :: tail
end

variable {v n : Nat} {b : Bytes} {items : List Item}

theorem natBytes_small (h0 : v ≠ 0) (h : v < 256) : natBytes v = [UInt8.ofNat v] := by
  have hlen : byteLen v = 1 := by
    have hle := byteLen_le (k := 1) (by simpa using h)
    have hpos := byteLen_pos h0
    omega
  simp [natBytes, hlen, beBytes]

theorem encodeString_of_length (h : b.length ≠ 1) : encodeString b = encodeStringHeader b.length ++ b := by
  match b with
  | [] => rfl
  | [_] => simp at h
  | _ :: _ :: _ => rfl

theorem byteLen_two_le (h : 256 ≤ v) : 2 ≤ byteLen v := by
  by_contra hlt
  have hv := lt_pow_byteLen v
  have hle : 256 ^ byteLen v ≤ 256 ^ 1 := Nat.pow_le_pow_right (by decide) (by omega)
  omega

theorem encodeUint_eq (i : UInt64) : encodeUint i = encodeString (natBytes i.toNat) := by
  unfold encodeUint
  by_cases h0 : i = 0
  · subst i; decide
  have hn : i.toNat ≠ 0 := fun h => h0 (UInt64.toNat_inj.mp (by simpa using h))
  rw [if_neg h0]
  by_cases h1 : i.toNat < 256
  · by_cases h2 : i.toNat < 128
    · have hi : i < 128 := lt_iff_toNat_lt.mpr (by simpa using h2)
      have hx : UInt8.ofNat i.toNat ≤ 0x7F := by
        rw [UInt8.le_iff_toNat_le, UInt8.toNat_ofNat', mod_eq_of_lt h1]
        exact Nat.lt_succ_iff.mp h2
      rw [if_pos hi, natBytes_small hn h1, encodeString, if_pos hx]
    have hi : ¬ i < 128 := fun h => h2 (by simpa using lt_iff_toNat_lt.mp h)
    have hx : ¬ UInt8.ofNat i.toNat ≤ 0x7F := by
      rw [UInt8.le_iff_toNat_le, UInt8.toNat_ofNat', mod_eq_of_lt h1]
      exact fun h => h2 (Nat.lt_succ_iff.mpr h)
    have hlen : byteLen i.toNat = 1 := by
      simpa [natBytes] using congrArg length (natBytes_small hn h1)
    rw [if_neg hi, natBytes_small hn h1, encodeString, if_neg hx, hlen]
    rfl
  have hi : ¬ i < 128 := fun h => h1 (lt_trans (lt_iff_toNat_lt.mp h) (by decide))
  have hlo := byteLen_two_le (not_lt.mp h1)
  have hhi : byteLen i.toNat ≤ 8 := byteLen_le (lt_of_lt_of_le i.toNat_lt (by decide))
  have hlen : (natBytes i.toNat).length = byteLen i.toNat := by simp [natBytes]
  rw [if_neg hi, encodeString_of_length (by omega), hlen, encodeStringHeader, puthead, if_pos (by omega)]
  rfl

theorem bitLen_le_iff {k : Nat} : bitLen v ≤ k ↔ v < 2 ^ k := by
  by_cases hv : v = 0
  · subst v; simp [bitLen]
  simp only [bitLen, hv, ↓reduceIte, ← log2_lt hv]
  omega

theorem writeBigInt_eq (i : Int) :
    writeBigInt i = if i < 0 then .error .negativeBigInt else .ok (encodeString (natBytes i.toNat)) := by
  unfold writeBigInt
  split
  · rfl
  split
  · rename_i hb
    have hlt := bitLen_le_iff.mp hb
    rw [encodeUint_eq, toNat_ofNat', mod_eq_of_lt hlt]
  rename_i hb
  have hge : 256 ≤ i.toNat := by
    have hlt := mt bitLen_le_iff.mpr hb
    exact le_trans (by decide) (not_lt.mp hlt)
  have hlo := byteLen_two_le hge
  have hlen : (natBytes i.toNat).length = byteLen i.toNat := by simp [natBytes]
  rw [encodeString_of_length (by omega), hlen]

theorem writeByteArray_eq (b : Bytes) : writeByteArray b = encodeString b := by
  match b with
  | [] => rfl
  | [x] =>
    by_cases h : x ≤ 0x7F
    · simp [writeByteArray, encodeString, h]
    · simp [writeByteArray, encodeString, h, encodeStringHeader, puthead]
  | _ :: _ :: _ => rfl

theorem writeBigIntPtr_eq (i : Option Int) : writeBigIntPtr i = (bigIntItem i).map encode := by
  cases i with
  | none => rfl
  | some i =>
    rw [writeBigIntPtr, writeBigInt_eq, bigIntItem]
    split <;> rfl

mutual

/-- The encoder writes the canonical encoding of the tree a value denotes,
and refuses exactly the values that denote none. -/
theorem write_eq (v : Value) : write v = (item v).map encode := by
  cases v with
  | uint i => simp only [write, item, encodeUint_eq]; rfl
  | bigInt i => simp only [write, item, writeBigIntPtr_eq]
  | bytes b => rfl
  | array b => simp only [write, item, writeByteArray_eq]; rfl
  | arrayPtr b => cases b <;> simp only [write, item, writeByteArray_eq] <;> rfl
  | list vs =>
    simp only [write, item, writeAll_eq vs]
    cases itemAll vs <;> rfl

theorem writeAll_eq (vs : List Value) : writeAll vs = (itemAll vs).map encodeAll := by
  cases vs with
  | nil => rfl
  | cons v vs =>
    simp only [writeAll, itemAll, write_eq v, writeAll_eq vs]
    cases item v with
    | error e => rfl
    | ok i => cases itemAll vs <;> rfl

end

theorem itemAll_forall₂ {vs ws} (hv : itemAll vs = .ok items) (hw : itemAll ws = .ok items) :
    List.Forall₂ (fun v w => ∃ i, item v = .ok i ∧ item w = .ok i) vs ws := by
  induction vs generalizing ws items with
  | nil =>
    cases hv
    cases ws with
    | nil => exact .nil
    | cons w ws =>
      obtain ⟨i, _, hi⟩ := bind_eq_ok.mp hw
      obtain ⟨is, _, his⟩ := bind_eq_ok.mp hi
      cases his
  | cons v vs ih =>
    obtain ⟨i, hi, hv⟩ := bind_eq_ok.mp hv
    obtain ⟨is, his, hv⟩ := bind_eq_ok.mp hv
    cases hv
    cases ws with
    | nil => cases hw
    | cons w ws =>
      obtain ⟨j, hj, hw⟩ := bind_eq_ok.mp hw
      obtain ⟨js, hjs, hw⟩ := bind_eq_ok.mp hw
      cases hw
      exact .cons ⟨i, hi, hj⟩ (ih his hjs)

theorem item_array_inj {a b : FixedBytes n}
    (h : ∃ i, item (.array a.toList) = .ok i ∧ item (.array b.toList) = .ok i) : a = b := by
  obtain ⟨i, ha, hb⟩ := h
  simp only [item, ok.injEq] at ha hb
  subst hb
  exact List.Vector.toList_injective (Item.str.inj ha)

theorem item_bytes_inj {a} (h : ∃ i, item (.bytes a) = .ok i ∧ item (.bytes b) = .ok i) : a = b := by
  obtain ⟨i, ha, hb⟩ := h
  simp only [item, ok.injEq] at ha hb
  subst hb
  exact Item.str.inj ha

theorem item_uint_inj {a b} (h : ∃ i, item (.uint a) = .ok i ∧ item (.uint b) = .ok i) : a = b := by
  obtain ⟨i, ha, hb⟩ := h
  simp only [item, ok.injEq] at ha hb
  subst hb
  exact UInt64.toNat_inj.mp (natBytes_injective (Item.str.inj ha))

/-- A nil integer has the encoding of zero, so only integers that are both
nil or both present are told apart. -/
theorem item_bigInt_inj {a b} (hnil : a = none ↔ b = none)
    (h : ∃ i, item (.bigInt a) = .ok i ∧ item (.bigInt b) = .ok i) : a = b := by
  obtain ⟨i, ha, hb⟩ := h
  cases a with
  | none => exact (hnil.mp rfl).symm
  | some x =>
    cases b with
    | none => exact hnil.mpr rfl
    | some y =>
      simp only [item, bigIntItem] at ha hb
      split at ha
      · cases ha
      split at hb
      · cases hb
      cases ha
      have hxy := natBytes_injective (Item.str.inj (ok.inj hb))
      exact congrArg some (by omega)

/-- `EncodeToBytes` and writes to a byte buffer fail when the result would
not fit a Go slice. -/
def maxLen : Nat := 2 ^ 63

theorem puthead_length_mono (smalltag largetag : UInt8) {m : Nat} (h : n ≤ m) :
    (puthead smalltag largetag n).length ≤ (puthead smalltag largetag m).length := by
  have hmono : byteLen n ≤ byteLen m := byteLen_le (lt_of_le_of_lt h (lt_pow_byteLen m))
  by_cases hm : m < 56
  · have hn : n < 56 := by omega
    simp [puthead, hn, hm]
  by_cases hn : n < 56
  · simp [puthead, hn, hm]
  · simpa [puthead, hn, hm, natBytes] using hmono

theorem encodeString_length_le (b : Bytes) :
    (encodeString b).length ≤ (encodeStringHeader b.length).length + b.length := by
  match b with
  | [] => simp [encodeString]
  | [x] => by_cases h : x ≤ 0x7F <;> simp [encodeString, h]
  | _ :: _ :: _ => simp [encodeString]

theorem encodeString_length_lt {p d} (h : p.length + 1 < d.length) :
    (encodeString p).length < (encodeString d).length := by
  have hp := encodeString_length_le p
  have hmono := puthead_length_mono 0x80 0xB7 (le_of_lt (lt_of_succ_lt h))
  rw [encodeString_of_length (b := d) (by omega), length_append]
  rw [encodeStringHeader] at hp ⊢
  omega

theorem encode_list_length_lt {as bs} (h : (encodeAll as).length < (encodeAll bs).length) :
    (encode (.list as)).length < (encode (.list bs)).length := by
  have hmono := puthead_length_mono 0xC0 0xF7 (le_of_lt h)
  simp only [encode, length_append]
  omega

theorem puthead_length_le (smalltag largetag : UInt8) {size : Nat} (h : size < 2 ^ 64) :
    (puthead smalltag largetag size).length ≤ 9 := by
  have hle : byteLen size ≤ 8 := byteLen_le (lt_of_lt_of_le h (by decide))
  rw [puthead]
  split
  · simp
  have hlen : (natBytes size).length = byteLen size := by simp [natBytes]
  rw [length_cons, hlen]
  omega

theorem encodeString_length_le_add (h : b.length < 2 ^ 64) : (encodeString b).length ≤ b.length + 9 := by
  have hle := encodeString_length_le b
  have hhead := puthead_length_le 0x80 0xB7 h
  rw [encodeStringHeader] at hle
  omega

theorem encode_list_length_le (h : (encodeAll items).length < 2 ^ 64) :
    (encode (.list items)).length ≤ (encodeAll items).length + 9 := by
  have hhead := puthead_length_le 0xC0 0xF7 h
  rw [encode, length_append]
  omega

theorem encodeAll_map_length_le {α : Type} {f : α → Item} {B : Nat} {l : List α}
    (h : ∀ x ∈ l, (encode (f x)).length ≤ B) : (encodeAll (l.map f)).length ≤ l.length * B := by
  induction l with
  | nil => simp [encodeAll]
  | cons x l ih =>
    have hx := h x (by simp)
    have hl := ih (fun y hy => h y (by simp [hy]))
    rw [map_cons, encodeAll, length_append, length_cons, add_mul]
    omega

theorem encodeAll_append (as bs : List Item) : encodeAll (as ++ bs) = encodeAll as ++ encodeAll bs := by
  induction as with
  | nil => rfl
  | cons a as ih => simp [encodeAll, ih]

end Geth.Rlp.Encode
