import Geth.Rlp.Stream

namespace Geth.Rlp.Raw

open Lib.BigEndian Encode Rlp.Stream List

inductive RawError where
  | unexpectedEOF | canonSize | valueTooLarge | expectedString | expectedList
  deriving DecidableEq, Repr

def readSize (b : Bytes) (slen : ℕ) : Except RawError ℕ :=
  if b.length < slen then .error .unexpectedEOF
  else if beNat (b.take slen) < 56 ∨ b.head? = some 0 then .error .canonSize
  else .ok (beNat (b.take slen))

def readLong (k : Kind) (slen : ℕ) (s : Bytes) : Except RawError (Kind × ℕ × ℕ) := do
  let size ← readSize s slen
  return (k, slen + 1, size)

def readTag : Bytes → Except RawError (Kind × ℕ × ℕ)
  | [] => .error .unexpectedEOF
  | b :: s =>
    if b.toNat < 0x80 then .ok (.byte b, 0, 1)
    else if b.toNat < 0xB8 then
      if b.toNat = 0x81 ∧ (∃ x ∈ s.head?, x.toNat < 128) then .error .canonSize
      else .ok (.string, 1, b.toNat - 0x80)
    else if b.toNat < 0xC0 then readLong .string (b.toNat - 0xB7) s
    else if b.toNat < 0xF8 then .ok (.list, 1, b.toNat - 0xC0)
    else readLong .list (b.toNat - 0xF7) s

def readKind (buf : Bytes) : Except RawError (Kind × ℕ × ℕ) := do
  let (k, tagsize, contentsize) ← readTag buf
  if buf.length - tagsize < contentsize then .error .valueTooLarge else .ok (k, tagsize, contentsize)

/-- The content of the first value and the bytes after it. -/
def split (b : Bytes) : Except RawError (Kind × Bytes × Bytes) := do
  let (k, ts, cs) ← readKind b
  return (k, (b.drop ts).take cs, b.drop (ts + cs))

def splitString (b : Bytes) : Except RawError (Bytes × Bytes) := do
  let (k, content, rest) ← split b
  if k = .list then .error .expectedString else .ok (content, rest)

def splitList (b : Bytes) : Except RawError (Bytes × Bytes) := do
  let (k, content, rest) ← split b
  if k = .list then .ok (content, rest) else .error .expectedList

/-- Every value is at least one byte long, so that many rounds are enough. -/
def countFrom : ℕ → Bytes → Except RawError ℕ
  | _, [] => .ok 0
  | 0, _ => .ok 0
  | fuel + 1, b => do
    let (_, tagsize, size) ← readKind b
    let n ← countFrom fuel (b.drop (tagsize + size))
    return n + 1

def countValues (b : Bytes) : Except RawError ℕ := countFrom b.length b

variable {size : ℕ} {k : Kind} {rest : Bytes} {b tag content : Bytes} (i : Item) (items : List Item)

theorem readSize_natBytes (hs : ¬ size < 56) (rest : Bytes) :
    readSize (natBytes size ++ rest) (byteLen size) = .ok size := by
  have hlen : (natBytes size).length = byteLen size := by simp [natBytes]
  have htake : (natBytes size ++ rest).take (byteLen size) = natBytes size := by
    rw [← hlen, take_left]
  have hpos : 0 < (natBytes size).length := hlen ▸ byteLen_pos (by omega)
  have hhead : (natBytes size ++ rest).head? ≠ some 0 := by
    rw [head?_append_of_ne_nil _ (ne_nil_of_length_pos hpos)]
    exact natBytes_head size
  rw [readSize, if_neg (by rw [length_append]; omega), htake, beNat_natBytes,
    if_neg (not_or.mpr ⟨hs, hhead⟩)]

theorem readTag_puthead {smalltag largetag}
    (hsmalltag : smalltag.toNat + 56 ≤ 256) (hlargetag : largetag.toNat + 8 < 256) (h : size < 2 ^ 64)
    (hsmall : ∀ b : UInt8, b.toNat = smalltag.toNat + size → size < 56 →
      readTag (b :: rest) = .ok (k, 1, size))
    (hlarge : ∀ (b : UInt8) s, largetag.toNat < b.toNat → b.toNat ≤ largetag.toNat + 8 →
      readTag (b :: s) = readLong k (b.toNat - largetag.toNat) s) :
    readTag (puthead smalltag largetag size ++ rest) =
      .ok (k, (puthead smalltag largetag size).length, size) := by
  rw [puthead]
  by_cases hs : size < 56
  · rw [if_pos hs, singleton_append, hsmall _ (toNat_tag_add (by omega)) hs]
    rfl
  have hle : byteLen size ≤ 8 := byteLen_le (lt_of_lt_of_le h (by decide))
  have hpos : 0 < byteLen size := byteLen_pos (by omega)
  have ht : (largetag + UInt8.ofNat (byteLen size)).toNat = largetag.toNat + byteLen size :=
    toNat_tag_add (by omega)
  rw [if_neg hs, cons_append, hlarge _ _ (by omega) (by omega), ht, Nat.add_sub_cancel_left,
    readLong, readSize_natBytes hs]
  simp [bind, Except.bind, pure, Except.pure, natBytes]

theorem readTag_puthead_list (h : size < 2 ^ 64) (rest : Bytes) :
    readTag (puthead 0xC0 0xF7 size ++ rest) = .ok (.list, (puthead 0xC0 0xF7 size).length, size) := by
  apply readTag_puthead (by decide) (by decide) h
  · intro b hb hs
    replace hb : b.toNat = 0xC0 + size := hb
    rw [readTag, if_neg (by omega), if_neg (by omega), if_neg (by omega), if_pos (by omega), hb]
    simp
  intro b s hlo _
  replace hlo : 0xF7 < b.toNat := hlo
  rw [readTag, if_neg (by omega), if_neg (by omega), if_neg (by omega), if_neg (by omega)]
  rfl

theorem readTag_puthead_string (h : b.length < 2 ^ 64) (h1 : ¬ ∃ x, b = [x] ∧ x ≤ 0x7F)
    (rest : Bytes) : readTag (puthead 0x80 0xB7 b.length ++ (b ++ rest)) =
      .ok (.string, (puthead 0x80 0xB7 b.length).length, b.length) := by
  apply readTag_puthead (by decide) (by decide) h
  · intro t ht hs
    replace ht : t.toNat = 0x80 + b.length := ht
    rw [readTag, if_neg (by omega), if_pos (by omega), if_neg, ht]
    · simp
    rintro ⟨hone, x, hx, hlt⟩
    obtain ⟨y, rfl⟩ := length_eq_one_iff.mp (show b.length = 1 by omega)
    obtain rfl : y = x := by simpa using hx
    exact h1 ⟨y, rfl, UInt8.le_iff_toNat_le.mpr (Nat.lt_succ_iff.mp hlt)⟩
  intro t s hlo hhi
  replace hlo : 0xB7 < t.toNat := hlo
  replace hhi : t.toNat ≤ 0xBF := hhi
  rw [readTag, if_neg (by omega), if_neg (by omega), if_pos (by omega)]
  rfl

section

variable (h : readTag (tag ++ (content ++ rest)) = .ok (k, tag.length, content.length))
include h

theorem readKind_of_readTag :
    readKind (tag ++ (content ++ rest)) = .ok (k, tag.length, content.length) := by
  rw [readKind, h]
  simp only [bind, Except.bind]
  rw [if_neg (by simp only [length_append]; omega)]

theorem split_of_readTag : split (tag ++ (content ++ rest)) = .ok (k, content, rest) := by
  rw [split, readKind_of_readTag h]
  simp only [bind, Except.bind, pure, Except.pure]
  rw [drop_left, take_left, ← drop_drop, drop_left, drop_left]

end

/-- What stands behind the tag of an encoded value. -/
def contentOf : Item → Bytes
  | .str b => b
  | .list items => encodeAll items

/-- A byte below `0x80` is a kind of its own. -/
def kindOf : Item → Kind
  | .list _ => .list
  | .str [x] => if x < 0x80 then .byte x else .string
  | .str _ => .string

theorem kindOf_string {b} (h : ¬ ∃ x, b = [x] ∧ x ≤ 0x7F) : kindOf (.str b) = .string := by
  rcases b with - | ⟨x, - | ⟨y, b⟩⟩
  · rfl
  · refine if_neg fun hx => h ⟨x, rfl, ?_⟩
    rw [UInt8.lt_iff_toNat_lt] at hx
    exact UInt8.le_iff_toNat_le.mpr (Nat.lt_succ_iff.mp hx)
  · rfl

theorem contentOf_length_le : (contentOf i).length ≤ (encode i).length := by
  cases i with
  | str b => exact length_encodeString b
  | list items => exact length_encodeAll items

theorem exists_tag (rest : Bytes) (h : (encode i).length < 2 ^ 64) :
    ∃ tag, encode i = tag ++ contentOf i ∧
      readTag (tag ++ (contentOf i ++ rest)) = .ok (kindOf i, tag.length, (contentOf i).length) := by
  have hlen := lt_of_le_of_lt (contentOf_length_le i) h
  cases i with
  | list items => exact ⟨_, rfl, readTag_puthead_list hlen _⟩
  | str b =>
    by_cases h1 : ∃ x, b = [x] ∧ x ≤ 0x7F
    · obtain ⟨x, rfl, hx⟩ := h1
      have hx' : x.toNat < 0x80 := Nat.lt_succ_iff.mpr (by simpa using UInt8.le_iff_toNat_le.mp hx)
      have hkind : kindOf (.str [x]) = .byte x := if_pos (UInt8.lt_iff_toNat_lt.mpr hx')
      exact ⟨[], by simp [encode, encodeString, contentOf, hx], by simp [readTag, contentOf, hx', hkind]⟩
    · rw [kindOf_string h1]
      exact ⟨_, encodeString_eq_header h1, readTag_puthead_string hlen h1 rest⟩

theorem split_encode (rest : Bytes) (h : (encode i).length < 2 ^ 64) :
    split (encode i ++ rest) = .ok (kindOf i, contentOf i, rest) := by
  obtain ⟨tag, henc, htag⟩ := exists_tag i rest h
  rw [henc, append_assoc]
  exact split_of_readTag htag

theorem split_encodeString (h : b.length < 2 ^ 64) (h1 : b.length ≠ 1) (rest : Bytes) :
    split (encodeString b ++ rest) = .ok (.string, b, rest) := by
  have hsmall : ¬ ∃ x, b = [x] ∧ x ≤ 0x7F := by
    rintro ⟨x, rfl, _⟩
    exact h1 rfl
  rw [encodeString_eq_header hsmall, encodeStringHeader, append_assoc]
  exact split_of_readTag (readTag_puthead_string h hsmall rest)

theorem splitString_encode (b rest : Bytes) (h : (encodeString b).length < 2 ^ 64) :
    splitString (encodeString b ++ rest) = .ok (b, rest) := by
  have hsplit := split_encode (.str b) rest h
  rw [encode] at hsplit
  rw [splitString, hsplit]
  have hkind : kindOf (.str b) ≠ .list := by
    rcases b with - | ⟨x, - | ⟨y, b⟩⟩
    · exact Kind.noConfusion
    · rw [kindOf]
      split <;> exact Kind.noConfusion
    · exact Kind.noConfusion
  exact if_neg hkind

theorem splitList_encode (rest : Bytes) (h : (encode (.list items)).length < 2 ^ 64) :
    splitList (encode (.list items) ++ rest) = .ok (encodeAll items, rest) := by
  rw [splitList, split_encode (.list items) rest h]
  rfl

theorem countFrom_encodeAll (fuel : ℕ) (h : (encodeAll items).length < 2 ^ 64)
    (hfuel : items.length ≤ fuel) : countFrom fuel (encodeAll items) = .ok items.length := by
  induction items generalizing fuel with
  | nil => cases fuel <;> rfl
  | cons i items ih =>
    cases fuel with
    | zero => simp at hfuel
    | succ fuel =>
      rw [encodeAll, length_append] at h
      obtain ⟨tag, henc, htag⟩ := exists_tag i (encodeAll items) (by omega)
      have hkind := readKind_of_readTag htag
      have hrest : encode i ++ encodeAll items = tag ++ (contentOf i ++ encodeAll items) := by
        rw [henc, append_assoc]
      have hdrop : (tag ++ (contentOf i ++ encodeAll items)).drop (tag.length + (contentOf i).length) =
          encodeAll items := by
        rw [← drop_drop, drop_left, drop_left]
      rw [encodeAll, hrest]
      rw [countFrom, hkind]
      · simp only [bind, Except.bind, pure, Except.pure]
        rw [hdrop, ih fuel (by omega) (by simpa using hfuel)]
        rfl
      intro hnil
      rw [← hrest] at hnil
      exact encodeAll_cons_ne_nil i items hnil

theorem length_le_encodeAll : items.length ≤ (encodeAll items).length := by
  induction items with
  | nil => exact le_rfl
  | cons i items ih =>
    have hpos := length_pos_of_ne_nil (encode_ne_nil i)
    rw [encodeAll, length_append, length_cons]
    omega

theorem countValues_encodeAll (h : (encodeAll items).length < 2 ^ 64) :
    countValues (encodeAll items) = .ok items.length :=
  countFrom_encodeAll items _ h (length_le_encodeAll items)

/-- Reading an encoded list value by value gives its elements and their number. -/
theorem raw_walks_list (rest : Bytes) (h : (encode (.list items)).length < 2 ^ 64) :
    splitList (encode (.list items) ++ rest) = .ok (encodeAll items, rest) ∧
      countValues (encodeAll items) = .ok items.length ∧
      ∀ i after, i :: after <:+ items →
        split (encode i ++ encodeAll after) = .ok (kindOf i, contentOf i, encodeAll after) := by
  have hall := lt_of_le_of_lt (length_encodeAll items) h
  refine ⟨splitList_encode items rest h, countValues_encodeAll items hall, ?_⟩
  rintro i after ⟨before, rfl⟩
  apply split_encode
  simp only [encodeAll_append, encodeAll, length_append] at hall
  omega

theorem raw_walks_list_pair : countValues (encodeAll [.str [1], .str [0x80], .list []]) = .ok 3 ∧
    split (encode (.str [0x80]) ++ encodeAll [.list []]) = .ok (.string, [0x80], encodeAll [.list []]) := by
  obtain ⟨-, hcount, hsplit⟩ := raw_walks_list [.str [1], .str [0x80], .list []] [] (by decide)
  exact ⟨hcount, hsplit _ _ ⟨[.str [1]], rfl⟩⟩

end Geth.Rlp.Raw
