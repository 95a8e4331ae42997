import Geth.Rlp.Encode

namespace Geth.Rlp.Stream

open Lib.BigEndian Encode List

inductive DecodeError where
  | eof | eol | valueTooLarge | elemTooLarge | canonSize | canonInt | expectedString | expectedList
  | uintOverflow | notAtEOL | tooFewElements | moreThanOneValue
  deriving DecidableEq, Repr

inductive Kind where
  | byte (val : UInt8)
  | string
  | list
  deriving DecidableEq, Repr

/-- A stream is the input that is left up to the innermost limit, which is
the end of the enclosing list or of the whole input. -/
def limitError (inList : Bool) : DecodeError := if inList then .elemTooLarge else .valueTooLarge

def readFull (inList : Bool) (n : Nat) (s : Bytes) : Except DecodeError (Bytes × Bytes) :=
  if n ≤ s.length then .ok (s.take n, s.drop n) else .error (limitError inList)

def readUint (inList : Bool) (size : Nat) (s : Bytes) : Except DecodeError (Nat × Bytes) :=
  if size = 0 then .ok (0, s)
  else do
    let (b, rest) ← readFull inList size s
    if size ≠ 1 ∧ b.head? = some 0 then .error .canonSize else .ok (beNat b, rest)

def readLongSize (inList : Bool) (k : Kind) (size : Nat) (s : Bytes) :
    Except DecodeError (Kind × Nat × Bytes) := do
  let (n, rest) ← readUint inList size s
  if n < 56 then .error .canonSize else .ok (k, n, rest)

def readKind (inList : Bool) : Bytes → Except DecodeError (Kind × Nat × Bytes)
  | [] => .error (if inList then .eol else .eof)
  | b :: s =>
    if b.toNat < 0x80 then .ok (.byte b, 0, s)
    else if b.toNat < 0xB8 then .ok (.string, b.toNat - 0x80, s)
    else if b.toNat < 0xC0 then readLongSize inList .string (b.toNat - 0xB7) s
    else if b.toNat < 0xF8 then .ok (.list, b.toNat - 0xC0, s)
    else readLongSize inList .list (b.toNat - 0xF7) s

/-- The value ahead, checked against the input limit before it is read. -/
def kind (inList : Bool) (s : Bytes) : Except DecodeError (Kind × Nat × Bytes) := do
  let (k, size, rest) ← readKind inList s
  if rest.length < size then .error (limitError inList) else .ok (k, size, rest)

def bytes (inList : Bool) (s : Bytes) : Except DecodeError (Bytes × Bytes) := do
  let (k, size, rest) ← kind inList s
  match k with
  | .byte b => .ok ([b], rest)
  | .string =>
    let (b, rest) ← readFull inList size rest
    if size = 1 ∧ (∃ x ∈ b.head?, x.toNat < 128) then .error .canonSize else .ok (b, rest)
  | .list => .error .expectedString

def canonInt : DecodeError → DecodeError
  | .canonSize => .canonInt
  | e => e

def uint64 (inList : Bool) (s : Bytes) : Except DecodeError (UInt64 × Bytes) := do
  let (k, size, rest) ← kind inList s
  match k with
  | .byte b => if b = 0 then .error .canonInt else .ok (UInt64.ofNat b.toNat, rest)
  | .string =>
    if 8 < size then .error .uintOverflow
    else do
      let (v, rest) ← (readUint inList size rest).mapError canonInt
      if 0 < size ∧ v < 128 then .error .canonSize else .ok (UInt64.ofNat v, rest)
  | .list => .error .expectedString

def bigInt (inList : Bool) (s : Bytes) : Except DecodeError (Nat × Bytes) := do
  let (k, size, rest) ← kind inList s
  match k with
  | .list => .error .expectedString
  | .byte b => if b = 0 then .error .canonInt else .ok (b.toNat, rest)
  | .string =>
    let (b, rest) ← readFull inList size rest
    if size = 1 ∧ (∃ x ∈ b.head?, x.toNat < 128) then .error .canonSize
    else if b.head? = some 0 then .error .canonInt
    else .ok (beNat b, rest)

/-- Enter a list: its content becomes the new input limit. -/
def list (inList : Bool) (s : Bytes) : Except DecodeError (Bytes × Bytes) := do
  let (k, size, rest) ← kind inList s
  match k with
  | .list => .ok (rest.take size, rest.drop size)
  | _ => .error .expectedList

def listEnd (content : Bytes) : Except DecodeError Unit :=
  if content = [] then .ok () else .error .notAtEOL

/-- Running into the end of the list before a required field. -/
def field {α : Type} (r : Except DecodeError (α × Bytes)) : Except DecodeError (α × Bytes) :=
  r.mapError (fun e => if e = .eol then .tooFewElements else e)

theorem readFull_append (inList : Bool) (b rest : Bytes) :
    readFull inList b.length (b ++ rest) = .ok (b, rest) := by
  simp [readFull]

theorem natBytes_head (v : Nat) : (natBytes v).head? ≠ some 0 := by
  intro hz
  -- a leading zero would leave the number to be held by one byte fewer
  obtain ⟨rest, hrest⟩ : ∃ rest, natBytes v = 0 :: rest := by
    cases hb : natBytes v with
    | nil => simp [hb] at hz
    | cons x rest => exact ⟨rest, by simpa [hb] using hz⟩
  have hlen : byteLen v = rest.length + 1 := by
    simpa [natBytes] using congrArg length hrest
  have hv : v < 256 ^ rest.length := by
    calc v = beNat (natBytes v) := (beNat_natBytes v).symm
      _ = beNat rest := by rw [hrest]; simp [beNat]
      _ < 256 ^ rest.length := beNat_lt rest
  have hle := byteLen_le hv
  omega

theorem readUint_natBytes (inList : Bool) {v : Nat} (h : v ≠ 0) (rest : Bytes) :
    readUint inList (byteLen v) (natBytes v ++ rest) = .ok (v, rest) := by
  have hlen : (natBytes v).length = byteLen v := by simp [natBytes]
  have hpos := byteLen_pos h
  have hr := readFull_append inList (natBytes v) rest
  rw [hlen] at hr
  rw [readUint, if_neg (by omega), hr]
  simp only [bind, Except.bind]
  rw [if_neg (fun hc => natBytes_head v hc.2), beNat_natBytes]

theorem toNat_tag_add {tag} {n : Nat} (h : tag.toNat + n < 256) :
    (tag + UInt8.ofNat n).toNat = tag.toNat + n := by
  rw [UInt8.toNat_add, UInt8.toNat_ofNat', Nat.mod_eq_of_lt (by omega : n < 2 ^ 8)]
  exact Nat.mod_eq_of_lt h

variable {size : Nat}

theorem readLongSize_natBytes (inList : Bool) (k : Kind) (hs : ¬ size < 56) (rest : Bytes) :
    readLongSize inList k (byteLen size) (natBytes size ++ rest) = .ok (k, size, rest) := by
  rw [readLongSize, readUint_natBytes inList (by omega)]
  simp only [bind, Except.bind]
  rw [if_neg hs]

/-- The prefix written for a size is read back as that size, if the reader takes
the two tags for the kind. -/
theorem readKind_puthead {inList : Bool} {k : Kind} {smalltag largetag}
    (hsmalltag : smalltag.toNat + 56 ≤ 256) (hlargetag : largetag.toNat + 8 < 256) (h : size < 2 ^ 64)
    {rest} (hsmall : ∀ b : UInt8, smalltag.toNat ≤ b.toNat → b.toNat < smalltag.toNat + 56 →
      readKind inList (b :: rest) = .ok (k, b.toNat - smalltag.toNat, rest))
    (hlarge : ∀ (b : UInt8) s, largetag.toNat < b.toNat → b.toNat ≤ largetag.toNat + 8 →
      readKind inList (b :: s) = readLongSize inList k (b.toNat - largetag.toNat) s) :
    readKind inList (puthead smalltag largetag size ++ rest) = .ok (k, size, rest) := by
  rw [puthead]
  by_cases hs : size < 56
  · have ht : (smalltag + UInt8.ofNat size).toNat = smalltag.toNat + size :=
      toNat_tag_add (by omega)
    rw [if_pos hs, singleton_append, hsmall _ (by omega) (by omega), ht, Nat.add_sub_cancel_left]
  have hle : byteLen size ≤ 8 := byteLen_le (lt_of_lt_of_le h (by decide))
  have hpos : 0 < byteLen size := byteLen_pos (by omega)
  have ht : (largetag + UInt8.ofNat (byteLen size)).toNat = largetag.toNat + byteLen size :=
    toNat_tag_add (by omega)
  rw [if_neg hs, cons_append, hlarge _ _ (by omega) (by omega), ht, Nat.add_sub_cancel_left]
  exact readLongSize_natBytes inList k hs rest

theorem readKind_puthead_string (inList : Bool) (h : size < 2 ^ 64) (rest : Bytes) :
    readKind inList (puthead 0x80 0xB7 size ++ rest) = .ok (.string, size, rest) := by
  apply readKind_puthead (by decide) (by decide) h
  · intro b hlo hhi
    replace hlo : 0x80 ≤ b.toNat := hlo
    replace hhi : b.toNat < 0xB8 := hhi
    rw [readKind, if_neg (by omega), if_pos hhi]
    rfl
  intro b s hlo hhi
  replace hlo : 0xB7 < b.toNat := hlo
  replace hhi : b.toNat ≤ 0xBF := hhi
  rw [readKind, if_neg (by omega), if_neg (by omega), if_pos (by omega)]
  rfl

theorem readKind_puthead_list (inList : Bool) (h : size < 2 ^ 64) (rest : Bytes) :
    readKind inList (puthead 0xC0 0xF7 size ++ rest) = .ok (.list, size, rest) := by
  apply readKind_puthead (by decide) (by decide) h
  · intro b hlo hhi
    replace hlo : 0xC0 ≤ b.toNat := hlo
    replace hhi : b.toNat < 0xF8 := hhi
    rw [readKind, if_neg (by omega), if_neg (by omega), if_neg (by omega), if_pos hhi]
    rfl
  intro b s hlo hhi
  replace hlo : 0xF7 < b.toNat := hlo
  rw [readKind, if_neg (by omega), if_neg (by omega), if_neg (by omega), if_neg (by omega)]
  rfl

theorem kind_of_readKind {inList : Bool} {s content rest} {k : Kind}
    (h : readKind inList s = .ok (k, content.length, content ++ rest)) :
    kind inList s = .ok (k, content.length, content ++ rest) := by
  rw [kind, h]
  simp only [bind, Except.bind]
  rw [if_neg (by simp)]

theorem encodeString_eq_header {b} (h : ¬ ∃ x, b = [x] ∧ x ≤ 0x7F) :
    encodeString b = encodeStringHeader b.length ++ b := by
  rcases b with _ | ⟨x, _ | ⟨y, b⟩⟩
  · rfl
  · have hx : ¬ x ≤ 0x7F := fun hx => h ⟨x, rfl, hx⟩
    simp only [encodeString, hx, ↓reduceIte, length_singleton]
  · rfl

theorem bytes_encodeString (inList : Bool) (b rest : Bytes) (h : b.length < 2 ^ 64) :
    bytes inList (encodeString b ++ rest) = .ok (b, rest) := by
  by_cases h1 : ∃ x, b = [x] ∧ x ≤ 0x7F
  · obtain ⟨x, rfl, hx⟩ := h1
    have hx' : x.toNat < 0x80 := Nat.lt_succ_iff.mpr (by simpa using UInt8.le_iff_toNat_le.mp hx)
    simp [bytes, kind, readKind, encodeString, hx, hx', bind, Except.bind]
  have hk : readKind inList (encodeString b ++ rest) = .ok (.string, b.length, b ++ rest) := by
    rw [encodeString_eq_header h1, append_assoc]
    exact readKind_puthead_string inList h (b ++ rest)
  rw [bytes, kind_of_readKind hk]
  simp only [bind, Except.bind]
  rw [readFull_append]
  dsimp only
  rw [if_neg]
  rintro ⟨hlen, x, hx, hlt⟩
  obtain ⟨y, rfl⟩ := length_eq_one_iff.mp hlen
  have hy : y = x := by simpa using hx
  subst y
  exact h1 ⟨x, rfl, UInt8.le_iff_toNat_le.mpr (Nat.lt_succ_iff.mp hlt)⟩

theorem list_encode (inList : Bool) (items : List Item) (rest : Bytes)
    (h : (encodeAll items).length < 2 ^ 64) :
    list inList (encode (.list items) ++ rest) = .ok (encodeAll items, rest) := by
  have hk := readKind_puthead_list inList h (encodeAll items ++ rest)
  rw [← append_assoc] at hk
  rw [list, encode, kind_of_readKind hk]
  simp [bind, Except.bind]

theorem length_encodeString (b : Bytes) : b.length ≤ (encodeString b).length := by
  by_cases h : ∃ x, b = [x] ∧ x ≤ 0x7F
  · obtain ⟨x, rfl, hx⟩ := h
    simp [encodeString, hx]
  rw [encodeString_eq_header h, length_append]
  exact Nat.le_add_left _ _

theorem length_encodeAll (items : List Item) :
    (encodeAll items).length ≤ (encode (.list items)).length := by
  simp [encode]

theorem encodeString_ne_list (b : Bytes) (items : List Item) (r s : Bytes)
    (hb : (encodeString b).length < 2 ^ 64) (hi : (encode (.list items)).length < 2 ^ 64)
    (h : encodeString b ++ r = encode (.list items) ++ s) : False := by
  have hs := bytes_encodeString false b r (lt_of_le_of_lt (length_encodeString b) hb)
  have hl := readKind_puthead_list false (lt_of_le_of_lt (length_encodeAll items) hi) (encodeAll items ++ s)
  rw [← append_assoc] at hl
  rw [h, encode, bytes, kind_of_readKind hl] at hs
  cases hs

theorem puthead_ne_nil (smalltag largetag : UInt8) (size : Nat) : puthead smalltag largetag size ≠ [] := by
  unfold puthead
  split <;> simp

theorem encode_ne_nil (i : Item) : encode i ≠ [] := by
  cases i with
  | str b =>
    rw [encode]
    by_cases h : ∃ x, b = [x] ∧ x ≤ 0x7F
    · obtain ⟨x, rfl, hx⟩ := h
      simp [encodeString, hx]
    rw [encodeString_eq_header h, encodeStringHeader]
    exact append_ne_nil_of_left_ne_nil (puthead_ne_nil _ _ _) b
  | list items => simp [encode, puthead_ne_nil]

theorem encodeAll_cons_ne_nil (i : Item) (items : List Item) : encodeAll (i :: items) ≠ [] := by
  simp [encodeAll, encode_ne_nil]

mutual

/-- No encoding is a proper prefix of another one, and an encoding determines
its tree. -/
theorem encode_append_inj (a b : Item) (r s : Bytes)
    (ha : (encode a).length < 2 ^ 64) (hb : (encode b).length < 2 ^ 64)
    (h : encode a ++ r = encode b ++ s) : a = b ∧ r = s := by
  cases a with
  | str x =>
    cases b with
    | str y =>
      have hx := bytes_encodeString false x r (lt_of_le_of_lt (length_encodeString x) ha)
      have hy := bytes_encodeString false y s (lt_of_le_of_lt (length_encodeString y) hb)
      simp only [encode] at h
      rw [h, hy] at hx
      simp only [Except.ok.injEq, Prod.mk.injEq] at hx
      exact ⟨congrArg Item.str hx.1.symm, hx.2.symm⟩
    | list items => exact (encodeString_ne_list x items r s ha hb h).elim
  | list items =>
    cases b with
    | str y => exact (encodeString_ne_list y items s r hb ha h.symm).elim
    | list items' =>
      have hx := list_encode false items r (lt_of_le_of_lt (length_encodeAll items) ha)
      have hy := list_encode false items' s (lt_of_le_of_lt (length_encodeAll items') hb)
      rw [h, hy] at hx
      simp only [Except.ok.injEq, Prod.mk.injEq] at hx
      have hi := encodeAll_inj items items' (lt_of_le_of_lt (length_encodeAll items) ha)
        (lt_of_le_of_lt (length_encodeAll items') hb) hx.1.symm
      exact ⟨congrArg Item.list hi, hx.2.symm⟩

theorem encodeAll_inj (as bs : List Item) (ha : (encodeAll as).length < 2 ^ 64)
    (hb : (encodeAll bs).length < 2 ^ 64) (h : encodeAll as = encodeAll bs) : as = bs := by
  cases as with
  | nil =>
    cases bs with
    | nil => rfl
    | cons b bs => exact (encodeAll_cons_ne_nil b bs h.symm).elim
  | cons a as =>
    cases bs with
    | nil => exact (encodeAll_cons_ne_nil a as h).elim
    | cons b bs =>
      simp only [encodeAll, length_append] at h ha hb
      obtain ⟨hab, hr⟩ :=
        encode_append_inj a b (encodeAll as) (encodeAll bs) (by omega) (by omega) h
      exact congrArg₂ cons hab (encodeAll_inj as bs (by omega) (by omega) hr)

end

section

open Common.Basic Except

variable {inList : Bool} {s rest : Bytes} {b : Bytes} {k : Kind}

variable {n size : Nat}

theorem readFull_length (h : readFull inList n s = .ok (b, rest)) : b.length + rest.length = s.length := by
  unfold readFull at h
  split at h
  · cases h
    rw [← length_append, take_append_drop]
  · cases h

theorem readUint_length (h : readUint inList size s = .ok (n, rest)) : rest.length ≤ s.length := by
  unfold readUint at h
  split at h
  · cases h
    exact le_rfl
  obtain ⟨⟨b, r⟩, hr, h⟩ := bind_eq_ok.mp h
  have hlen := readFull_length hr
  dsimp only at h
  split at h
  · cases h
  cases h
  omega

theorem readLongSize_length {k' : Kind}
    (h : readLongSize inList k size s = .ok (k', n, rest)) : rest.length ≤ s.length := by
  obtain ⟨⟨m, r⟩, hr, h⟩ := bind_eq_ok.mp h
  have hlen := readUint_length hr
  dsimp only at h
  split at h
  · cases h
  cases h
  exact hlen

theorem kind_length (h : kind inList s = .ok (k, size, rest)) : rest.length < s.length := by
  obtain ⟨⟨k', size', r⟩, hr, h⟩ := bind_eq_ok.mp h
  have hlen : r.length < s.length := by
    cases s with
    | nil => cases hr
    | cons b s =>
      rw [length_cons, Nat.lt_succ_iff]
      rw [readKind] at hr
      have hshort {j : Kind} {m : Nat} (he : ok (j, m, s) =
          (ok (k', size', r) : Except DecodeError (Kind × Nat × Bytes))) :
          r.length ≤ s.length := by
        rw [ok.injEq, Prod.mk.injEq, Prod.mk.injEq] at he
        rw [he.2.2]
      split at hr
      · exact hshort hr
      split at hr
      · exact hshort hr
      split at hr
      · exact readLongSize_length hr
      split at hr
      · exact hshort hr
      · exact readLongSize_length hr
  dsimp only at h
  split at h
  · cases h
  cases h
  exact hlen

theorem bytes_length (h : bytes inList s = .ok (b, rest)) : b.length + rest.length ≤ s.length := by
  obtain ⟨⟨k, size, r⟩, hk, h⟩ := bind_eq_ok.mp h
  have hlen := kind_length hk
  cases k with
  | byte x =>
    cases h
    rw [length_singleton]
    omega
  | string =>
    obtain ⟨⟨b', r'⟩, hr, h⟩ := bind_eq_ok.mp h
    have hfull := readFull_length hr
    dsimp only at h
    split at h
    · cases h
    cases h
    omega
  | list => cases h

theorem uint64_length {n} (h : uint64 inList s = .ok (n, rest)) : rest.length ≤ s.length := by
  obtain ⟨⟨k, size, r⟩, hk, h⟩ := bind_eq_ok.mp h
  have hlen := kind_length hk
  cases k with
  | byte x =>
    dsimp only at h
    split at h
    · cases h
    cases h
    omega
  | string =>
    dsimp only at h
    split at h
    · cases h
    obtain ⟨⟨v, r'⟩, hr, h⟩ := bind_eq_ok.mp h
    have hread := readUint_length (mapError_eq_ok.mp hr)
    dsimp only at h
    split at h
    · cases h
    cases h
    omega
  | list => cases h

theorem bigInt_length (h : bigInt inList s = .ok (n, rest)) : rest.length ≤ s.length := by
  obtain ⟨⟨k, size, r⟩, hk, h⟩ := bind_eq_ok.mp h
  have hlen := kind_length hk
  cases k with
  | byte x =>
    dsimp only at h
    split at h
    · cases h
    cases h
    omega
  | string =>
    obtain ⟨⟨b, r'⟩, hr, h⟩ := bind_eq_ok.mp h
    have hfull := readFull_length hr
    dsimp only at h
    split at h
    · cases h
    split at h
    · cases h
    cases h
    omega
  | list => cases h

theorem list_length {content} (h : list inList s = .ok (content, rest)) : content.length ≤ s.length := by
  obtain ⟨⟨k, size, r⟩, hk, h⟩ := bind_eq_ok.mp h
  have hlen := kind_length hk
  cases k with
  | byte x => cases h
  | string => cases h
  | list =>
    cases h
    rw [length_take]
    omega

theorem field_eq_ok {α : Type} {r : Except DecodeError (α × Bytes)} {x : α × Bytes} :
    field r = .ok x ↔ r = .ok x :=
  mapError_eq_ok

end

end Geth.Rlp.Stream
