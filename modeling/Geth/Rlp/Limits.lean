import Geth.Rlp.Reader

namespace Geth.Rlp.Limits

open Lib.BigEndian Common.Basic Encode Writer Reader List Nat
open Rlp.Stream (Kind toNat_tag_add natBytes_head encodeString_eq_header)
open UInt64 Option Bool

variable {s s' : Stream} {n a b : ℕ}

/-- The input limit is the length of the input. -/
def Whole (s : Stream) : Prop := s.remaining.toNat = s.input.length

/-- So much can be read without crossing a limit. -/
def Fits (s : Stream) (n : ℕ) : Prop :=
  n ≤ s.input.length ∧ ∀ limit ∈ s.stack.head?, n ≤ limit.toNat

/-- The stream after so much was read, whether it fits or not. -/
def advance (s : Stream) (n : ℕ) : Stream :=
  { s.lower (UInt64.ofNat n) with input := s.input.drop n }

section

theorem Whole.lt (h : Whole s) : s.input.length < 2 ^ 64 := by
  rw [← h]
  exact s.remaining.toNat_lt

theorem Whole.ofNat_toNat (h : Whole s) (hn : n ≤ s.input.length) : (UInt64.ofNat n).toNat = n := by
  rw [toNat_ofNat', mod_eq_of_lt (lt_of_le_of_lt hn h.lt)]

theorem sub_sub_eq (a b c : UInt64) : a - b - c = a - (b + c) := by
  rw [UInt64.sub_eq_add_neg, UInt64.sub_eq_add_neg, UInt64.sub_eq_add_neg, UInt64.neg_add,
    UInt64.sub_eq_add_neg, UInt64.add_assoc]

theorem modifyHead_modifyHead (stack : List UInt64) (a b : UInt64) :
    (stack.modifyHead (· - a)).modifyHead (· - b) = stack.modifyHead (· - (a + b)) := by
  cases stack with
  | nil => rfl
  | cons limit stack =>
    rw [modifyHead_cons, modifyHead_cons, modifyHead_cons, sub_sub_eq]

theorem advance_advance (s : Stream) (a b : ℕ) : advance (advance s a) b = advance s (a + b) := by
  simp only [advance, Stream.lower, modifyHead_modifyHead, drop_drop, ofNat_add, sub_sub_eq]

theorem advance_zero (s : Stream) : advance s 0 = s.rearm := by
  obtain ⟨input, remaining, stack, ahead⟩ := s
  cases stack with
  | nil => simp [advance, Stream.lower, Stream.rearm]
  | cons limit stack => simp [advance, Stream.lower, Stream.rearm]

theorem rearm_of_none (h : s.ahead = none) : s.rearm = s := by
  obtain ⟨input, remaining, stack, ahead⟩ := s
  obtain rfl : ahead = none := h
  rfl

theorem Whole.advance (h : Whole s) (hn : n ≤ s.input.length) : Whole (advance s n) := by
  have hofNat := h.ofNat_toNat hn
  have hle : UInt64.ofNat n ≤ s.remaining := by
    rw [le_iff_toNat_le, hofNat, h]
    exact hn
  change (s.remaining - UInt64.ofNat n).toNat = (s.input.drop n).length
  rw [UInt64.toNat_sub_of_le _ _ hle, hofNat, h, length_drop]

theorem Fits.left (h : Fits s (a + b)) : Fits s a :=
  ⟨by have := h.1; omega, fun limit hl => by have := h.2 limit hl; omega⟩

theorem Fits.right (hs : Whole s) (h : Fits s (a + b)) : Fits (advance s a) b := by
  have hlen := h.1
  refine ⟨?_, ?_⟩
  · change b ≤ (s.input.drop a).length
    rw [length_drop]
    omega
  intro limit hl
  cases hst : s.stack with
  | nil =>
    rw [advance, Stream.lower, hst] at hl
    cases hl
  | cons limit' stack =>
    rw [advance, Stream.lower, hst] at hl
    obtain rfl : limit' - UInt64.ofNat a = limit := some.inj hl
    have hle := h.2 limit' (by rw [hst]; rfl)
    have hofNat := hs.ofNat_toNat (show a ≤ s.input.length by omega)
    rw [UInt64.toNat_sub_of_le, hofNat]
    · omega
    rw [le_iff_toNat_le, hofNat]
    omega

theorem Fits.add (hs : Whole s) (h : Fits s a) (h' : Fits (advance s a) b) : Fits s (a + b) := by
  have hb : b ≤ (s.input.drop a).length := h'.1
  rw [length_drop] at hb
  refine ⟨by have := h.1; omega, ?_⟩
  intro limit hl
  obtain ⟨stack, hst⟩ := head?_eq_some_iff.mp hl
  have hle := h.2 limit hl
  have hofNat := hs.ofNat_toNat h.1
  have hsub := h'.2 (limit - UInt64.ofNat a) (by rw [advance, Stream.lower, hst]; rfl)
  rw [UInt64.toNat_sub_of_le, hofNat] at hsub
  · omega
  rw [le_iff_toNat_le, hofNat]
  exact hle

end

section

variable {v : UInt64} {bs : Bytes} {x : UInt8}

theorem any_head_lt_eq_false (n : UInt64) :
    s.stack.head?.any (· < n) = false ↔ ∀ limit ∈ s.stack.head?, n.toNat ≤ limit.toNat := by
  cases s.stack with
  | nil => simp
  | cons limit stack => simp [le_iff_toNat_le]

theorem willRead_eq_ok (hs : Whole s) (n : UInt64) :
    s.willRead n = .ok s' ↔ Fits s n.toNat ∧ s' = s.lower n := by
  have hany := any_head_lt_eq_false (s := s) n
  rw [Stream.willRead]
  by_cases hlist : s.stack.head?.any (· < n) = true
  · rw [if_pos hlist]
    constructor
    · intro h
      cases h
    rintro ⟨hfits, -⟩
    rw [hany.mpr hfits.2] at hlist
    cases hlist
  rw [if_neg hlist]
  rw [not_eq_true, hany] at hlist
  by_cases hrem : s.remaining < n
  · rw [if_pos hrem]
    constructor
    · intro h
      cases h
    rintro ⟨hfits, -⟩
    rw [lt_iff_toNat_lt, hs] at hrem
    exact absurd hfits.1 (Nat.not_le_of_lt hrem)
  rw [if_neg hrem]
  rw [lt_iff_toNat_lt, hs, not_lt] at hrem
  constructor
  · intro h
    cases h
    exact ⟨⟨hrem, hlist⟩, rfl⟩
  rintro ⟨-, rfl⟩
  rfl

theorem ofNat_toNat (n : UInt64) : UInt64.ofNat n.toNat = n := UInt64.ofNat_toNat

theorem readFull_eq_ok (hs : Whole s) (n : UInt64) : s.readFull n = .ok (bs, s') ↔
      Fits s n.toNat ∧ bs = s.input.take n.toNat ∧ s' = advance s n.toNat := by
  rw [Reader.Stream.readFull, bind_eq_ok]
  constructor
  · rintro ⟨s₁, hwill, h⟩
    obtain ⟨hfits, rfl⟩ := (willRead_eq_ok hs n).mp hwill
    change (if n.toNat ≤ s.input.length then _ else _) = _ at h
    rw [if_pos hfits.1] at h
    cases h
    refine ⟨hfits, rfl, ?_⟩
    rw [advance, ofNat_toNat]
    rfl
  rintro ⟨hfits, rfl, rfl⟩
  refine ⟨s.lower n, (willRead_eq_ok hs n).mpr ⟨hfits, rfl⟩, ?_⟩
  change (if n.toNat ≤ s.input.length then _ else _) = _
  rw [if_pos hfits.1, advance, ofNat_toNat]
  rfl

theorem readByte_eq_ok (hs : Whole s) :
    s.readByte = .ok (x, s') ↔ Fits s 1 ∧ s.input.head? = some x ∧ s' = advance s 1 := by
  rw [Stream.readByte, bind_eq_ok]
  constructor
  · rintro ⟨s₁, hwill, h⟩
    obtain ⟨hfits, rfl⟩ := (willRead_eq_ok hs 1).mp hwill
    cases hin : s.input with
    | nil =>
      have := hfits.1
      rw [hin] at this
      cases this
    | cons y rest =>
      have hin' : (s.lower 1).input = y :: rest := hin
      rw [hin'] at h
      cases h
      refine ⟨hfits, rfl, ?_⟩
      rw [advance, hin]
      rfl
  rintro ⟨hfits, hhead, rfl⟩
  refine ⟨s.lower 1, (willRead_eq_ok hs 1).mpr ⟨hfits, rfl⟩, ?_⟩
  cases hin : s.input with
  | nil =>
    rw [hin] at hhead
    cases hhead
  | cons y rest =>
    rw [hin] at hhead
    obtain rfl : y = x := some.inj hhead
    have hin' : (s.lower 1).input = y :: rest := hin
    rw [hin', advance, hin]
    rfl

theorem take_one_of_head {l : Bytes} (h : l.head? = some x) : l.take 1 = [x] := by
  cases l with
  | nil => cases h
  | cons y l =>
    obtain rfl : y = x := some.inj h
    rfl

theorem beNat_singleton (x : UInt8) : beNat [x] = x.toNat := by
  rw [beNat, length_nil, pow_zero, Nat.mul_one]
  rfl

theorem readUint_add_two (s : Stream) (k : ℕ) :
    s.readUint (k + 2) = s.readFull (UInt64.ofNat (k + 2)) >>= fun r =>
      if r.1.head? = some 0 then .error .canonSize else .ok (UInt64.ofNat (beNat r.1), r.2) :=
  rfl

theorem readUint_eq_ok (hs : Whole s) (h0 : 0 < n) (h8 : n ≤ 8) :
    s.readUint n = .ok (v, s') ↔ Fits s n ∧ (n ≠ 1 → (s.input.take n).head? ≠ some 0) ∧
      v = UInt64.ofNat (beNat (s.input.take n)) ∧ s' = advance s n := by
  obtain rfl | h1 : n = 1 ∨ 2 ≤ n := by omega
  · rw [Reader.Stream.readUint, bind_eq_ok]
    constructor
    · rintro ⟨⟨x, s₁⟩, hbyte, h⟩
      obtain ⟨hfits, hhead, rfl⟩ := (readByte_eq_ok hs).mp hbyte
      cases h
      refine ⟨hfits, fun h => absurd rfl h, ?_, rfl⟩
      rw [take_one_of_head hhead, beNat_singleton]
    rintro ⟨hfits, -, rfl, rfl⟩
    obtain ⟨x, hx⟩ : ∃ x, s.input.head? = some x := by
      cases hin : s.input with
      | nil =>
        have := hfits.1
        rw [hin] at this
        cases this
      | cons y rest => exact ⟨y, rfl⟩
    refine ⟨(x, advance s 1), (readByte_eq_ok hs).mpr ⟨hfits, hx, rfl⟩, ?_⟩
    rw [take_one_of_head hx, beNat_singleton]
    rfl
  obtain ⟨k, rfl⟩ : ∃ k, n = k + 2 := ⟨n - 2, by omega⟩
  have hofNat : (UInt64.ofNat (k + 2)).toNat = k + 2 := by
    rw [toNat_ofNat', mod_eq_of_lt (by omega)]
  rw [readUint_add_two, bind_eq_ok]
  constructor
  · rintro ⟨⟨bs, s₁⟩, hfull, h⟩
    obtain ⟨hfits, rfl, rfl⟩ := (readFull_eq_ok hs _).mp hfull
    rw [hofNat] at h hfits
    split at h
    · cases h
    next hz =>
      cases h
      exact ⟨hfits, fun _ => hz, rfl, rfl⟩
  rintro ⟨hfits, hz, rfl, rfl⟩
  refine ⟨(s.input.take (k + 2), advance s (k + 2)), ?_, ?_⟩
  · rw [readFull_eq_ok hs, hofNat]
    exact ⟨hfits, rfl, rfl⟩
  dsimp only
  rw [if_neg (hz (by omega))]

end

section

variable {k : Kind} {size : UInt64}

def header : Kind → ℕ → Bytes
  | .byte b, _ => [b]
  | .string, n => puthead 0x80 0xB7 n
  | .list, n => puthead 0xC0 0xF7 n

/-- Only small bytes stand for themselves. -/
def Proper : Kind → UInt64 → Prop
  | .byte b, size => b.toNat < 0x80 ∧ size = 0
  | _, _ => True

theorem header_length_pos (k : Kind) (n : ℕ) : 0 < (header k n).length := by
  cases k with
  | byte b => exact one_pos
  | string =>
    rw [header, puthead_length]
    split
    · exact one_pos
    · exact lt_of_lt_of_le one_pos (le_add_right 1 _)
  | list =>
    rw [header, puthead_length]
    split
    · exact one_pos
    · exact lt_of_lt_of_le one_pos (le_add_right 1 _)

structure Tags (k : Kind) (smalltag largetag : UInt8) : Prop where
  header_eq : ∀ n, header k n = puthead smalltag largetag n
  small : smalltag.toNat + 56 ≤ 256
  large : largetag.toNat + 8 < 256
  readKind_small : ∀ (s s' : Stream) (b : UInt8), s.readByte = .ok (b, s') →
    smalltag.toNat ≤ b.toNat → b.toNat < smalltag.toNat + 56 →
    s.readKind = .ok ((k, UInt64.ofNat (b.toNat - smalltag.toNat)), s')
  readKind_large : ∀ (s s' : Stream) (b : UInt8), s.readByte = .ok (b, s') →
    largetag.toNat < b.toNat → b.toNat ≤ largetag.toNat + 8 →
    s.readKind = s'.readLongSize k (b.toNat - largetag.toNat)

theorem readKind_of_readByte {b} (h : s.readByte = .ok (b, s')) : s.readKind =
      if b.toNat < 0x80 then .ok ((.byte b, 0), s')
      else if b.toNat < 0xB8 then .ok ((.string, UInt64.ofNat (b.toNat - 0x80)), s')
      else if b.toNat < 0xC0 then s'.readLongSize .string (b.toNat - 0xB7)
      else if b.toNat < 0xF8 then .ok ((.list, UInt64.ofNat (b.toNat - 0xC0)), s')
      else s'.readLongSize .list (b.toNat - 0xF7) := by
  rw [Reader.Stream.readKind, h]
  rfl

theorem tags_string : Tags .string 0x80 0xB7 where
  header_eq _ := rfl
  small := by decide
  large := by decide
  readKind_small s s' b h hlo hhi := by
    replace hlo : 0x80 ≤ b.toNat := hlo
    replace hhi : b.toNat < 0xB8 := hhi
    rw [readKind_of_readByte h, if_neg (by omega), if_pos hhi]
    rfl
  readKind_large s s' b h hlo hhi := by
    replace hlo : 0xB7 < b.toNat := hlo
    replace hhi : b.toNat ≤ 0xBF := hhi
    rw [readKind_of_readByte h, if_neg (by omega), if_neg (by omega), if_pos (by omega)]
    rfl

theorem tags_list : Tags .list 0xC0 0xF7 where
  header_eq _ := rfl
  small := by decide
  large := by decide
  readKind_small s s' b h hlo hhi := by
    replace hlo : 0xC0 ≤ b.toNat := hlo
    replace hhi : b.toNat < 0xF8 := hhi
    rw [readKind_of_readByte h, if_neg (by omega), if_neg (by omega), if_neg (by omega), if_pos hhi]
    rfl
  readKind_large s s' b h hlo hhi := by
    replace hlo : 0xF7 < b.toNat := hlo
    rw [readKind_of_readByte h, if_neg (by omega), if_neg (by omega), if_neg (by omega), if_neg (by omega)]
    rfl

theorem head_of_starts {x : UInt8} {l l' : Bytes} (h : x :: l <+: l') : l'.head? = some x := by
  obtain ⟨rest, rfl⟩ := h
  rfl

theorem take_of_append {l rest : Bytes} {n : ℕ} (hn : l.length = n) : (l ++ rest).take n = l := by
  rw [← hn, take_left]

theorem readLongSize_eq_ok {k' : Kind} (hs : Whole s) (h0 : 0 < n) (h8 : n ≤ 8) :
    s.readLongSize k n = .ok ((k', size), s') ↔ k' = k ∧ 56 ≤ size.toNat ∧
      byteLen size.toNat = n ∧ natBytes size.toNat <+: s.input ∧ Fits s n ∧ s' = advance s n := by
  rw [Reader.Stream.readLongSize, bind_eq_ok]
  have hbound (l : Bytes) (hl : l.length = n) : beNat l < 2 ^ 64 := by
    have hlt := beNat_lt l
    have hle : 256 ^ l.length ≤ 256 ^ 8 := Nat.pow_le_pow_right (by decide) (by omega)
    omega
  constructor
  · rintro ⟨⟨v, s₁⟩, hread, h⟩
    obtain ⟨hfits, hz, rfl, rfl⟩ := (readUint_eq_ok hs h0 h8).mp hread
    have hlen : (s.input.take n).length = n := by
      rw [length_take, min_eq_left hfits.1]
    dsimp only at h
    split at h
    · cases h
    next hlt =>
      cases h
      have hto : (UInt64.ofNat (beNat (s.input.take n))).toNat = beNat (s.input.take n) := by
        rw [toNat_ofNat', mod_eq_of_lt (hbound _ hlen)]
      rw [lt_iff_toNat_lt, hto, not_lt] at hlt
      -- a single byte that is zero would be a size below 56
      have hhead : (s.input.take n).head? ≠ some 0 := by
        by_cases hn : n = 1
        · intro hhead
          obtain ⟨x, hx⟩ := length_eq_one_iff.mp (hlen.trans hn)
          rw [hx] at hhead hlt
          obtain rfl : x = 0 := some.inj hhead
          rw [beNat_singleton] at hlt
          exact absurd hlt (by decide)
        · exact hz hn
      have hbytes := natBytes_beNat hhead
      refine ⟨rfl, by rw [hto]; exact hlt, ?_, ?_, hfits, rfl⟩
      · rw [hto, ← beBytes_length (byteLen _) _, ← natBytes, hbytes, hlen]
      rw [hto, hbytes]
      exact ⟨s.input.drop n, take_append_drop n s.input⟩
  rintro ⟨rfl, hlt, hlen, ⟨rest, hrest⟩, hfits, rfl⟩
  have hnat : (natBytes size.toNat).length = n := by rw [natBytes, beBytes_length, hlen]
  have htake : s.input.take n = natBytes size.toNat := by rw [← hrest, take_of_append hnat]
  refine ⟨(size, advance s n), ?_, ?_⟩
  · rw [readUint_eq_ok hs h0 h8, htake, beNat_natBytes]
    exact ⟨hfits, fun _ => natBytes_head _, (ofNat_toNat size).symm, rfl⟩
  dsimp only
  have hge : ¬ size < 56 := by
    rw [lt_iff_toNat_lt, Nat.not_lt]
    exact hlt
  rw [if_neg hge]
  rfl

namespace Tags

variable {smalltag largetag : UInt8} {x : UInt8}

section

variable (ht : Tags k smalltag largetag) (hs : Whole s)
include ht hs

theorem readKind_header (hp : header k size.toNat <+: s.input) (hf : Fits s (header k size.toNat).length) :
    s.readKind = .ok ((k, size), advance s (header k size.toNat).length) := by
  have hsmall := ht.small
  have hlarge := ht.large
  rw [ht.header_eq, puthead] at hp hf ⊢
  by_cases hlt : size.toNat < 56
  · rw [if_pos hlt] at hp hf ⊢
    have htag : (smalltag + UInt8.ofNat size.toNat).toNat = smalltag.toNat + size.toNat :=
      toNat_tag_add (by omega)
    have hbyte := (readByte_eq_ok hs).mpr ⟨hf, head_of_starts hp, rfl⟩
    rw [ht.readKind_small s _ _ hbyte (by omega) (by omega), htag, Nat.add_sub_cancel_left, ofNat_toNat]
    rfl
  rw [if_neg hlt] at hp hf ⊢
  have hle : byteLen size.toNat ≤ 8 := byteLen_le (lt_of_lt_of_le size.toNat_lt (by decide))
  have hpos : 0 < byteLen size.toNat := byteLen_pos (by omega)
  have htag : (largetag + UInt8.ofNat (byteLen size.toNat)).toNat =
      largetag.toNat + byteLen size.toNat := toNat_tag_add (by omega)
  rw [length_cons, natBytes, beBytes_length, add_comm] at hf ⊢
  have hbyte := (readByte_eq_ok hs).mpr ⟨hf.left, head_of_starts hp, rfl⟩
  rw [ht.readKind_large s _ _ hbyte (by omega) (by omega), htag, Nat.add_sub_cancel_left,
    readLongSize_eq_ok (hs.advance hf.left.1) hpos hle, advance_advance]
  refine ⟨rfl, by omega, rfl, ?_, hf.right hs, rfl⟩
  obtain ⟨rest, hrest⟩ := hp
  refine ⟨rest, ?_⟩
  change _ = s.input.drop 1
  rw [← hrest]
  rfl

theorem small_sound (h : s.readByte = .ok (x, s'))
    (hlo : smalltag.toNat ≤ x.toNat) (hhi : x.toNat < smalltag.toNat + 56)
    (hsize : size = UInt64.ofNat (x.toNat - smalltag.toNat)) :
    header k size.toNat <+: s.input ∧ Fits s (header k size.toNat).length ∧
      s' = advance s (header k size.toNat).length := by
  obtain ⟨hfits, hhead, rfl⟩ := (readByte_eq_ok hs).mp h
  have hto : size.toNat = x.toNat - smalltag.toNat := by
    rw [hsize, toNat_ofNat', mod_eq_of_lt (by omega)]
  have hx : smalltag + UInt8.ofNat (x.toNat - smalltag.toNat) = x := by
    have hlt := x.toNat_lt
    rw [← UInt8.toNat_inj, toNat_tag_add (by omega)]
    omega
  have heq : header k size.toNat = [x] := by
    rw [ht.header_eq, puthead, hto, if_pos (by omega), hx]
  rw [heq]
  refine ⟨?_, hfits, rfl⟩
  rw [← take_one_of_head hhead]
  exact ⟨s.input.drop 1, take_append_drop 1 s.input⟩

theorem large_sound {k' : Kind} {s₁ : Stream}
    (h : s.readByte = .ok (x, s₁)) (hlo : largetag.toNat < x.toNat) (hhi : x.toNat ≤ largetag.toNat + 8)
    (hsize : s₁.readLongSize k (x.toNat - largetag.toNat) = .ok ((k', size), s')) :
    k' = k ∧ header k size.toNat <+: s.input ∧ Fits s (header k size.toNat).length ∧
      s' = advance s (header k size.toNat).length := by
  obtain ⟨hfits, hhead, rfl⟩ := (readByte_eq_ok hs).mp h
  obtain ⟨rfl, hge, hlen, ⟨rest, hrest⟩, hfits', rfl⟩ :=
    (readLongSize_eq_ok (hs.advance hfits.1) (by omega) (by omega)).mp hsize
  have hx : largetag + UInt8.ofNat (x.toNat - largetag.toNat) = x := by
    have hlt := x.toNat_lt
    rw [← UInt8.toNat_inj, toNat_tag_add (by omega)]
    omega
  have heq : header k' size.toNat = [x] ++ natBytes size.toNat := by
    rw [ht.header_eq, puthead, if_neg (by omega), hlen, hx]
    rfl
  have hlen' : (header k' size.toNat).length = 1 + (x.toNat - largetag.toNat) := by
    rw [heq, length_append, natBytes, beBytes_length, hlen]
    rfl
  rw [hlen', advance_advance]
  refine ⟨rfl, ⟨rest, ?_⟩, hfits.add hs hfits', rfl⟩
  change _ = s.input.drop 1 at hrest
  rw [heq, append_assoc, hrest, ← take_one_of_head hhead, take_append_drop]

end

end Tags

theorem readKind_eq_ok (hs : Whole s) :
    s.readKind = .ok ((k, size), s') ↔ Proper k size ∧ header k size.toNat <+: s.input ∧
      Fits s (header k size.toNat).length ∧ s' = advance s (header k size.toNat).length := by
  constructor
  · intro h
    have h₀ := h
    rw [Reader.Stream.readKind, bind_eq_ok] at h₀
    obtain ⟨⟨x, s₁⟩, hbyte, -⟩ := h₀
    replace hbyte := mapError_eq_ok.mp hbyte
    rw [readKind_of_readByte hbyte] at h
    split at h
    · next hx =>
      cases h
      obtain ⟨hfits, hhead, rfl⟩ := (readByte_eq_ok hs).mp hbyte
      refine ⟨⟨hx, rfl⟩, ?_, hfits, rfl⟩
      rw [header, ← take_one_of_head hhead]
      exact ⟨s.input.drop 1, take_append_drop 1 s.input⟩
    split at h
    · next hlo hhi =>
      cases h
      exact ⟨trivial, tags_string.small_sound hs hbyte (not_lt.mp hlo) hhi rfl⟩
    split at h
    · next hlo hhi =>
      obtain ⟨rfl, hsound⟩ := tags_string.large_sound hs hbyte (not_lt.mp hlo) (Nat.lt_succ_iff.mp hhi) h
      exact ⟨trivial, hsound⟩
    split at h
    · next hlo hhi =>
      cases h
      exact ⟨trivial, tags_list.small_sound hs hbyte (not_lt.mp hlo) hhi rfl⟩
    next hlo =>
      obtain ⟨rfl, hsound⟩ := tags_list.large_sound hs hbyte (not_lt.mp hlo) (Nat.lt_succ_iff.mp x.toNat_lt) h
      exact ⟨trivial, hsound⟩
  rintro ⟨hproper, hp, hf, rfl⟩
  cases k with
  | byte b =>
    obtain ⟨hlt, rfl⟩ := hproper
    have hbyte := (readByte_eq_ok hs).mpr ⟨hf, head_of_starts hp, rfl⟩
    rw [readKind_of_readByte hbyte, if_pos hlt]
    rfl
  | string => exact tags_string.readKind_header hs hp hf
  | list => exact tags_list.readKind_header hs hp hf

/-- The value ahead fits, but for its header, which the limit of the list does
not account for. -/
def Holds (s : Stream) (hd : ℕ) (size : UInt64) : Prop :=
  Fits s hd ∧ hd + size.toNat ≤ s.input.length ∧ ∀ limit ∈ s.stack.head?, size.toNat ≤ limit.toNat

theorem kind_eq_ok (hs : Whole s) (ha : s.ahead = none) :
    s.kind = .ok ((k, size), s') ↔ Proper k size ∧ header k size.toNat <+: s.input ∧
      Holds s (header k size.toNat).length size ∧
      s' = { advance s (header k size.toNat).length with ahead := some (k, size) } := by
  have hpos := header_length_pos k size.toNat
  have hany := any_head_lt_eq_false (s := s) size
  rw [Reader.Stream.kind, ha]
  dsimp only
  constructor
  · intro h
    split at h
    · cases h
    obtain ⟨⟨⟨k₁, size₁⟩, s₁⟩, hread, h⟩ := bind_eq_ok.mp h
    split at h
    · cases h
    next hlist =>
      split at h
      · cases h
      next hrem =>
        cases h
        obtain ⟨hproper, hp, hf, rfl⟩ := (readKind_eq_ok hs).mp hread
        refine ⟨hproper, hp, ⟨hf, ?_, hany.mp (not_eq_true _ ▸ hlist)⟩, rfl⟩
        rw [lt_iff_toNat_lt, hs.advance hf.1, not_lt] at hrem
        change size.toNat ≤ (s.input.drop _).length at hrem
        rw [length_drop] at hrem
        have := hf.1
        omega
  rintro ⟨hproper, hp, ⟨hf, hlen, hlist⟩, rfl⟩
  have hne : s.stack.head? ≠ some 0 := by
    intro h0
    exact absurd (hf.2 0 h0) (Nat.not_le_of_lt hpos)
  have hrem : ¬ (advance s (header k size.toNat).length).remaining < size := by
    rw [lt_iff_toNat_lt, hs.advance hf.1, not_lt]
    change size.toNat ≤ (s.input.drop _).length
    rw [length_drop]
    omega
  rw [if_neg hne, (readKind_eq_ok hs).mpr ⟨hproper, hp, hf, rfl⟩]
  change (if s.stack.head?.any (· < size) = true then _ else _) = _
  rw [hany.mpr hlist, if_neg Bool.false_ne_true]
  rw [if_neg hrem]
  rfl

theorem kind_eol (ha : s.ahead = none) (h0 : s.stack.head? = some 0) : s.kind = .error .eol := by
  rw [Reader.Stream.kind, ha]
  rw [if_pos h0]

theorem kind_again (h : s.kind = .ok ((k, size), s')) : s'.kind = .ok ((k, size), s') := by
  rw [Reader.Stream.kind] at h
  split at h
  · next hk =>
    cases h
    rw [Reader.Stream.kind, hk]
  split at h
  · cases h
  obtain ⟨⟨⟨k₁, size₁⟩, s₁⟩, hread, h⟩ := bind_eq_ok.mp h
  dsimp only at h
  split at h
  · cases h
  split at h
  · cases h
  cases h
  rfl

end

end Geth.Rlp.Limits
