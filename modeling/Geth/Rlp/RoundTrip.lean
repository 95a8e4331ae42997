import Geth.Rlp.Decodes

namespace Geth.Rlp.RoundTrip

open Lib.BigEndian Common.Basic Encode Writer Reader Limits Decodes List Nat UInt64
open Rlp.Stream (Kind)

section

variable {α β : Type} {N : ℕ} {s s' : Stream}

/-- The decoder reads the encoding of a value, if one of at most `N` bytes is
ahead, and nothing else. At the end of a list it says so. -/
structure Decodes (N : ℕ) (dec : Stream → Except StreamError (α × Stream))
    (item : α → Except EncodeError Item) : Prop where
  sound : ∀ {s s' : Stream} {v : α}, Whole s → s.ahead = none → dec s = .ok (v, s') →
    ∃ i, item v = .ok i ∧ encode i <+: s.input ∧ s' = advance s (encode i).length
  complete : ∀ {s : Stream} {v : α} {i : Item}, Whole s → s.ahead = none → item v = .ok i →
    encode i <+: s.input → Fits s (encode i).length → (encode i).length ≤ N →
    dec s = .ok (v, advance s (encode i).length)
  eol : ∀ {s : Stream}, s.ahead = none → s.stack.head? = some 0 → dec s = .error .eol
  returns : ∀ {s : Stream}, Whole s → s.ahead = none → s.input.length ≤ N → Returns (dec s)

theorem decodes_of_bytes {dec} {item} (h : ∀ {s s' : Stream} {v : α}, Whole s → s.ahead = none →
      (dec s = .ok (v, s') ↔ ∃ b, s.bytes = .ok (b, s') ∧ item v = .ok (.str b)))
    (hitem : ∀ v i, item v = .ok i → ∃ b, i = .str b)
    (heol : ∀ {s : Stream}, s.kind = .error .eol → dec s = .error .eol)
    (hreturns : ∀ s, Returns (dec s)) : Decodes N dec item where
  sound hs ha hdec := by
    obtain ⟨b, hb, hi⟩ := (h hs ha).mp hdec
    obtain ⟨hp, -, rfl⟩ := (bytes_eq_ok hs ha).mp hb
    refine ⟨.str b, hi, ?_, ?_⟩
    · rw [encode]
      exact hp
    · rw [encode]
  complete {s v i} hs ha hi hp hf _ := by
    obtain ⟨b, rfl⟩ := hitem v i hi
    rw [encode] at hp hf ⊢
    exact (h hs ha).mpr ⟨b, (bytes_eq_ok hs ha).mpr ⟨hp, hf, rfl⟩, hi⟩
  eol ha h0 := heol (kind_eol ha h0)
  returns _ _ _ := hreturns _

theorem bytes_decodes : Decodes N Reader.Stream.bytes fun b => .ok (.str b) := by
  apply decodes_of_bytes
  · intro s s' v _ _
    constructor
    · intro h
      exact ⟨v, h, rfl⟩
    rintro ⟨b, hb, hi⟩
    cases hi
    exact hb
  · intro v i hi
    cases hi
    exact ⟨v, rfl⟩
  · intro s h
    rw [Reader.Stream.bytes, h]
    rfl
  · exact bytes_returns

theorem decodeBigInt_decodes : Decodes N Stream.decodeBigInt fun i => bigIntItem (some i) := by
  apply decodes_of_bytes
  · intro s s' v hs ha
    rw [decodeBigInt_eq_ok hs ha]
    constructor
    · rintro ⟨b, hb, hhead, rfl⟩
      refine ⟨b, hb, ?_⟩
      rw [bigIntItem, if_neg (by omega), Int.toNat_natCast, natBytes_beNat hhead]
    rintro ⟨b, hb, hi⟩
    rw [bigIntItem] at hi
    split at hi
    · cases hi
    next hneg =>
      cases hi
      refine ⟨_, hb, Stream.natBytes_head _, ?_⟩
      rw [beNat_natBytes, Int.toNat_of_nonneg (by omega)]
  · intro v i hi
    rw [bigIntItem] at hi
    split at hi
    · cases hi
    cases hi
    exact ⟨_, rfl⟩
  · intro s h
    rw [Stream.decodeBigInt, h]
    rfl
  · exact decodeBigInt_returns

theorem Width.le_bits (w : Width) : 8 ≤ w.bits := by
  cases w <;> decide

theorem Width.bits_eq (w : Width) : 256 ^ (w.bits / 8) = 2 ^ w.bits := by
  cases w <;> decide

theorem uint_bytes_eq_ok {v} (w : Width) (hs : Whole s) (ha : s.ahead = none) :
    s.uint w.bits = .ok (v, s') ↔ s.bytes = .ok (natBytes v.toNat, s') ∧ v.toNat < 2 ^ w.bits := by
  rw [uint_eq_ok w.bits_le (Width.le_bits w) hs ha]
  have h8 : w.bits / 8 ≤ 8 := by
    have := w.bits_le
    omega
  constructor
  · rintro ⟨b, hb, hlen, hhead, rfl⟩
    rw [toNat_beNat (hlen.trans h8), natBytes_beNat hhead]
    refine ⟨hb, lt_of_lt_of_le (beNat_lt b) ?_⟩
    rw [← Width.bits_eq]
    exact Nat.pow_le_pow_right (by decide) hlen
  rintro ⟨hb, hlt⟩
  refine ⟨natBytes v.toNat, hb, ?_, Stream.natBytes_head _, ?_⟩
  · rw [natBytes, beBytes_length]
    rw [← Width.bits_eq] at hlt
    exact byteLen_le hlt
  · rw [beNat_natBytes, ofNat_toNat]

theorem uint_decodes (w : Width) : Decodes N (fun s => do
      let (v, s) ← s.uint w.bits
      return (BitVec.ofNat w.bits v.toNat, s))
      fun v => .ok (.str (natBytes v.toNat)) := by
  apply decodes_of_bytes
  · intro s s' v hs ha
    constructor
    · intro h
      obtain ⟨⟨u, s₁⟩, hu, h⟩ := bind_eq_ok.mp h
      cases h
      obtain ⟨hb, hlt⟩ := (uint_bytes_eq_ok w hs ha).mp hu
      refine ⟨_, hb, ?_⟩
      rw [BitVec.toNat_ofNat, mod_eq_of_lt hlt]
    rintro ⟨b, hb, hi⟩
    cases hi
    have hlt : v.toNat < 2 ^ 64 :=
      lt_of_lt_of_le v.isLt (Nat.pow_le_pow_right (by decide) w.bits_le)
    have hto : (UInt64.ofNat v.toNat).toNat = v.toNat := by
      rw [toNat_ofNat', mod_eq_of_lt hlt]
    have hu : s.uint w.bits = .ok (ofNat v.toNat, s') := by
      rw [uint_bytes_eq_ok w hs ha, hto]
      exact ⟨hb, v.isLt⟩
    rw [hu]
    change Except.ok (BitVec.ofNat w.bits (UInt64.ofNat v.toNat).toNat, s') = _
    rw [hto, BitVec.ofNat_toNat, BitVec.setWidth_eq]
  · intro v i hi
    cases hi
    exact ⟨_, rfl⟩
  · intro s h
    rw [Stream.uint, h]
    rfl
  intro s
  exact (uint_returns s _).bind fun _ _ => .ok _

theorem bool_decodes : Decodes N Stream.bool fun b => .ok (.str (natBytes b.toNat)) := by
  have huint {s s' : Stream} {v : UInt64} (hs : Whole s) (ha : s.ahead = none) :
      s.uint 8 = .ok (v, s') ↔ s.bytes = .ok (natBytes v.toNat, s') ∧ v.toNat < 2 ^ 8 :=
    uint_bytes_eq_ok .w8 hs ha
  apply decodes_of_bytes
  · intro s s' v hs ha
    rw [Stream.bool]
    constructor
    · intro h
      obtain ⟨⟨u, s₁⟩, hu, h⟩ := bind_eq_ok.mp h
      obtain ⟨hb, -⟩ := (huint hs ha).mp hu
      dsimp only at h
      split at h
      · next h0 =>
        cases h
        subst h0
        exact ⟨_, hb, rfl⟩
      split at h
      · next h1 =>
        cases h
        subst h1
        exact ⟨_, hb, rfl⟩
      · cases h
    rintro ⟨b, hb, hi⟩
    cases hi
    cases v with
    | false =>
      have hu : s.uint 8 = .ok (0, s') := (huint hs ha).mpr ⟨hb, by decide⟩
      rw [hu]
      rfl
    | true =>
      have hu : s.uint 8 = .ok (1, s') := (huint hs ha).mpr ⟨hb, by decide⟩
      rw [hu]
      rfl
  · intro v i hi
    cases hi
    exact ⟨_, rfl⟩
  · intro s h
    rw [Stream.bool, Stream.uint, h]
    rfl
  · exact bool_returns

theorem byteSlice_decodes (e : α ≃ UInt8) : Decodes N (fun s => do
      let (b, s) ← s.bytes
      return (b.map e.symm, s))
      fun vs => .ok (.str (vs.map e)) := by
  apply decodes_of_bytes
  · intro s s' v _ _
    constructor
    · intro h
      obtain ⟨⟨b, s₁⟩, hb, h⟩ := bind_eq_ok.mp h
      cases h
      refine ⟨b, hb, ?_⟩
      rw [map_map, e.self_comp_symm, map_id]
    rintro ⟨b, hb, hi⟩
    cases hi
    rw [hb]
    change Except.ok ((v.map e).map e.symm, s') = _
    rw [map_map, e.symm_comp_self, map_id]
  · intro v i hi
    cases hi
    exact ⟨_, rfl⟩
  · intro s h
    rw [Reader.Stream.bytes, h]
    rfl
  intro s
  exact (bytes_returns s).bind fun _ _ => .ok _

theorem byteArray_decodes (e : α ≃ UInt8) (n : ℕ) : Decodes (α := List.Vector α n) N (fun s => do
      let (b, s) ← s.decodeByteArray n
      if h : b.length = n then return (⟨b.map e.symm, map_length_eq e h⟩, s) else .error .tooShort)
      fun vs => .ok (.str (vs.toList.map e)) := by
  apply decodes_of_bytes
  · intro s s' v hs ha
    constructor
    · intro h
      obtain ⟨⟨b, s₁⟩, hb, h⟩ := bind_eq_ok.mp h
      obtain ⟨hb, hlen⟩ := (decodeByteArray_eq_ok hs ha).mp hb
      dsimp only at h
      rw [dif_pos hlen] at h
      cases h
      refine ⟨b, hb, ?_⟩
      change Except.ok (Item.str ((b.map e.symm).map e)) = _
      rw [map_map, e.self_comp_symm, map_id]
    rintro ⟨b, hb, hi⟩
    cases hi
    have hlen : (v.toList.map e).length = n := by rw [length_map, v.toList_length]
    rw [(decodeByteArray_eq_ok hs ha).mpr ⟨hb, hlen⟩]
    change (if h : (v.toList.map e).length = n then _ else _) = _
    rw [dif_pos hlen]
    refine congrArg Except.ok (Prod.ext (List.Vector.eq _ _ ?_) rfl)
    change (v.toList.map e).map e.symm = _
    rw [map_map, e.symm_comp_self, map_id]
  · intro v i hi
    cases hi
    exact ⟨_, rfl⟩
  · intro s h
    rw [Stream.decodeByteArray, h]
    rfl
  intro s
  refine (decodeByteArray_returns s n).bind fun r _ => ?_
  dsimp only
  split
  · exact .ok _
  · exact .error (by decide)

end

section

variable {α β : Type} {N n : ℕ} {s s' : Stream} {size : UInt64} {hd m : ℕ}

/-- The stream inside a list. Its limit is the size that the header gave. -/
def enter (s : Stream) (hd : ℕ) (size : UInt64) : Stream :=
  { advance s hd with stack := size :: (advance s hd).stack.modifyHead (· - size) }

theorem whole_enter (hs : Whole s) (h : hd ≤ s.input.length) : Whole (enter s hd size) :=
  hs.advance h

theorem list_eq_ok (hs : Whole s) (ha : s.ahead = none) :
    s.list = .ok (size, s') ↔ header .list size.toNat <+: s.input ∧
      Holds s (header .list size.toNat).length size ∧
      s' = enter s (header .list size.toNat).length size := by
  rw [Reader.Stream.list]
  constructor
  · intro h
    obtain ⟨⟨⟨k, size'⟩, s₁⟩, hk, h⟩ := bind_eq_ok.mp h
    obtain ⟨-, hp, hh, rfl⟩ := (kind_eq_ok hs ha).mp hk
    cases k with
    | byte b => cases h
    | string => cases h
    | list =>
      cases h
      exact ⟨hp, hh, rfl⟩
  rintro ⟨hp, hh, rfl⟩
  have hk : s.kind = .ok ((.list, size), _) := (kind_eq_ok hs ha).mpr ⟨trivial, hp, hh, rfl⟩
  rw [hk]
  rfl

theorem listEnd_eq_ok (hm : m < 2 ^ 64) :
    (advance (enter s hd size) m).listEnd = .ok s' ↔ size.toNat = m ∧ s' = advance s (hd + m) := by
  have hsub : size - UInt64.ofNat m = 0 ↔ size.toNat = m := by
    rw [UInt64.sub_eq_iff_eq_add, UInt64.zero_add, ← UInt64.toNat_inj, toNat_ofNat', mod_eq_of_lt hm]
  have hend : (advance (enter s hd size) m).listEnd =
      if 0 < size - UInt64.ofNat m then .error .notAtEOL
      else .ok { advance (enter s hd size) m with
                 stack := (advance s hd).stack.modifyHead (· - size)
                 ahead := none } :=
    rfl
  rw [hend]
  by_cases h0 : size - UInt64.ofNat m = 0
  · rw [h0, if_neg (UInt64.lt_irrefl 0)]
    obtain rfl := hsub.mp h0
    have hadv : ({ advance (enter s hd size) size.toNat with
        stack := (advance s hd).stack.modifyHead (· - size), ahead := none } : Stream) =
        advance s (hd + size.toNat) := by
      rw [← advance_advance]
      simp only [advance, ofNat_toNat]
      rfl
    rw [hadv]
    constructor
    · intro h
      cases h
      exact ⟨rfl, rfl⟩
    rintro ⟨-, rfl⟩
    rfl
  rw [if_pos (UInt64.pos_iff_ne_zero.mpr h0)]
  constructor
  · intro h
    cases h
  rintro ⟨h, -⟩
  exact absurd (hsub.mpr h) h0

structure Contents (N : ℕ) (body : Stream → Except StreamError (β × Stream))
    (items : β → Except EncodeError (List Item)) : Prop where
  sound : ∀ {s s' : Stream} {v : β}, Whole s → s.ahead = none → body s = .ok (v, s') →
    ∃ is, items v = .ok is ∧ encodeAll is <+: s.input ∧ s' = advance s (encodeAll is).length
  complete : ∀ {s : Stream} {v : β} {is : List Item}, Whole s → s.ahead = none →
    items v = .ok is → encodeAll is <+: s.input →
    s.stack.head? = some (UInt64.ofNat (encodeAll is).length) → (encodeAll is).length ≤ N →
    body s = .ok (v, advance s (encodeAll is).length)
  returns : ∀ {s : Stream}, Whole s → s.ahead = none → s.input.length ≤ N → Returns (body s)

def inList (body : Stream → Except StreamError (β × Stream)) (s : Stream) :
    Except StreamError (β × Stream) := do
  let (_, s) ← s.list
  let (v, s) ← body s
  let s ← s.listEnd
  return (v, s)

variable {body : Stream → Except StreamError (β × Stream)}
  {items : β → Except EncodeError (List Item)}

theorem encode_list (is : List Item) :
    encode (.list is) = header .list (encodeAll is).length ++ encodeAll is := by
  rw [encode]
  rfl

theorem Contents.inList (h : Contents N body items) :
    Decodes (N + 1) (inList body) fun v => (items v).map .list where
  sound {s s' v} hs ha hdec := by
    obtain ⟨⟨size, s₁⟩, hlist, hdec⟩ := bind_eq_ok.mp hdec
    obtain ⟨⟨v', s₂⟩, hbody, hdec⟩ := bind_eq_ok.mp hdec
    obtain ⟨s₃, hend, hdec⟩ := bind_eq_ok.mp hdec
    cases hdec
    obtain ⟨hp, hh, rfl⟩ := (list_eq_ok hs ha).mp hlist
    have hs₁ : Whole (enter s _ size) := whole_enter hs hh.1.1
    obtain ⟨is, his, hcont, rfl⟩ := h.sound hs₁ rfl hbody
    -- the contents are shorter than the counters can hold, so none has wrapped around
    have hlt : (encodeAll is).length < 2 ^ 64 := lt_of_le_of_lt hcont.length_le hs₁.lt
    obtain ⟨hsize, rfl⟩ := (listEnd_eq_ok hlt).mp hend
    refine ⟨.list is, by rw [his]; rfl, ?_, ?_⟩
    · obtain ⟨rest, hrest⟩ := hcont
      obtain ⟨rest', hrest'⟩ := hp
      refine ⟨rest, ?_⟩
      change _ = s.input.drop _ at hrest
      rw [← hrest', drop_left] at hrest
      rw [encode_list, ← hsize, append_assoc, hrest, hrest']
    rw [encode_list, ← hsize, length_append]
    rw [hsize]
  complete {s v i} hs ha hi hp hf hN := by
    obtain ⟨is, his, rfl⟩ : ∃ is, items v = .ok is ∧ i = .list is := by
      cases his : items v with
      | error e =>
        rw [his] at hi
        cases hi
      | ok is =>
        rw [his] at hi
        cases hi
        exact ⟨is, rfl, rfl⟩
    rw [encode_list] at hp
    rw [encode_list, length_append] at hf hN ⊢
    obtain ⟨rest, hrest⟩ := hp
    rw [append_assoc] at hrest
    have hle : (encodeAll is).length ≤ s.input.length := by
      have := hf.1
      omega
    have hto := hs.ofNat_toNat hle
    have hpos := header_length_pos .list (encodeAll is).length
    have hlist : s.list = .ok (UInt64.ofNat (encodeAll is).length,
        enter s (header .list (encodeAll is).length).length (UInt64.ofNat (encodeAll is).length)) := by
      rw [list_eq_ok hs ha, hto]
      refine ⟨⟨_, hrest⟩, ⟨hf.left, ?_, ?_⟩, rfl⟩
      · rw [hto]
        exact hf.1
      intro limit hl
      rw [hto]
      have := hf.2 limit hl
      omega
    have hs₁ : Whole (enter s (header .list (encodeAll is).length).length
        (UInt64.ofNat (encodeAll is).length)) := whole_enter hs hf.left.1
    have hbody := h.complete hs₁ rfl his
      ⟨rest, by change _ = s.input.drop _; rw [← hrest, drop_left]⟩ rfl (by omega)
    rw [RoundTrip.inList, hlist]
    change (body _ >>= _) = _
    rw [hbody]
    change (Reader.Stream.listEnd _ >>= _) = _
    rw [(listEnd_eq_ok (hto ▸ UInt64.toNat_lt _)).mpr ⟨hto, rfl⟩]
    rfl
  eol ha h0 := by
    rw [RoundTrip.inList, Reader.Stream.list, kind_eol ha h0]
    rfl
  returns {s} hs ha hN := by
    refine (list_returns s).bind fun r hr => ?_
    obtain ⟨size, s₁⟩ := r
    obtain ⟨hp, hh, rfl⟩ := (list_eq_ok hs ha).mp hr
    have hpos := header_length_pos .list size.toNat
    refine (h.returns (whole_enter hs hh.1.1) rfl ?_).bind fun r _ => ?_
    · change (s.input.drop _).length ≤ _
      rw [length_drop]
      omega
    · exact (listEnd_returns r.2).bind fun _ _ => .ok _

variable {dec : Stream → Except StreamError (α × Stream)} {item : α → Except EncodeError Item}

variable {is : List Item} {i : Item}

theorem cons_eq_ok {x : Except EncodeError Item} {y : Except EncodeError (List Item)} :
    (do return (← x) :: (← y)) = .ok is ↔ ∃ i is', x = .ok i ∧ y = .ok is' ∧ is = i :: is' := by
  rw [bind_eq_ok]
  constructor
  · rintro ⟨i, hi, h⟩
    obtain ⟨is', his', h⟩ := bind_eq_ok.mp h
    cases h
    exact ⟨i, is', hi, his', rfl⟩
  rintro ⟨i, is', hi, his', rfl⟩
  refine ⟨i, hi, ?_⟩
  rw [his']
  rfl

theorem cons_isOk {x : Except EncodeError Item} {y : Except EncodeError (List Item)} :
    (∃ is, (do return (← x) :: (← y)) = .ok is) ↔ (∃ i, x = .ok i) ∧ ∃ is, y = .ok is := by
  constructor
  · rintro ⟨is, h⟩
    obtain ⟨i, is', hi, his', -⟩ := cons_eq_ok.mp h
    exact ⟨⟨i, hi⟩, ⟨is', his'⟩⟩
  rintro ⟨⟨i, hi⟩, ⟨is', his'⟩⟩
  exact ⟨i :: is', cons_eq_ok.mpr ⟨i, is', hi, his', rfl⟩⟩

theorem mapM_cons_eq_ok {v : α} {vs} : (v :: vs).mapM item = .ok is ↔
      ∃ i is', item v = .ok i ∧ vs.mapM item = .ok is' ∧ is = i :: is' := by
  rw [mapM_cons]
  exact cons_eq_ok

theorem starts_cons (hi : encode i <+: s.input)
    (his : encodeAll is <+: (advance s (encode i).length).input) : encodeAll (i :: is) <+: s.input := by
  obtain ⟨rest, hrest⟩ := hi
  obtain ⟨rest', hrest'⟩ := his
  refine ⟨rest', ?_⟩
  change _ = s.input.drop _ at hrest'
  rw [← hrest, drop_left] at hrest'
  rw [encodeAll, append_assoc, hrest', hrest]

theorem advance_cons (s : Stream) (i : Item) (is : List Item) :
    advance (advance s (encode i).length) (encodeAll is).length =
      advance s (encodeAll (i :: is)).length := by
  rw [advance_advance, encodeAll, length_append]

theorem starts_of_cons (h : encodeAll (i :: is) <+: s.input) :
    encode i <+: s.input ∧ encodeAll is <+: (advance s (encode i).length).input := by
  obtain ⟨rest, hrest⟩ := h
  rw [encodeAll, append_assoc] at hrest
  refine ⟨⟨_, hrest⟩, ⟨rest, ?_⟩⟩
  change _ = s.input.drop _
  rw [← hrest, drop_left]

/-- The first of the items left in a list fits, and then the limit is what is
left for the others. -/
theorem fits_first (hs : Whole s) (h : encodeAll (i :: is) <+: s.input)
    (hlimit : s.stack.head? = some (UInt64.ofNat (encodeAll (i :: is)).length)) :
    Fits s (encode i).length ∧
      (advance s (encode i).length).stack.head? = some (UInt64.ofNat (encodeAll is).length) := by
  have hle := h.length_le
  have hto := hs.ofNat_toNat hle
  rw [encodeAll, length_append] at hle hto hlimit
  refine ⟨⟨by omega, ?_⟩, ?_⟩
  · intro limit hl
    obtain rfl : UInt64.ofNat _ = limit := Option.some.inj (hlimit.symm.trans hl)
    omega
  obtain ⟨stack, hst⟩ := head?_eq_some_iff.mp hlimit
  change (s.stack.modifyHead _).head? = _
  rw [hst, modifyHead_cons, head?_cons, ofNat_add, UInt64.add_comm, UInt64.add_sub_cancel]

theorem Decodes.whole (h : Decodes N dec item) {v : α} (hs : Whole s) (ha : s.ahead = none)
    (hdec : dec s = .ok (v, s')) :
    Whole s' ∧ s'.ahead = none ∧ s'.input.length < s.input.length := by
  obtain ⟨i, -, hp, rfl⟩ := h.sound hs ha hdec
  have hle := hp.length_le
  have hpos := length_pos_of_ne_nil (Stream.encode_ne_nil i)
  refine ⟨hs.advance hle, rfl, ?_⟩
  change (s.input.drop _).length < _
  rw [length_drop]
  omega

section

variable {vs : List α} {fuel : ℕ}

theorem decodeSliceElems_sound (h : Decodes N dec item) (fuel : ℕ) (hs : Whole s)
    (ha : s.ahead = none) (hdec : Stream.decodeSliceElems dec fuel s = .ok (vs, s')) :
    ∃ is, vs.mapM item = .ok is ∧ encodeAll is <+: s.input ∧ s' = advance s (encodeAll is).length := by
  induction fuel generalizing s vs with
  | zero => cases hdec
  | succ fuel ih =>
    rw [Stream.decodeSliceElems] at hdec
    split at hdec
    · cases hdec
      refine ⟨[], rfl, ⟨_, rfl⟩, ?_⟩
      rw [encodeAll, length_nil, advance_zero, rearm_of_none ha]
    · cases hdec
    next v s₁ helem =>
      obtain ⟨⟨vs', s₂⟩, hrest, hdec⟩ := bind_eq_ok.mp hdec
      cases hdec
      obtain ⟨hs₁, ha₁, -⟩ := h.whole hs ha helem
      obtain ⟨i, hi, hp, rfl⟩ := h.sound hs ha helem
      obtain ⟨is, his, hps, rfl⟩ := ih hs₁ ha₁ hrest
      exact ⟨i :: is, mapM_cons_eq_ok.mpr ⟨i, is, hi, his, rfl⟩, starts_cons hp hps, advance_cons s i is⟩

section

variable (h : Decodes N dec item) (hs : Whole s) (ha : s.ahead = none)
include h hs ha

theorem decodeSliceElems_complete {is} (his : vs.mapM item = .ok is) (hp : encodeAll is <+: s.input)
    (hlimit : s.stack.head? = some (UInt64.ofNat (encodeAll is).length))
    (hN : (encodeAll is).length ≤ N) (hfuel : (encodeAll is).length < fuel) :
    Stream.decodeSliceElems dec fuel s = .ok (vs, advance s (encodeAll is).length) := by
  induction vs generalizing s is fuel with
  | nil =>
    obtain rfl : [] = is := Except.ok.inj his
    obtain ⟨fuel, rfl⟩ : ∃ k, fuel = k + 1 := ⟨fuel - 1, by omega⟩
    rw [Stream.decodeSliceElems, h.eol ha hlimit]
    rw [encodeAll, length_nil, advance_zero, rearm_of_none ha]
  | cons v vs ih =>
    obtain ⟨i, is', hi, his', rfl⟩ := mapM_cons_eq_ok.mp his
    obtain ⟨fuel, rfl⟩ : ∃ k, fuel = k + 1 := ⟨fuel - 1, by omega⟩
    obtain ⟨hp₁, hp₂⟩ := starts_of_cons hp
    obtain ⟨hf, hlimit'⟩ := fits_first hs hp hlimit
    have hpos := length_pos_of_ne_nil (Stream.encode_ne_nil i)
    rw [encodeAll, length_append] at hN hfuel
    rw [Stream.decodeSliceElems, h.complete hs ha hi hp₁ hf (by omega)]
    change (Stream.decodeSliceElems dec fuel _ >>= _) = _
    rw [ih (hs.advance hf.1) rfl his' hp₂ hlimit' (by omega) (by omega), advance_cons]
    rfl

theorem decodeSliceElems_returns (hN : s.input.length ≤ N) (hfuel : s.input.length < fuel) :
    Returns (Stream.decodeSliceElems dec fuel s) := by
  induction fuel generalizing s with
  | zero => omega
  | succ fuel ih =>
    have hret := h.returns hs ha hN
    rw [Stream.decodeSliceElems]
    split
    · exact .ok _
    · next e _ he =>
      rw [he] at hret
      exact fun h' => hret (congrArg Except.error (Except.error.inj h'))
    next v s₁ helem =>
      obtain ⟨hs₁, ha₁, hlt⟩ := h.whole hs ha helem
      exact (ih hs₁ ha₁ (by omega) (by omega)).bind fun _ _ => .ok _

theorem decodeListSlice_eq : Stream.decodeListSlice dec s =
      inList (fun s => Stream.decodeSliceElems dec (s.input.length + 1) s) s := by
  rw [Stream.decodeListSlice, inList]
  cases hlist : s.list with
  | error e => rfl
  | ok r =>
    obtain ⟨size, s₁⟩ := r
    change (if size = 0 then _ else _) = _
    split
    · next h0 =>
      subst h0
      obtain ⟨-, -, rfl⟩ := (list_eq_ok hs ha).mp hlist
      change _ = (Stream.decodeSliceElems dec _ _ >>= _)
      rw [Stream.decodeSliceElems, h.eol rfl rfl]
      rfl
    · rfl

end

theorem decodeListSlice_decodes (h : Decodes N dec item) :
    Decodes (N + 1) (Stream.decodeListSlice dec) fun vs => (vs.mapM item).map .list := by
  have hcont : Contents N (fun s => Stream.decodeSliceElems dec (s.input.length + 1) s)
      fun vs => vs.mapM item :=
    { sound := fun hs ha hdec => decodeSliceElems_sound h _ hs ha hdec
      complete := fun hs ha his hp hlimit hN =>
        decodeSliceElems_complete h hs ha his hp hlimit hN (lt_succ_of_le hp.length_le)
      returns := fun hs ha hN => decodeSliceElems_returns h hs ha hN (lt_succ_self _) }
  have hlist := hcont.inList
  exact
    { sound := fun hs ha hdec => hlist.sound hs ha (decodeListSlice_eq h hs ha ▸ hdec)
      complete := fun hs ha hi hp hf hN =>
        (decodeListSlice_eq h hs ha).trans (hlist.complete hs ha hi hp hf hN)
      eol := fun ha h0 => by
        rw [Stream.decodeListSlice, Reader.Stream.list, kind_eol ha h0]
        rfl
      returns := fun hs ha hN => by
        rw [decodeListSlice_eq h hs ha]
        exact hlist.returns hs ha hN }

end

section

theorem required_eq_ok {r : Except StreamError (α × Stream)} {p : α × Stream} :
    Stream.required r = .ok p ↔ r = .ok p :=
  mapError_eq_ok

theorem Contents.cons {γ : Type} {items' : γ → Except EncodeError (List Item)} {f : α → β → γ}
    {body' : Stream → Except StreamError (γ × Stream)} (h : Decodes N dec item)
    (hbody : Contents N body items)
    (hbody' : ∀ s, body' s = (do
      let (v, s) ← Stream.required (dec s)
      let (vs, s) ← body s
      return (f v vs, s)))
    (hsurj : ∀ w, ∃ v vs, f v vs = w)
    (hitems : ∀ v vs is, items' (f v vs) = .ok is ↔
      ∃ i is', item v = .ok i ∧ items vs = .ok is' ∧ is = i :: is') :
    Contents N body' items' where
  sound {s s' w} hs ha hdec := by
    rw [hbody'] at hdec
    obtain ⟨⟨v, s₁⟩, helem, hdec⟩ := bind_eq_ok.mp hdec
    obtain ⟨⟨vs, s₂⟩, hrest, hdec⟩ := bind_eq_ok.mp hdec
    cases hdec
    replace helem := required_eq_ok.mp helem
    obtain ⟨hs₁, ha₁, -⟩ := h.whole hs ha helem
    obtain ⟨i, hi, hp, rfl⟩ := h.sound hs ha helem
    obtain ⟨is, his, hps, rfl⟩ := hbody.sound hs₁ ha₁ hrest
    exact ⟨i :: is, (hitems v vs _).mpr ⟨i, is, hi, his, rfl⟩, starts_cons hp hps, advance_cons s i is⟩
  complete {s w is} hs ha his hp hlimit hN := by
    obtain ⟨v, vs, rfl⟩ := hsurj w
    obtain ⟨i, is', hi, his', rfl⟩ := (hitems v vs is).mp his
    obtain ⟨hp₁, hp₂⟩ := starts_of_cons hp
    obtain ⟨hf, hlimit'⟩ := fits_first hs hp hlimit
    rw [encodeAll, length_append] at hN
    rw [hbody', required_eq_ok.mpr (h.complete hs ha hi hp₁ hf (by omega))]
    change (body _ >>= _) = _
    rw [hbody.complete (hs.advance hf.1) rfl his' hp₂ hlimit' (by omega), advance_cons]
    rfl
  returns {s} hs ha hN := by
    rw [hbody']
    refine (h.returns hs ha hN).required.bind fun r hr => ?_
    obtain ⟨v, s₁⟩ := r
    obtain ⟨hs₁, ha₁, hlt⟩ := h.whole hs ha (required_eq_ok.mp hr)
    exact (hbody.returns hs₁ ha₁ (by omega)).bind fun _ _ => .ok _

theorem Contents.nil {w : β} (hw : ∀ v, v = w) (hbody : ∀ s, body s = .ok (w, s))
    (hitems : items w = .ok []) : Contents N body items where
  sound {s s' v} hs ha hdec := by
    rw [hbody] at hdec
    cases hdec
    refine ⟨[], hitems, ⟨s.input, rfl⟩, ?_⟩
    rw [encodeAll, length_nil, advance_zero, rearm_of_none ha]
  complete {s v is} hs ha his _ _ _ := by
    obtain rfl := hw v
    obtain rfl : [] = is := Except.ok.inj (hitems.symm.trans his)
    rw [hbody, encodeAll, length_nil, advance_zero, rearm_of_none ha]
  returns {s} _ _ _ := by
    rw [hbody]
    exact .ok _

theorem decodeArrayElems_contents (h : Decodes N dec item) (n : ℕ) :
    Contents N (Stream.decodeArrayElems dec n) fun vs => vs.toList.mapM item := by
  induction n with
  | zero =>
    apply Contents.nil
    · intro v
      exact v.eq_nil
    · intro s
      rfl
    · rfl
  | succ n ih =>
    apply Contents.cons h ih
    · intro s
      rfl
    · intro w
      exact ⟨w.head, w.tail, w.cons_head_tail⟩
    intro v vs is
    rw [List.Vector.toList_cons]
    exact mapM_cons_eq_ok

end

end

section

variable {s s₁ : Stream} {N : ℕ} {k : Kind} {size : UInt64} {is : List Item}

theorem Decodes.mono {α : Type} {M : ℕ} {dec : Stream → Except StreamError (α × Stream)}
    {item : α → Except EncodeError Item} (h : Decodes M dec item) (hN : N ≤ M) :
    Decodes N dec item where
  sound := h.sound
  complete hs ha hi hp hf hle := h.complete hs ha hi hp hf (hle.trans hN)
  eol := h.eol
  returns hs ha hle := h.returns hs ha (hle.trans hN)

theorem bytes_again (h : s.kind = .ok ((k, size), s₁)) : s₁.bytes = s.bytes := by
  rw [Reader.Stream.bytes, Reader.Stream.bytes, kind_again h, h]

theorem decodeListSlice_again {α : Type} {dec : Stream → Except StreamError (α × Stream)}
    (h : s.kind = .ok ((k, size), s₁)) :
    Stream.decodeListSlice dec s₁ = Stream.decodeListSlice dec s := by
  rw [Stream.decodeListSlice, Stream.decodeListSlice, Reader.Stream.list, Reader.Stream.list,
    kind_again h, h]

theorem kind_of_list (hs : Whole s) (ha : s.ahead = none)
    (hp : encode (.list is) <+: s.input) (hf : Fits s (encode (.list is)).length) :
    ∃ size s₁, s.kind = .ok ((.list, size), s₁) := by
  have hle := hf.1
  rw [encode_list] at hp
  rw [encode_list, length_append] at hf hle
  have hto : (UInt64.ofNat (encodeAll is).length).toNat = (encodeAll is).length :=
    hs.ofNat_toNat (by omega)
  refine ⟨ofNat (encodeAll is).length, _, (kind_eq_ok hs ha).mpr ⟨trivial, ?_, ⟨?_, ?_, ?_⟩, rfl⟩⟩
  · obtain ⟨rest, hrest⟩ := hp
    rw [hto]
    exact ⟨encodeAll is ++ rest, by rw [← hrest, append_assoc]⟩
  · rw [hto]
    exact hf.left
  · rw [hto]
    exact hle
  intro limit hl
  have := hf.2 limit hl
  rw [hto]
  omega

theorem mapM_ok (is : List Item) : is.mapM Except.ok = (.ok is : Except EncodeError (List Item)) := by
  induction is with
  | nil => rfl
  | cons i is ih =>
    rw [mapM_cons, ih]
    rfl

variable {t : Ty} {b : Bytes}

theorem slice_decodes (h : ∀ N, Decodes N (decodeVal t) (itemOf t)) :
    Decodes N (decodeVal (.slice t)) (itemOf (.slice t)) := by
  cases hbyte : t.byte with
  | some e =>
    have hdec : decodeVal (.slice t) = fun s => do
        let (b, s) ← s.bytes
        return (b.map e.symm, s) := by
      funext s
      rw [decodeVal, hbyte]
    have hitem : itemOf (.slice t) = fun (vs : List t.Val) => .ok (.str (vs.map e)) := by
      funext vs
      rw [itemOf, hbyte]
    rw [hdec, hitem]
    exact byteSlice_decodes e
  | none =>
    have hdec : decodeVal (.slice t) = Stream.decodeListSlice (decodeVal t) := by
      funext s
      rw [decodeVal, hbyte]
    have hitem : itemOf (.slice t) = fun (vs : List t.Val) => (vs.mapM (itemOf t)).map .list := by
      funext vs
      rw [itemOf, hbyte]
    rw [hdec, hitem]
    exact (decodeListSlice_decodes (h N)).mono (le_succ N)

theorem array_decodes {n : ℕ} (h : ∀ N, Decodes N (decodeVal t) (itemOf t)) :
    Decodes N (decodeVal (.array n t)) (itemOf (.array n t)) := by
  cases hbyte : t.byte with
  | some e =>
    have hdec : decodeVal (.array n t) = (fun s => do
        let (b, s) ← s.decodeByteArray n
        if h : b.length = n then return (⟨b.map e.symm, map_length_eq e h⟩, s)
        else .error .tooShort) := by
      funext s
      rw [decodeVal, hbyte]
    have hitem : itemOf (.array n t) = fun (vs : List.Vector t.Val n) => .ok (.str (vs.toList.map e)) := by
      funext vs
      rw [itemOf, hbyte]
    rw [hdec, hitem]
    exact byteArray_decodes e n
  | none =>
    have hdec : decodeVal (.array n t) = inList (Stream.decodeArrayElems (decodeVal t) n) := by
      funext s
      rw [decodeVal, hbyte]
      rfl
    have hitem : itemOf (.array n t) =
        fun (vs : List.Vector t.Val n) => (vs.toList.mapM (itemOf t)).map .list := by
      funext vs
      rw [itemOf, hbyte]
    rw [hdec, hitem]
    exact (decodeArrayElems_contents (h N) n).inList.mono (le_succ N)

section

variable {decodeList : Stream → Except StreamError (List Item × Stream)}

theorem decodeInterfaceWith_decodes
    (hsound : ∀ {s s₁ s' : Stream} {size : UInt64} {is : List Item}, Whole s → s.ahead = none →
      s.kind = .ok ((.list, size), s₁) → decodeList s₁ = .ok (is, s') →
      encode (.list is) <+: s.input ∧ s' = advance s (encode (.list is)).length)
    (hcomplete : ∀ {s s₁ : Stream} {size : UInt64} {is : List Item}, Whole s → s.ahead = none →
      s.kind = .ok ((.list, size), s₁) → encode (.list is) <+: s.input →
      Fits s (encode (.list is)).length → (encode (.list is)).length ≤ N →
      decodeList s₁ = .ok (is, advance s (encode (.list is)).length))
    (hreturns : ∀ {s s₁ : Stream} {size : UInt64}, Whole s → s.ahead = none →
      s.kind = .ok ((.list, size), s₁) → s.input.length ≤ N → Returns (decodeList s₁)) :
    Decodes N (Stream.decodeInterfaceWith decodeList) .ok where
  sound {s s' v} hs ha hdec := by
    obtain ⟨⟨⟨k, size⟩, s₁⟩, hk, hdec⟩ := bind_eq_ok.mp hdec
    refine ⟨v, rfl, ?_⟩
    cases k with
    | list =>
      obtain ⟨⟨is, s₂⟩, hlist, hdec⟩ := bind_eq_ok.mp hdec
      cases hdec
      exact hsound hs ha hk hlist
    | byte b =>
      obtain ⟨⟨b', s₂⟩, hb, hdec⟩ := bind_eq_ok.mp hdec
      cases hdec
      rw [bytes_again hk, bytes_eq_ok hs ha] at hb
      rw [encode]
      exact ⟨hb.1, hb.2.2⟩
    | string =>
      obtain ⟨⟨b', s₂⟩, hb, hdec⟩ := bind_eq_ok.mp hdec
      cases hdec
      rw [bytes_again hk, bytes_eq_ok hs ha] at hb
      rw [encode]
      exact ⟨hb.1, hb.2.2⟩
  complete {s v i} hs ha hi hp hf hN := by
    cases hi
    rw [Stream.decodeInterfaceWith]
    cases v with
    | list is =>
      obtain ⟨size, s₁, hk⟩ := kind_of_list hs ha hp hf
      rw [hk]
      change (decodeList s₁ >>= _) = _
      rw [hcomplete hs ha hk hp hf hN]
      rfl
    | str b =>
      rw [encode] at hp hf ⊢
      have hb := (bytes_eq_ok hs ha).mpr ⟨hp, hf, rfl⟩
      have hb₀ := hb
      rw [Reader.Stream.bytes, bind_eq_ok] at hb₀
      obtain ⟨⟨⟨k, size⟩, s₁⟩, hk, hb₁⟩ := hb₀
      rw [← bytes_again hk] at hb
      rw [hk]
      cases k with
      | list => cases hb₁
      | byte x =>
        change (Reader.Stream.bytes s₁ >>= _) = _
        rw [hb]
        rfl
      | string =>
        change (Reader.Stream.bytes s₁ >>= _) = _
        rw [hb]
        rfl
  eol ha h0 := by
    rw [Stream.decodeInterfaceWith, kind_eol ha h0]
    rfl
  returns {s} hs ha hN := by
    refine (kind_returns s).bind fun r hr => ?_
    obtain ⟨⟨k, size⟩, s₁⟩ := r
    cases k with
    | list => exact (hreturns hs ha hr hN).bind fun _ _ => .ok _
    | byte b => exact (bytes_returns s₁).bind fun _ _ => .ok _
    | string => exact (bytes_returns s₁).bind fun _ _ => .ok _

/-- Every level of nesting takes at least one byte of the input. -/
theorem decodeInterface_decodes (fuel : ℕ) : Decodes fuel (Stream.decodeInterface fuel) .ok := by
  induction fuel with
  | zero =>
    apply decodeInterfaceWith_decodes
    · intro s s₁ s' size is _ _ _ h
      cases h
    · intro s s₁ size is _ _ _ _ _ h
      have hpos := length_pos_of_ne_nil (Stream.encode_ne_nil (.list is))
      omega
    intro s s₁ size hs ha hk h
    obtain ⟨-, hp, -⟩ := (kind_eq_ok hs ha).mp hk
    have hpos := header_length_pos .list size.toNat
    have hle := hp.length_le
    omega
  | succ fuel ih =>
    have hlist := decodeListSlice_decodes ih
    have hitem (is : List Item) :
        (is.mapM Except.ok).map .list = (.ok (.list is) : Except EncodeError Item) := by
      rw [mapM_ok]
      rfl
    apply decodeInterfaceWith_decodes
    · intro s s₁ s' size is hs ha hk h
      rw [decodeListSlice_again hk] at h
      obtain ⟨i, hi, hsound⟩ := hlist.sound hs ha h
      rw [hitem] at hi
      cases hi
      exact hsound
    · intro s s₁ size is hs ha hk hp hf hN
      rw [decodeListSlice_again hk]
      exact hlist.complete hs ha (hitem is) hp hf hN
    intro s s₁ size hs ha hk hN
    rw [decodeListSlice_again hk]
    exact hlist.returns hs ha hN

theorem iface_decodes : Decodes N (fun s => Stream.decodeInterface s.input.length s) .ok where
  sound hs ha hdec := (decodeInterface_decodes _).sound hs ha hdec
  complete hs ha hi hp hf _ := (decodeInterface_decodes _).complete hs ha hi hp hf hp.length_le
  eol ha h0 := (decodeInterface_decodes _).eol ha h0
  returns hs ha _ := (decodeInterface_decodes _).returns hs ha le_rfl

end

mutual

theorem decodeVal_decodes (t : Ty) (N : ℕ) : Decodes N (decodeVal t) (itemOf t) := by
  cases t with
  | iface => exact iface_decodes
  | uint w => exact uint_decodes w
  | bigInt => exact decodeBigInt_decodes
  | bool => exact bool_decodes
  | string => exact bytes_decodes
  | slice t => exact slice_decodes (decodeVal_decodes t)
  | array n t => exact array_decodes (decodeVal_decodes t)
  | struct fields => exact (decodeFields_contents fields N).inList.mono (le_succ N)

theorem decodeFields_contents (fields : Fields) (N : ℕ) :
    Contents N (decodeFields fields) (itemsOf fields) := by
  cases fields with
  | nil => exact Contents.nil (fun _ => rfl) (fun _ => rfl) rfl
  | cons t fields =>
    refine Contents.cons (decodeVal_decodes t N) (decodeFields_contents fields N)
      (fun _ => rfl) (fun w => ⟨w.1, w.2, rfl⟩) ?_
    intro v vs is
    exact cons_eq_ok

end

theorem whole_newStream (h : b.length < 2 ^ 64) : Whole (newStream b) := by
  change (UInt64.ofNat b.length).toNat = b.length
  rw [toNat_ofNat', mod_eq_of_lt h]

/-- Exactly the encoding of a value is decoded to it. -/
theorem decodeBytes_eq_ok {v} (hb : b.length < 2 ^ 64) :
    decodeBytes t b = .ok v ↔ encodeToBytes t v = .ok b := by
  have hs := whole_newStream hb
  have hdec := decodeVal_decodes t b.length
  rw [encodeToBytes_eq, decodeBytes]
  constructor
  · intro h
    obtain ⟨⟨v', s'⟩, hval, h⟩ := bind_eq_ok.mp h
    obtain ⟨i, hi, hp, rfl⟩ := hdec.sound hs rfl hval
    dsimp only at h
    split at h
    · cases h
    next hrest =>
      cases h
      rw [hi]
      refine congrArg Except.ok (hp.eq_of_length_le ?_)
      change ¬ 0 < (b.drop _).length at hrest
      rw [length_drop] at hrest
      change b.length ≤ _
      omega
  intro h
  cases hi : itemOf t v with
  | error e =>
    rw [hi] at h
    cases h
  | ok i =>
    rw [hi] at h
    obtain rfl : encode i = b := Except.ok.inj h
    have hval := hdec.complete hs rfl hi ⟨[], append_nil _⟩ ⟨le_rfl, fun _ h => by cases h⟩ le_rfl
    rw [hval]
    change (if 0 < ((encode i).drop (encode i).length).length then _ else _) = _
    rw [drop_length, length_nil, if_neg (lt_irrefl 0)]
    rfl

theorem decodeBytes_returns (t : Ty) (hb : b.length < 2 ^ 64) : Returns (decodeBytes t b) := by
  rw [decodeBytes]
  refine ((decodeVal_decodes t b.length).returns (whole_newStream hb) rfl le_rfl).bind fun r _ => ?_
  dsimp only
  split
  · exact .error (by decide)
  · exact .ok _

end

section

mutual

def NonNeg : (t : Ty) → t.Val → Prop
  | .bigInt, i => (0 : ℤ) ≤ i
  | .slice t, vs => ∀ v ∈ (show List t.Val from vs), NonNeg t v
  | .array _ t, vs => ∀ v ∈ vs.toList, NonNeg t v
  | .struct fields, v => NonNegFields fields v
  | .iface, _ => True
  | .uint _, _ => True
  | .bool, _ => True
  | .string, _ => True

def NonNegFields : (fields : Fields) → fields.Val → Prop
  | .nil, _ => True
  | .cons t fields, v => NonNeg t v.1 ∧ NonNegFields fields v.2

end

theorem nonNeg_of_byte {t : Ty} {e} (h : t.byte = some e) (v : t.Val) : NonNeg t v := by
  cases t with
  | uint w => trivial
  | _ => cases h

theorem map_isOk {α β : Type} {f : α → β} {r : Except EncodeError α} :
    (∃ i, r.map f = .ok i) ↔ ∃ a, r = .ok a := by
  cases r with
  | error e =>
    constructor
    · rintro ⟨i, h⟩
      cases h
    rintro ⟨a, h⟩
    cases h
  | ok a => exact ⟨fun _ => ⟨a, rfl⟩, fun _ => ⟨f a, rfl⟩⟩

theorem mapM_isOk {α : Type} {item : α → Except EncodeError Item} (vs : List α) :
    (∃ is, vs.mapM item = .ok is) ↔ ∀ v ∈ vs, ∃ i, item v = .ok i := by
  induction vs with
  | nil => exact ⟨fun _ v hv => absurd hv not_mem_nil, fun _ => ⟨[], rfl⟩⟩
  | cons v vs ih =>
    rw [forall_mem_cons, ← ih, mapM_cons]
    exact cons_isOk

theorem bigIntItem_isOk (i : ℤ) : (∃ j, bigIntItem (some i) = .ok j) ↔ 0 ≤ i := by
  rw [bigIntItem]
  split
  · next h =>
    constructor
    · rintro ⟨j, h'⟩
      cases h'
    intro h'
    exact absurd h (not_lt.mpr h')
  · next h => exact ⟨fun _ => not_lt.mp h, fun _ => ⟨_, rfl⟩⟩

mutual

/-- The encoder refuses negative integers only. -/
theorem itemOf_isOk (t : Ty) (v : t.Val) : (∃ i, itemOf t v = .ok i) ↔ NonNeg t v := by
  cases t with
  | bigInt => exact bigIntItem_isOk v
  | iface => exact ⟨fun _ => trivial, fun _ => ⟨v, rfl⟩⟩
  | uint w => exact ⟨fun _ => trivial, fun _ => ⟨_, rfl⟩⟩
  | bool => exact ⟨fun _ => trivial, fun _ => ⟨_, rfl⟩⟩
  | string => exact ⟨fun _ => trivial, fun _ => ⟨_, rfl⟩⟩
  | slice t =>
    rw [itemOf, NonNeg]
    cases hbyte : t.byte with
    | some e => exact ⟨fun _ v _ => nonNeg_of_byte hbyte v, fun _ => ⟨_, rfl⟩⟩
    | none =>
      refine map_isOk.trans ((mapM_isOk v).trans ?_)
      exact forall₂_congr fun v _ => itemOf_isOk t v
  | array n t =>
    rw [itemOf, NonNeg]
    cases hbyte : t.byte with
    | some e => exact ⟨fun _ v _ => nonNeg_of_byte hbyte v, fun _ => ⟨_, rfl⟩⟩
    | none =>
      refine map_isOk.trans ((mapM_isOk _).trans ?_)
      exact forall₂_congr fun v _ => itemOf_isOk t v
  | struct fields =>
    rw [itemOf, NonNeg]
    exact map_isOk.trans (itemsOf_isOk fields v)

theorem itemsOf_isOk (fields : Fields) (v : fields.Val) :
    (∃ is, itemsOf fields v = .ok is) ↔ NonNegFields fields v := by
  cases fields with
  | nil => exact ⟨fun _ => trivial, fun _ => ⟨[], rfl⟩⟩
  | cons t fields =>
    obtain ⟨x, xs⟩ := v
    have hx := itemOf_isOk t x
    have hxs := itemsOf_isOk fields xs
    change _ ↔ NonNeg t x ∧ NonNegFields fields xs
    rw [← hx, ← hxs]
    exact cons_isOk

end

theorem encodeToBytes_isOk (t : Ty) (v : t.Val) : (∃ b, encodeToBytes t v = .ok b) ↔ NonNeg t v := by
  rw [← itemOf_isOk, encodeToBytes_eq]
  exact map_isOk

theorem decodeBytes_of_append {t : Ty} {v} {b rest} (hrest : rest ≠ [])
    (hlen : (b ++ rest).length < 2 ^ 64) :
    (encodeToBytes t v = .ok b → ∃ e, decodeBytes t (b ++ rest) = .error e) ∧
      (encodeToBytes t v = .ok (b ++ rest) → ∃ e, decodeBytes t b = .error e) := by
  have hb : b.length < 2 ^ 64 := by
    rw [length_append] at hlen
    omega
  -- an encoding of any value that starts with another one is that one
  have hinj {w w' : t.Val} (hw : encodeToBytes t w = .ok b)
      (hw' : encodeToBytes t w' = .ok (b ++ rest)) : False := by
    rw [encodeToBytes_eq] at hw hw'
    cases hi : itemOf t w with
    | error e =>
      rw [hi] at hw
      cases hw
    | ok i =>
      cases hj : itemOf t w' with
      | error e =>
        rw [hj] at hw'
        cases hw'
      | ok j =>
        rw [hi] at hw
        rw [hj] at hw'
        have hib : encode i = b := Except.ok.inj hw
        have hjb : encode j = b ++ rest := Except.ok.inj hw'
        have happ : encode i ++ rest = encode j ++ [] := by rw [hib, hjb, append_nil]
        exact hrest (Stream.encode_append_inj i j rest [] (hib ▸ hb) (hjb ▸ hlen) happ).2
  constructor
  · intro hv
    cases hdec : decodeBytes t (b ++ rest) with
    | error e => exact ⟨e, rfl⟩
    | ok w => exact (hinj hv ((decodeBytes_eq_ok hlen).mp hdec)).elim
  intro hv
  cases hdec : decodeBytes t b with
  | error e => exact ⟨e, rfl⟩
  | ok w => exact (hinj ((decodeBytes_eq_ok hb).mp hdec) hv).elim

/-- Values without negative integers are encoded, and inputs are decoded to a
value exactly if they are its encoding. Sizes are counted in 64 bits. -/
theorem rlp_canonical (t : Ty) :
    (∀ v, NonNeg t v ↔ ∃ b, encodeToBytes t v = .ok b) ∧
    (∀ v b, encodeToBytes t v = .ok b → b.length < 2 ^ 64 → decodeBytes t b = .ok v) ∧
    (∀ v b, b.length < 2 ^ 64 → decodeBytes t b = .ok v → encodeToBytes t v = .ok b) ∧
    (∀ v b b', b.length < 2 ^ 64 → b'.length < 2 ^ 64 →
      decodeBytes t b = .ok v → decodeBytes t b' = .ok v → b = b') ∧
    (∀ v b rest, rest ≠ [] → (b ++ rest).length < 2 ^ 64 →
      (encodeToBytes t v = .ok b → ∃ e, decodeBytes t (b ++ rest) = .error e) ∧
      (encodeToBytes t v = .ok (b ++ rest) → ∃ e, decodeBytes t b = .error e)) ∧
    ∀ b, b.length < 2 ^ 64 → decodeBytes t b ≠ .error .noReturn := by
  refine ⟨?_, ?_, ?_, ?_, ?_, ?_⟩
  · intro v
    exact (encodeToBytes_isOk t v).symm
  · intro v b hv hb
    exact (decodeBytes_eq_ok hb).mpr hv
  · intro v b hb hdec
    exact (decodeBytes_eq_ok hb).mp hdec
  · intro v b b' hb hb' hdec hdec'
    have hv := (decodeBytes_eq_ok hb).mp hdec
    have hv' := (decodeBytes_eq_ok hb').mp hdec'
    exact Except.ok.inj (hv.symm.trans hv')
  · intro v b rest hrest hlen
    exact decodeBytes_of_append hrest hlen
  intro b hb
  exact decodeBytes_returns t hb

/-- A struct with a list of numbers and a flag. -/
theorem rlp_canonical_struct :
    decodeBytes (.struct (.cons (.slice (.uint .w64)) (.cons .bool .nil))) [0xC4, 0xC2, 0x05, 0x80, 0x01] =
      .ok (([5#64, 0#64], (true, ()))) :=
  (rlp_canonical (.struct (.cons (.slice (.uint .w64)) (.cons .bool .nil)))).2.1 _ _
    (by decide +kernel) (by decide)

/-- A negative integer has no encoding. -/
theorem encodeToBytes_negative :
    ¬ ∀ (t : Ty) (v : t.Val), ∃ b, encodeToBytes t v = .ok b ∧ decodeBytes t b = .ok v := by
  intro h
  obtain ⟨b, hb, -⟩ := h .bigInt (-1 : ℤ)
  have hneg : encodeToBytes .bigInt (-1 : ℤ) = .error .negativeBigInt := rfl
  rw [hneg] at hb
  cases hb

end

end Geth.Rlp.RoundTrip
