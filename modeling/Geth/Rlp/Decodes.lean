import Geth.Rlp.Limits

namespace Geth.Rlp.Decodes

open Lib.BigEndian Common.Basic Encode Reader Limits List UInt8 Reader.Stream Option Nat Except
open Rlp.Stream (Kind encodeString_eq_header)

variable {α β : Type} {s s' s₁ : Stream} {size : UInt64} {k : Kind}

section

variable {b : Bytes} {x : UInt8} {n : ℕ} {v : UInt64}

theorem bytes_of_byte (h : s.kind = .ok ((.byte x, size), s₁)) : s.bytes = .ok ([x], s₁.rearm) := by
  rw [bytes, h]
  rfl

theorem bytes_of_string (h : s.kind = .ok ((.string, size), s₁)) : s.bytes = s₁.readFull size >>= fun r =>
      if size = 1 ∧ r.1.head?.any (· < 128) then .error .canonSize else .ok r := by
  rw [bytes, h]
  rfl

theorem encodeString_of_small (hx : x.toNat < 0x80) : encodeString [x] = [x] := by
  rw [encodeString, if_pos]
  rw [le_iff_toNat_le]
  exact Nat.lt_succ_iff.mp hx

/-- The check that a single byte below 128 stands for itself. -/
theorem not_small_iff (hb : b.length = size.toNat) :
    ¬ (size = 1 ∧ b.head?.any (· < 128) = true) ↔ ¬ ∃ x, b = [x] ∧ x ≤ 0x7F := by
  have hle (x : UInt8) : x < 128 ↔ x ≤ 0x7F := by
    rw [lt_iff_toNat_lt, le_iff_toNat_le]
    exact Nat.lt_succ_iff
  constructor
  · rintro h ⟨x, rfl, hx⟩
    refine h ⟨UInt64.toNat_inj.mp hb.symm, ?_⟩
    exact decide_eq_true ((hle x).mpr hx)
  rintro h ⟨rfl, hany⟩
  obtain ⟨x, rfl⟩ := length_eq_one_iff.mp hb
  exact h ⟨x, rfl, (hle x).mp (of_decide_eq_true hany)⟩

theorem readFull_ahead (s : Stream) (a : Option (Kind × UInt64)) (n : UInt64) :
    Reader.Stream.readFull { s with ahead := a } n = s.readFull n :=
  rfl

theorem bytes_eq_ok (hs : Whole s) (ha : s.ahead = none) :
    s.bytes = .ok (b, s') ↔ encodeString b <+: s.input ∧ Fits s (encodeString b).length ∧
      s' = advance s (encodeString b).length := by
  constructor
  · intro h
    have h₀ := h
    rw [bytes, bind_eq_ok] at h₀
    obtain ⟨⟨⟨k, size⟩, s₁⟩, hk, h₁⟩ := h₀
    obtain ⟨hproper, hp, hh, rfl⟩ := (kind_eq_ok hs ha).mp hk
    cases k with
    | list => cases h₁
    | byte x =>
      rw [bytes_of_byte hk] at h
      cases h
      rw [encodeString_of_small hproper.1]
      exact ⟨hp, hh.1, rfl⟩
    | string =>
      rw [bytes_of_string hk, readFull_ahead] at h
      obtain ⟨⟨b', s₂⟩, hfull, h⟩ := bind_eq_ok.mp h
      obtain ⟨hfits, rfl, rfl⟩ := (readFull_eq_ok (hs.advance hh.1.1) size).mp hfull
      rw [advance_advance] at h
      split at h
      · cases h
      next hsmall =>
        cases h
        have hlen : ((advance s (header .string size.toNat).length).input.take size.toNat).length =
            size.toNat := by
          rw [length_take, min_eq_left hfits.1]
        rw [not_small_iff hlen] at hsmall
        have henc := encodeString_eq_header hsmall
        rw [hlen] at henc
        have hsum := congrArg length henc
        rw [length_append, hlen] at hsum
        rw [hsum, henc]
        refine ⟨?_, hh.1.add hs hfits, rfl⟩
        obtain ⟨rest, hrest⟩ := hp
        refine ⟨rest.drop size.toNat, ?_⟩
        change header .string size.toNat ++ (s.input.drop _).take _ ++ _ = _
        rw [← hrest, drop_left, append_assoc, take_append_drop]
  rintro ⟨hp, hf, rfl⟩
  by_cases hsmall : ∃ x, b = [x] ∧ x ≤ 0x7F
  · obtain ⟨x, rfl, hx⟩ := hsmall
    have hx' : x.toNat < 0x80 := Nat.lt_succ_iff.mpr (UInt8.le_iff_toNat_le.mp hx)
    rw [encodeString_of_small hx'] at hp hf ⊢
    have hk : s.kind = .ok ((.byte x, 0), _) := (kind_eq_ok hs ha).mpr
      ⟨⟨hx', rfl⟩, hp, ⟨hf, hf.1, fun _ _ => zero_le _⟩, rfl⟩
    rw [bytes_of_byte hk]
    rfl
  have henc := encodeString_eq_header hsmall
  have hb : b.length ≤ s.input.length := by
    have := hf.1
    rw [henc, length_append] at this
    omega
  have hto := hs.ofNat_toNat hb
  obtain ⟨rest, hrest⟩ := hp
  have hhead : header .string (UInt64.ofNat b.length).toNat = encodeStringHeader b.length := by
    rw [hto]
    rfl
  rw [henc, length_append] at hf ⊢
  rw [henc, append_assoc] at hrest
  have hk : s.kind = .ok ((.string, UInt64.ofNat b.length), _) := (kind_eq_ok hs ha).mpr
    ⟨trivial, by rw [hhead]; exact ⟨_, hrest⟩, by
      rw [hhead]
      refine ⟨hf.left, by rw [hto]; exact hf.1, ?_⟩
      intro limit hl
      rw [hto]
      have := hf.2 limit hl
      omega, rfl⟩
  rw [hhead] at hk
  rw [bytes_of_string hk, readFull_ahead]
  have hfull := (readFull_eq_ok (hs.advance hf.left.1) (UInt64.ofNat b.length)).mpr
    ⟨by rw [hto]; exact hf.right hs, rfl, rfl⟩
  rw [hto, advance_advance] at hfull
  have htake : (advance s (encodeStringHeader b.length).length).input.take b.length = b := by
    change (s.input.drop _).take _ = _
    rw [← hrest, drop_left, take_left]
  rw [htake] at hfull
  rw [hfull]
  change (if _ then _ else _) = _
  rw [if_neg ((not_small_iff hto.symm).mpr hsmall)]

theorem readUint_eq_take (hs : Whole s) (h8 : n ≤ 8) :
    s.readUint n = .ok (v, s') ↔ Fits s n ∧ (n ≠ 1 → (s.input.take n).head? ≠ some 0) ∧
      v = UInt64.ofNat (beNat (s.input.take n)) ∧ s' = advance s n := by
  cases n with
  | succ n => exact readUint_eq_ok hs n.succ_pos h8
  | zero =>
    rw [readUint, advance_zero]
    constructor
    · intro h
      cases h
      refine ⟨⟨zero_le _, fun _ _ => zero_le _⟩, ?_, rfl, rfl⟩
      rw [take_zero]
      exact fun _ h => some_ne_none _ h.symm
    rintro ⟨-, -, rfl, rfl⟩
    rfl

theorem le_beNat (hb : b.length = n + 2) (hz : b.head? ≠ some 0) : 256 ≤ beNat b := by
  by_contra hlt
  have hle : byteLen (beNat b) ≤ 1 := byteLen_le (by rw [pow_one]; omega)
  have hlen := congrArg length (natBytes_beNat hz)
  rw [natBytes, beBytes_length, hb] at hlen
  omega

theorem beNat_lt_of_length (hb : b.length ≤ 8) : beNat b < 2 ^ 64 :=
  lt_of_lt_of_le (beNat_lt b) (Nat.pow_le_pow_right (by decide : 0 < 256) hb)

theorem toNat_beNat (hb : b.length ≤ 8) : (UInt64.ofNat (beNat b)).toNat = beNat b := by
  rw [UInt64.toNat_ofNat', mod_eq_of_lt (beNat_lt_of_length hb)]

theorem uint_check (hb : b.length = size.toNat) (h8 : b.length ≤ 8) :
    (size.toNat ≠ 1 → b.head? ≠ some 0) ∧ ¬ (0 < size ∧ UInt64.ofNat (beNat b) < 128) ↔
      ¬ (size = 1 ∧ b.head?.any (· < 128) = true) ∧ b.head? ≠ some 0 := by
  rw [not_small_iff hb, UInt64.lt_iff_toNat_lt, UInt64.lt_iff_toNat_lt, toNat_beNat h8]
  change (_ → _) ∧ ¬ (0 < size.toNat ∧ beNat b < 128) ↔ _
  rw [← hb]
  match b with
  | [] => simp
  | [x] =>
    have hx : x ≤ 0x7F ↔ x.toNat < 128 := by
      rw [le_iff_toNat_le]
      exact Nat.lt_succ_iff.symm
    rw [beNat_singleton]
    constructor
    · rintro ⟨-, h⟩
      refine ⟨?_, ?_⟩
      · rintro ⟨y, hy, hle⟩
        obtain rfl : x = y := singleton_inj.mp hy
        exact h ⟨one_pos, hx.mp hle⟩
      intro h0
      obtain rfl : x = 0 := some.inj h0
      exact h ⟨one_pos, by decide⟩
    rintro ⟨h, -⟩
    exact ⟨fun h1 => absurd rfl h1, fun hlt => h ⟨x, rfl, hx.mpr hlt.2⟩⟩
  | x :: y :: l =>
    constructor
    · rintro ⟨h, -⟩
      refine ⟨?_, h (by simp)⟩
      rintro ⟨z, hz, -⟩
      cases hz
    rintro ⟨-, h⟩
    have hge := le_beNat rfl h
    exact ⟨fun _ => h, fun hlt => by omega⟩

theorem uint_eq_ok {maxbits : ℕ} (hmax : maxbits ≤ 64) (hpos : 8 ≤ maxbits)
    (hs : Whole s) (ha : s.ahead = none) :
    s.uint maxbits = .ok (v, s') ↔ ∃ b, s.bytes = .ok (b, s') ∧ b.length ≤ maxbits / 8 ∧
      b.head? ≠ some 0 ∧ v = UInt64.ofNat (beNat b) := by
  cases hk : s.kind with
  | error e =>
    rw [Stream.uint, bytes, hk]
    constructor
    · intro h
      cases h
    rintro ⟨b, h, -⟩
    cases h
  | ok r =>
    obtain ⟨⟨k, size⟩, s₁⟩ := r
    have hs₁ : Whole s₁ := by
      obtain ⟨-, -, hh, rfl⟩ := (kind_eq_ok hs ha).mp hk
      exact hs.advance hh.1.1
    rw [Stream.uint, hk]
    cases k with
    | list =>
      rw [bytes, hk]
      constructor
      · intro h
        cases h
      rintro ⟨b, h, -⟩
      cases h
    | byte x =>
      rw [bytes_of_byte hk]
      change (if x = 0 then _ else _) = _ ↔ _
      constructor
      · intro h
        split at h
        · cases h
        next hx =>
          cases h
          refine ⟨[x], rfl, ?_, fun h => hx (some.inj h), by rw [beNat_singleton]⟩
          exact (le_div_iff_mul_le (by decide)).mpr hpos
      rintro ⟨b, hb, -, hhead, rfl⟩
      cases hb
      rw [if_neg (fun hx => hhead (congrArg some hx)), beNat_singleton]
      rfl
    | string =>
      rw [bytes_of_string hk]
      change (if maxbits / 8 < size.toNat then _ else _) = _ ↔ _
      constructor
      · intro h
        split at h
        · cases h
        next hle =>
          rw [not_lt] at hle
          obtain ⟨⟨v₁, s₂⟩, hread, h⟩ := bind_eq_ok.mp h
          replace hread := mapError_eq_ok.mp hread
          dsimp only at h
          split at h
          · cases h
          next hv =>
            cases h
            obtain ⟨hfits, hz, rfl, rfl⟩ := (readUint_eq_take hs₁ (by omega)).mp hread
            have hlen : (s₁.input.take size.toNat).length = size.toNat := by
              rw [length_take, min_eq_left hfits.1]
            obtain ⟨hsmall, hhead⟩ := (uint_check hlen (by omega)).mp ⟨hz, hv⟩
            refine ⟨s₁.input.take size.toNat, ?_, by omega, hhead, rfl⟩
            rw [(readFull_eq_ok hs₁ size).mpr ⟨hfits, rfl, rfl⟩]
            change (if _ then _ else _) = _
            rw [if_neg hsmall]
      rintro ⟨b, hb, hle, hhead, rfl⟩
      obtain ⟨⟨b', s₂⟩, hfull, hb⟩ := bind_eq_ok.mp hb
      obtain ⟨hfits, rfl, rfl⟩ := (readFull_eq_ok hs₁ size).mp hfull
      split at hb
      · cases hb
      next hsmall =>
        cases hb
        have hlen : (s₁.input.take size.toNat).length = size.toNat := by
          rw [length_take, min_eq_left hfits.1]
        obtain ⟨hz, hv⟩ := (uint_check hlen (by omega)).mpr ⟨hsmall, hhead⟩
        rw [if_neg (by omega), (readUint_eq_take hs₁ (by omega)).mpr ⟨hfits, hz, rfl, rfl⟩]
        change (if _ then _ else _) = _
        rw [if_neg hv]
        rfl

theorem decodeBigInt_eq_ok {v : ℤ} (hs : Whole s) (ha : s.ahead = none) : s.decodeBigInt = .ok (v, s') ↔
      ∃ b, s.bytes = .ok (b, s') ∧ b.head? ≠ some 0 ∧ v = (beNat b : ℤ) := by
  cases hk : s.kind with
  | error e =>
    rw [Stream.decodeBigInt, bytes, hk]
    constructor
    · intro h
      cases h
    rintro ⟨b, h, -⟩
    cases h
  | ok r =>
    obtain ⟨⟨k, size⟩, s₁⟩ := r
    have hs₁ : Whole s₁ := by
      obtain ⟨-, -, hh, rfl⟩ := (kind_eq_ok hs ha).mp hk
      exact hs.advance hh.1.1
    rw [Stream.decodeBigInt, hk]
    cases k with
    | list =>
      rw [bytes, hk]
      constructor
      · intro h
        cases h
      rintro ⟨b, h, -⟩
      cases h
    | byte x =>
      rw [bytes_of_byte hk]
      change (if x = 0 then _ else _) = _ ↔ _
      constructor
      · intro h
        split at h
        · cases h
        next hx =>
          cases h
          exact ⟨[x], rfl, fun h => hx (some.inj h), by rw [beNat_singleton]⟩
      rintro ⟨b, hb, hhead, rfl⟩
      cases hb
      rw [if_neg (fun hx => hhead (congrArg some hx)), beNat_singleton]
      rfl
    | string =>
      rw [bytes_of_string hk]
      change (if size = 0 then _ else _) = _ ↔ _
      by_cases h0 : size = 0
      · subst h0
        rw [if_pos rfl, (readFull_eq_ok hs₁ 0).mpr
          ⟨⟨zero_le _, fun _ _ => zero_le _⟩, rfl, (advance_zero s₁).symm⟩]
        constructor
        · intro h
          cases h
          exact ⟨[], rfl, fun h => some_ne_none _ h.symm, rfl⟩
        rintro ⟨b, hb, -, rfl⟩
        cases hb
        rfl
      rw [if_neg h0]
      constructor
      · intro h
        obtain ⟨⟨b, s₂⟩, hfull, h⟩ := bind_eq_ok.mp h
        dsimp only at h
        split at h
        · cases h
        next hsmall =>
          split at h
          · cases h
          next hhead =>
            cases h
            refine ⟨b, ?_, hhead, rfl⟩
            rw [hfull]
            change (if _ then _ else _) = _
            rw [if_neg hsmall]
      rintro ⟨b, hb, hhead, rfl⟩
      obtain ⟨⟨b', s₂⟩, hfull, hb⟩ := bind_eq_ok.mp hb
      split at hb
      · cases hb
      next hsmall =>
        cases hb
        rw [hfull]
        change (if _ then _ else _) = _
        rw [if_neg hsmall, if_neg hhead]
        rfl

theorem decodeByteArray_eq_ok (hs : Whole s) (ha : s.ahead = none) :
    s.decodeByteArray n = .ok (b, s') ↔ s.bytes = .ok (b, s') ∧ b.length = n := by
  cases hk : s.kind with
  | error e =>
    rw [Stream.decodeByteArray, bytes, hk]
    constructor
    · intro h
      cases h
    rintro ⟨h, -⟩
    cases h
  | ok r =>
    obtain ⟨⟨k, size⟩, s₁⟩ := r
    have hs₁ : Whole s₁ := by
      obtain ⟨-, -, hh, rfl⟩ := (kind_eq_ok hs ha).mp hk
      exact hs.advance hh.1.1
    rw [Stream.decodeByteArray, hk]
    cases k with
    | list =>
      rw [bytes, hk]
      constructor
      · intro h
        cases h
      rintro ⟨h, -⟩
      cases h
    | byte x =>
      rw [bytes_of_byte hk]
      change (if n = 0 then _ else if 1 < n then _ else _) = _ ↔ _
      constructor
      · intro h
        split at h
        · cases h
        split at h
        · cases h
        cases h
        exact ⟨rfl, by rw [length_singleton]; omega⟩
      rintro ⟨h, hlen⟩
      cases h
      rw [length_singleton] at hlen
      rw [if_neg (by omega), if_neg (by omega)]
      rfl
    | string =>
      rw [bytes_of_string hk]
      change (if n < size.toNat then _ else if size.toNat < n then _ else _) = _ ↔ _
      have hlen (hread : s₁.readFull size = .ok (b, s')) : b.length = size.toNat := by
        obtain ⟨hfits, rfl, -⟩ := (readFull_eq_ok hs₁ size).mp hread
        rw [length_take, min_eq_left hfits.1]
      constructor
      · intro h
        split at h
        · cases h
        split at h
        · cases h
        obtain ⟨⟨b', s₂⟩, hfull, h⟩ := bind_eq_ok.mp h
        dsimp only at h
        split at h
        · cases h
        next hsmall =>
          cases h
          refine ⟨?_, by rw [hlen hfull]; omega⟩
          rw [hfull]
          change (if _ then _ else _) = _
          rw [if_neg hsmall]
      rintro ⟨hb, hn⟩
      obtain ⟨⟨b', s₂⟩, hfull, hb⟩ := bind_eq_ok.mp hb
      split at hb
      · cases hb
      next hsmall =>
        cases hb
        have hl := hlen hfull
        rw [if_neg (by omega), if_neg (by omega), hfull]
        change (if _ then _ else _) = _
        rw [if_neg hsmall]
        rfl

end

section

variable {α β : Type} {r : Except StreamError α} {f : α → Except StreamError β} {e : StreamError}

/-- The result is not that of a recursion that was cut off. -/
def Returns (r : Except StreamError α) : Prop := r ≠ .error .noReturn

theorem Returns.ok (a : α) : Returns (.ok a) := by
  intro h
  cases h

theorem Returns.error (h : e ≠ .noReturn) : Returns (.error e : Except StreamError α) :=
  fun h' => h (error.inj h')

theorem Returns.guard {c : Prop} [Decidable c] (he : e ≠ .noReturn) (h : Returns r) :
    Returns (if c then .error e else r) := by
  split
  · exact .error he
  · exact h

theorem Returns.bind (h : Returns r) (hf : ∀ a, r = .ok a → Returns (f a)) : Returns (r >>= f) := by
  cases r with
  | error e => exact fun h' => h (congrArg Except.error (error.inj h'))
  | ok a => exact hf a rfl

theorem Returns.mapError {g} (h : Returns r)
    (hg : ∀ e, g e = .noReturn → e = .noReturn) : Returns (r.mapError g) := by
  cases r with
  | error e => exact fun h' => h (congrArg Except.error (hg e (error.inj h')))
  | ok a => exact .ok a

variable (s : Stream)

theorem willRead_returns (n : UInt64) : Returns (s.willRead n) := by
  rw [Stream.willRead]
  refine .guard (by decide) ?_
  exact .guard (by decide) (.ok _)

theorem readFull_returns (n : UInt64) : Returns (s.readFull n) := by
  rw [readFull]
  refine (willRead_returns s n).bind fun s' _ => ?_
  split
  · exact .ok _
  · exact .error (by decide)

theorem readByte_returns : Returns s.readByte := by
  rw [Stream.readByte]
  refine (willRead_returns s 1).bind fun s' _ => ?_
  cases s'.input with
  | nil => exact .error (by decide)
  | cons x rest => exact .ok _

theorem readUint_returns (size : ℕ) : Returns (s.readUint size) := by
  match size with
  | 0 => exact .ok _
  | 1 => exact (readByte_returns s).bind fun _ _ => .ok _
  | k + 2 =>
    rw [readUint_add_two]
    refine (readFull_returns s _).bind fun r _ => ?_
    exact .guard (by decide) (.ok _)

theorem readLongSize_returns (k : Kind) (size : ℕ) : Returns (s.readLongSize k size) := by
  rw [readLongSize]
  refine (readUint_returns s size).bind fun r _ => ?_
  exact .guard (by decide) (.ok _)

theorem atTop_eq_noReturn (e : StreamError) (h : s.atTop e = .noReturn) : e = .noReturn := by
  cases e with
  | noReturn => rfl
  | unexpectedEOF =>
    rw [Stream.atTop] at h
    split at h <;> cases h
  | valueTooLarge =>
    rw [Stream.atTop] at h
    split at h <;> cases h
  | _ => cases h

theorem readKind_returns : Returns s.readKind := by
  rw [readKind]
  refine ((readByte_returns s).mapError (atTop_eq_noReturn s)).bind fun r _ => ?_
  dsimp only
  split
  · exact .ok _
  split
  · exact .ok _
  split
  · exact readLongSize_returns _ _ _
  split
  · exact .ok _
  · exact readLongSize_returns _ _ _

theorem kind_returns : Returns s.kind := by
  rw [kind]
  split
  · exact .ok _
  refine .guard (by decide) ?_
  refine (readKind_returns s).bind fun r _ => ?_
  refine .guard (by decide) ?_
  exact .guard (by decide) (.ok _)

theorem bytes_returns : Returns s.bytes := by
  rw [bytes]
  refine (kind_returns s).bind fun r _ => ?_
  obtain ⟨⟨k, size⟩, s₁⟩ := r
  cases k with
  | byte b => exact .ok _
  | list => exact .error (by decide)
  | string =>
    refine (readFull_returns s₁ size).bind fun r _ => ?_
    exact .guard (by decide) (.ok _)

theorem asInt_eq_noReturn (e : StreamError) (h : Stream.asInt e = .noReturn) : e = .noReturn := by
  cases e with
  | noReturn => rfl
  | _ => cases h

theorem uint_returns (maxbits : ℕ) : Returns (s.uint maxbits) := by
  rw [Stream.uint]
  refine (kind_returns s).bind fun r _ => ?_
  obtain ⟨⟨k, size⟩, s₁⟩ := r
  cases k with
  | list => exact .error (by decide)
  | byte b =>
    exact .guard (by decide) (.ok _)
  | string =>
    refine .guard (by decide) ?_
    refine ((readUint_returns s₁ size.toNat).mapError asInt_eq_noReturn).bind fun r _ => ?_
    exact .guard (by decide) (.ok _)

theorem bool_returns : Returns s.bool := by
  rw [Stream.bool]
  refine (uint_returns s 8).bind fun r _ => ?_
  dsimp only
  split
  · exact .ok _
  split
  · exact .ok _
  · exact .error (by decide)

theorem decodeBigInt_returns : Returns s.decodeBigInt := by
  rw [Stream.decodeBigInt]
  refine (kind_returns s).bind fun r _ => ?_
  obtain ⟨⟨k, size⟩, s₁⟩ := r
  cases k with
  | list => exact .error (by decide)
  | byte b =>
    exact .guard (by decide) (.ok _)
  | string =>
    dsimp only
    split
    · exact .ok _
    refine (readFull_returns s₁ size).bind fun r _ => ?_
    refine .guard (by decide) ?_
    exact .guard (by decide) (.ok _)

theorem decodeByteArray_returns (n : ℕ) : Returns (s.decodeByteArray n) := by
  rw [Stream.decodeByteArray]
  refine (kind_returns s).bind fun r _ => ?_
  obtain ⟨⟨k, size⟩, s₁⟩ := r
  cases k with
  | list => exact .error (by decide)
  | byte b =>
    refine .guard (by decide) ?_
    exact .guard (by decide) (.ok _)
  | string =>
    refine .guard (by decide) ?_
    refine .guard (by decide) ?_
    refine (readFull_returns s₁ size).bind fun r _ => ?_
    exact .guard (by decide) (.ok _)

theorem list_returns : Returns s.list := by
  rw [list]
  refine (kind_returns s).bind fun r _ => ?_
  obtain ⟨⟨k, size⟩, s₁⟩ := r
  cases k with
  | list => exact .ok _
  | byte b => exact .error (by decide)
  | string => exact .error (by decide)

theorem listEnd_returns : Returns s.listEnd := by
  rw [listEnd]
  split
  · exact .error (by decide)
  exact .guard (by decide) (.ok _)

theorem Returns.required {r : Except StreamError (α × Stream)} (h : Returns r) :
    Returns (Stream.required r) := by
  refine h.mapError fun e he => ?_
  split at he
  · cases he
  · exact he

end

end Geth.Rlp.Decodes
