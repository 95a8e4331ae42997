import Geth.Common.Basic
import Geth.Lib.Radix

namespace Geth.Trie.Encoding

open Lib.BigEndian Lib.Radix Common.Basic List Nat

/-- A hex digit of a key, or the terminator 16. -/
abbrev Nibble := Fin 17

def terminator : Nibble := 16

theorem castSucc_ne_terminator (i : Fin 16) : i.castSucc ≠ terminator := Fin.castSucc_ne_last i

theorem exists_castSucc {i} (h : i ≠ terminator) : ∃ j : Fin 16, j.castSucc = i :=
  Fin.exists_castSucc_eq.mpr h

def nibbles : Bytes → List Nibble
  | [] => []
  | x :: b => Fin.ofNat 17 (x / 16).toNat :: Fin.ofNat 17 (x % 16).toNat :: nibbles b

def keybytesToHex (str : Bytes) : List Nibble := nibbles str ++ [terminator]

def hasTerm (s : List Nibble) : Bool := s.getLast? == some terminator

def byteOf (i : Nibble) : UInt8 := UInt8.ofNat i.val

/-- Called for an even number of digits. -/
def decodeNibbles : List Nibble → Bytes
  | a :: b :: r => (byteOf a <<< 4 ||| byteOf b) :: decodeNibbles r
  | _ => []

def compactOf (flag : UInt8) : List Nibble → Bytes
  | [] => [flag <<< 5]
  | x :: hex =>
    if (x :: hex).length % 2 = 1 then (flag <<< 5 ||| 0x10 ||| byteOf x) :: decodeNibbles hex
    else flag <<< 5 :: decodeNibbles (x :: hex)

def hexToCompact (hex : List Nibble) : Bytes :=
  if hasTerm hex then compactOf 1 hex.dropLast else compactOf 0 hex

def compactToHex (compact : Bytes) : List Nibble :=
  if compact = [] then []
  else
    let base := keybytesToHex compact
    let flag := base.headD 0
    (if flag < 2 then base.dropLast else base).drop (2 - flag.val % 2)

/-- This can only be used for keys of even length. -/
def hexToKeybytes (hex : List Nibble) : Except Panic Bytes :=
  let hex := if hasTerm hex then hex.dropLast else hex
  if hex.length % 2 = 1 then .error .explicit else .ok (decodeNibbles hex)

def packInPlace (hexLen ni bi : ℕ) (hex : Bytes) : Except Panic Bytes :=
  if ni < hexLen then
    match hex[ni]?, hex[ni + 1]? with
    | some a, some b =>
      if bi < hex.length then packInPlace hexLen (ni + 2) (bi + 1) (hex.set bi (a <<< 4 ||| b))
      else .error .indexRange
    | _, _ => .error .indexRange
  else .ok hex
termination_by hexLen - ni

/-- What is done once the terminator is known: the length, and the buffer. -/
def compactInPlace (hexLen : ℕ) (firstByte : UInt8) (hex : Bytes) : Except Panic (ℕ × Bytes) :=
  match hex.head? with
  | none => .error .indexRange
  | some x => do
    let odd := hexLen % 2 = 1
    let hex ← packInPlace hexLen (if odd then 1 else 0) 1 hex
    return (hexLen / 2 + 1, hex.set 0 (if odd then firstByte ||| 0x10 ||| x else firstByte))

def hexToCompactInPlace (hex : Bytes) : Except Panic (ℕ × Bytes) :=
  if hex.getLast? = some 16 then compactInPlace (hex.length - 1) 0x20 hex
  else compactInPlace hex.length 0 hex

theorem nibbles_length (b : Bytes) : (nibbles b).length = 2 * b.length := by
  induction b with
  | nil => rfl
  | cons x b ih =>
    rw [nibbles, length_cons, length_cons, ih, length_cons]
    omega

variable {x : UInt8} {w k : List Nibble} (str : Bytes) (t : Fin 2)

theorem digit_val (h : x.toNat < 16) : (Fin.ofNat 17 x.toNat).val = x.toNat :=
  mod_eq_of_lt (by omega)

theorem high_lt (x : UInt8) : (x / 16).toNat < 16 := by
  rw [UInt8.toNat_div]
  exact Nat.div_lt_of_lt_mul (lt_of_lt_of_le x.toNat_lt (by decide))

theorem low_lt (x : UInt8) : (x % 16).toNat < 16 := by
  rw [UInt8.toNat_mod]
  exact mod_lt _ (by decide)

theorem ne_terminator_of_lt (h : x.toNat < 16) : terminator ≠ Fin.ofNat 17 x.toNat := by
  intro heq
  have hval := congrArg Fin.val heq
  rw [digit_val h] at hval
  exact absurd hval (by simp only [terminator]; omega)

theorem not_mem_nibbles (b : Bytes) : terminator ∉ nibbles b := by
  induction b with
  | nil => simp [nibbles]
  | cons x b ih =>
    rw [nibbles, mem_cons, mem_cons, not_or, not_or]
    exact ⟨ne_terminator_of_lt (high_lt x), ne_terminator_of_lt (low_lt x), ih⟩

theorem terminated_keybytesToHex : Terminated terminator (keybytesToHex str) :=
  terminated_of_not_mem (not_mem_nibbles str)

theorem keybytesToHex_length : (keybytesToHex str).length = 2 * str.length + 1 := by
  rw [keybytesToHex, length_append, nibbles_length, length_singleton]

theorem digits_inj {y} (hhigh : Fin.ofNat 17 (x / 16).toNat = Fin.ofNat 17 (y / 16).toNat)
    (hlow : Fin.ofNat 17 (x % 16).toNat = Fin.ofNat 17 (y % 16).toNat) : x = y := by
  have h1 := congrArg Fin.val hhigh
  have h2 := congrArg Fin.val hlow
  rw [digit_val (high_lt x), digit_val (high_lt y), UInt8.toNat_div, UInt8.toNat_div] at h1
  rw [digit_val (low_lt x), digit_val (low_lt y), UInt8.toNat_mod, UInt8.toNat_mod] at h2
  have hx := div_add_mod x.toNat (16 : UInt8).toNat
  have hy := div_add_mod y.toNat (16 : UInt8).toNat
  rw [h1, h2] at hx
  exact UInt8.toNat_inj.mp (hx.symm.trans hy)

theorem nibbles_injective : Function.Injective nibbles := by
  intro a b h
  induction a generalizing b with
  | nil =>
    cases b with
    | nil => rfl
    | cons y b => cases h
  | cons x a ih =>
    cases b with
    | nil => cases h
    | cons y b =>
      obtain ⟨hhigh, htail⟩ := cons.inj h
      obtain ⟨hlow, hrest⟩ := cons.inj htail
      rw [digits_inj hhigh hlow, ih hrest]

theorem keybytesToHex_injective : Function.Injective keybytesToHex := by
  intro a b h
  exact nibbles_injective (append_cancel_right h)

theorem digits_of_byte : ∀ a b : Nibble, a ≠ terminator → b ≠ terminator →
    Fin.ofNat 17 ((byteOf a <<< 4 ||| byteOf b) / 16).toNat = a ∧
      Fin.ofNat 17 ((byteOf a <<< 4 ||| byteOf b) % 16).toNat = b := by
  decide

theorem nibbles_decodeNibbles (heven : w.length % 2 = 0) (h : terminator ∉ w) :
    nibbles (decodeNibbles w) = w := by
  induction w using decodeNibbles.induct with
  | case1 a b r ih =>
    simp only [mem_cons, not_or] at h
    obtain ⟨ha, hb, hr⟩ := h
    obtain ⟨h1, h2⟩ := digits_of_byte a b (Ne.symm ha) (Ne.symm hb)
    rw [decodeNibbles, nibbles, h1, h2, ih (by simp only [length_cons] at heven; omega) hr]
  | case2 w hw =>
    match w with
    | [] => rfl
    | [x] => cases heven
    | a :: b :: r => exact (hw a b r rfl).elim

theorem decodeNibbles_length (w : List Nibble) : (decodeNibbles w).length = w.length / 2 := by
  induction w using decodeNibbles.induct with
  | case1 a b r ih =>
    rw [decodeNibbles, length_cons, ih, length_cons, length_cons]
    omega
  | case2 w hw =>
    match w with
    | [] => rfl
    | [x] => simp [decodeNibbles]
    | a :: b :: r => exact (hw a b r rfl).elim

theorem digits_of_odd_flag : ∀ (t : Fin 2) (x : Nibble), x ≠ terminator →
    Fin.ofNat 17 ((UInt8.ofNat t.val <<< 5 ||| 0x10 ||| byteOf x) / 16).toNat =
        Fin.ofNat 17 (2 * t.val + 1) ∧
      Fin.ofNat 17 ((UInt8.ofNat t.val <<< 5 ||| 0x10 ||| byteOf x) % 16).toNat = x := by
  decide

theorem digits_of_even_flag : ∀ t : Fin 2,
    Fin.ofNat 17 (UInt8.ofNat t.val <<< 5 / 16).toNat = Fin.ofNat 17 (2 * t.val) ∧
      Fin.ofNat 17 (UInt8.ofNat t.val <<< 5 % 16).toNat = 0 := by
  decide

theorem odd_flag : ∀ t : Fin 2, (Fin.ofNat 17 (2 * t.val + 1)).val % 2 = 1 ∧
    (Fin.ofNat 17 (2 * t.val + 1) < 2 ↔ t = 0) := by
  decide

theorem even_flag : ∀ t : Fin 2, (Fin.ofNat 17 (2 * t.val)).val % 2 = 0 ∧
    (Fin.ofNat 17 (2 * t.val) < 2 ↔ t = 0) := by
  decide

theorem nibbles_compactOf (h : terminator ∉ w) :
    ∃ flag rest, nibbles (compactOf (UInt8.ofNat t.val) w) = flag :: rest ∧ (flag < 2 ↔ t = 0) ∧
      (flag :: rest).drop (2 - flag.val % 2) = w := by
  cases w with
  | nil =>
    obtain ⟨h1, h2⟩ := digits_of_even_flag t
    rw [compactOf, nibbles, h1, h2]
    refine ⟨_, _, rfl, (even_flag t).2, ?_⟩
    rw [(even_flag t).1]
    rfl
  | cons x hex =>
    rw [mem_cons, not_or] at h
    rw [compactOf]
    by_cases hodd : (x :: hex).length % 2 = 1
    · obtain ⟨h1, h2⟩ := digits_of_odd_flag t x (Ne.symm h.1)
      have heven : hex.length % 2 = 0 := by
        rw [length_cons] at hodd
        omega
      rw [if_pos hodd, nibbles, h1, h2, nibbles_decodeNibbles heven h.2]
      refine ⟨_, _, rfl, (odd_flag t).2, ?_⟩
      rw [(odd_flag t).1]
      rfl
    obtain ⟨h1, h2⟩ := digits_of_even_flag t
    have heven : (x :: hex).length % 2 = 0 := by omega
    rw [if_neg hodd, nibbles, h1, h2, nibbles_decodeNibbles heven (by simpa only [mem_cons, not_or] using h)]
    refine ⟨_, _, rfl, (even_flag t).2, ?_⟩
    rw [(even_flag t).1]
    rfl

theorem compactToHex_compactOf (h : terminator ∉ w) :
    compactToHex (compactOf (UInt8.ofNat t.val) w) = if t = 0 then w else w ++ [terminator] := by
  obtain ⟨flag, rest, hn, hflag, hdrop⟩ := nibbles_compactOf t h
  have hne : compactOf (UInt8.ofNat t.val) w ≠ [] := by
    intro hnil
    rw [hnil] at hn
    cases hn
  have hle : 2 - flag.val % 2 ≤ (flag :: rest).length := by
    have hlen := nibbles_length (compactOf (UInt8.ofNat t.val) w)
    have hpos := length_pos_of_ne_nil hne
    rw [hn] at hlen
    omega
  rw [compactToHex, if_neg hne, keybytesToHex, hn]
  change (if flag < 2 then (flag :: rest ++ [terminator]).dropLast else flag :: rest ++ [terminator]).drop
    (2 - flag.val % 2) = _
  by_cases ht : t = 0
  · rw [if_pos (hflag.mpr ht), if_pos ht, dropLast_concat, hdrop]
  · rw [if_neg (mt hflag.mp ht), if_neg ht, drop_append_of_le_length hle, hdrop]

theorem hasTerm_iff : hasTerm k = true ↔ ∃ w, k = w ++ [terminator] := by
  rw [hasTerm, beq_iff_eq]
  constructor
  · intro h
    exact ⟨k.dropLast, (dropLast_append_getLast? _ h).symm⟩
  rintro ⟨w, rfl⟩
  exact getLast?_concat

theorem hasTerm_of_not_mem (h : terminator ∉ k) : hasTerm k = false := by
  rw [Bool.eq_false_iff]
  intro ht
  obtain ⟨w, rfl⟩ := hasTerm_iff.mp ht
  simp at h

theorem hasTerm_of_terminated (h : Terminated terminator k) : hasTerm k = true := by
  obtain ⟨w, _, rfl⟩ := h.split
  exact hasTerm_iff.mpr ⟨w, rfl⟩

/-- The keys of nodes: a terminator may stand at the end only. -/
def ValidKey (k : List Nibble) : Prop := terminator ∉ k ∨ Terminated terminator k

theorem compactToHex_hexToCompact (h : ValidKey k) : compactToHex (hexToCompact k) = k := by
  obtain h | h := h
  · rw [hexToCompact, hasTerm_of_not_mem h]
    exact compactToHex_compactOf 0 h
  obtain ⟨w, hw, rfl⟩ := h.split
  rw [hexToCompact, hasTerm_of_terminated h, if_pos rfl, dropLast_concat]
  exact compactToHex_compactOf 1 hw

theorem hexToCompact_inj {k'} (h : ValidKey k) (h' : ValidKey k')
    (heq : hexToCompact k = hexToCompact k') : k = k' := by
  rw [← compactToHex_hexToCompact h, heq, compactToHex_hexToCompact h']

theorem compactOf_length_le (flag : UInt8) (w : List Nibble) :
    (compactOf flag w).length ≤ w.length / 2 + 1 := by
  cases w with
  | nil => simp [compactOf]
  | cons x hex =>
    rw [compactOf]
    split
    · rw [length_cons, decodeNibbles_length, length_cons]
      omega
    · rw [length_cons, decodeNibbles_length]

theorem hexToCompact_length_le (k : List Nibble) : (hexToCompact k).length ≤ k.length / 2 + 1 := by
  rw [hexToCompact]
  split
  · have h := compactOf_length_le 1 k.dropLast
    rw [length_dropLast] at h
    omega
  · exact compactOf_length_le 0 k

/-- A byte is written before the digits that are still to be read. -/
theorem packInPlace_spec (ni bi : ℕ) (hex : Bytes) {tail} (heven : w.length % 2 = 0) (hbi : bi ≤ ni + 1)
    (hw : hex.drop ni = w.map byteOf ++ tail) :
    ∃ out, packInPlace (ni + w.length) ni bi hex = .ok out ∧
      out.take (bi + w.length / 2) = hex.take bi ++ decodeNibbles w := by
  induction w using decodeNibbles.induct generalizing ni bi hex with
  | case1 a b r ih =>
    have ha : hex[ni]? = some (byteOf a) := by
      rw [← head?_drop, hw]
      rfl
    have hb : hex[ni + 1]? = some (byteOf b) := by
      rw [← head?_drop, ← drop_drop, hw]
      rfl
    have hlt : bi < hex.length := lt_of_le_of_lt hbi (List.getElem?_eq_some_iff.mp hb).1
    obtain ⟨out, hout, htake⟩ := ih (ni + 2) (bi + 1) (hex.set bi (byteOf a <<< 4 ||| byteOf b)) (by simp only [length_cons] at heven; omega)
      (by omega) (by rw [drop_set_of_lt (by omega), ← drop_drop, hw]; rfl)
    refine ⟨out, ?_, ?_⟩
    · rw [packInPlace, if_pos (by simp), ha, hb]
      dsimp only
      rw [if_pos hlt, ← hout, length_cons, length_cons]
      congr 1
      omega
    · rw [decodeNibbles, length_cons, length_cons, show bi + (r.length + 1 + 1) / 2 = bi + 1 + r.length / 2 by omega,
        htake, take_add_one, take_set_of_le le_rfl, getElem?_set_self hlt]
      simp
  | case2 w hne =>
    match w with
    | [] =>
      refine ⟨hex, ?_, by simp [decodeNibbles]⟩
      rw [packInPlace, if_neg (by simp)]
    | [x] => cases heven
    | a :: b :: r => exact (hne a b r rfl).elim

theorem compactOf_eq {x} (flag : UInt8) (hx : ∀ y ∈ w.head?, y = x) : compactOf flag w =
    (if w.length % 2 = 1 then flag <<< 5 ||| 0x10 ||| byteOf x else flag <<< 5) ::
      decodeNibbles (w.drop (w.length % 2)) := by
  cases w with
  | nil => rfl
  | cons y hex =>
    obtain rfl : y = x := hx y rfl
    rw [compactOf]
    split
    next hodd =>
      rw [hodd]
      rfl
    next heven => rw [mod_two_ne_one.mp heven, drop_zero]

theorem compactInPlace_spec (flag : UInt8) {t} (hne : w ++ t ≠ []) :
    ∃ out, compactInPlace w.length (flag <<< 5) ((w ++ t).map byteOf) =
        .ok ((compactOf flag w).length, out) ∧
      out.take (compactOf flag w).length = compactOf flag w := by
  obtain ⟨x, hex, hhex⟩ := exists_cons_of_ne_nil hne
  have hx : ∀ y ∈ w.head?, y = x := by
    cases w with
    | nil => simp
    | cons y w => simpa using (cons.inj hhex).1
  have hlen : (w.drop (w.length % 2)).length = w.length - w.length % 2 := length_drop
  obtain ⟨out, hout, htake⟩ := packInPlace_spec (w := w.drop (w.length % 2)) (w.length % 2) 1
    ((w ++ t).map byteOf) (by omega) (by omega)
    (by rw [← map_drop, ← map_append, drop_append_of_le_length (mod_le _ _)])
  rw [compactOf_eq flag hx, length_cons, decodeNibbles_length, hlen]
  rw [hlen, add_sub_of_le (mod_le _ _), hhex, map_cons] at hout
  refine ⟨out.set 0 (if w.length % 2 = 1 then flag <<< 5 ||| 0x10 ||| byteOf x else flag <<< 5), ?_, ?_⟩
  · rw [compactInPlace, hhex, map_cons, head?_cons]
    dsimp only
    rw [show (if w.length % 2 = 1 then 1 else 0) = w.length % 2 by split <;> omega, hout,
      show w.length / 2 = (w.length - w.length % 2) / 2 by omega]
    rfl
  · rw [take_set, add_comm, ← hlen, htake, hhex]
    rfl

theorem getLast?_byteOf (h : terminator ∉ k) : (k.map byteOf).getLast? ≠ some 16 := by
  have hbyte : ∀ i : Nibble, byteOf i = 16 → i = terminator := by decide
  rw [getLast?_map]
  intro hlast
  obtain ⟨i, hi, h16⟩ := Option.map_eq_some_iff.mp hlast
  exact h (hbyte i h16 ▸ mem_of_getLast? hi)

theorem hexToCompactInPlace_eq (h : ValidKey k) (hne : k ≠ []) :
    ∃ hex, hexToCompactInPlace (k.map byteOf) = .ok ((hexToCompact k).length, hex) ∧
      hex.take (hexToCompact k).length = hexToCompact k := by
  obtain h | h := h
  · rw [hexToCompactInPlace, if_neg (getLast?_byteOf h), hexToCompact, hasTerm_of_not_mem h, length_map]
    have hspec := compactInPlace_spec (t := []) 0 (by rwa [append_nil])
    rwa [append_nil] at hspec
  · obtain ⟨w, hw, rfl⟩ := h.split
    rw [hexToCompactInPlace, if_pos, hexToCompact, hasTerm_of_terminated h, if_pos rfl, dropLast_concat,
      length_map, length_append, length_singleton, Nat.add_sub_cancel]
    · exact compactInPlace_spec 1 hne
    · rw [map_append, map_singleton, getLast?_concat]
      rfl

theorem decodeNibbles_nibbles (str : Bytes) : decodeNibbles (nibbles str) = str := by
  have heven : (nibbles str).length % 2 = 0 := by rw [nibbles_length, mul_mod_right]
  exact nibbles_injective (nibbles_decodeNibbles heven (not_mem_nibbles str))

theorem hexToKeybytes_keybytesToHex (str : Bytes) : hexToKeybytes (keybytesToHex str) = .ok str := by
  have hterm := hasTerm_of_terminated (terminated_keybytesToHex str)
  rw [hexToKeybytes, hterm, if_pos rfl, keybytesToHex, dropLast_concat, nibbles_length, mul_mod_right,
    if_neg zero_ne_one, decodeNibbles_nibbles]

theorem hexPrefix_lossless :
    (∀ k, ValidKey k → compactToHex (hexToCompact k) = k) ∧
    (∀ k, ValidKey k → k ≠ [] → ∃ hex, hexToCompactInPlace (k.map byteOf) =
        .ok ((hexToCompact k).length, hex) ∧ hex.take (hexToCompact k).length = hexToCompact k) ∧
    (∀ str, hexToKeybytes (keybytesToHex str) = .ok str) ∧
    ∀ k k', ValidKey k → ValidKey k' → hexToCompact k = hexToCompact k' → k = k' :=
  ⟨fun _ => compactToHex_hexToCompact, fun _ => hexToCompactInPlace_eq, hexToKeybytes_keybytesToHex,
    fun _ _ => hexToCompact_inj⟩

theorem hexPrefix_lossless_odd : ∃ hex, hexToCompactInPlace [1, 2, 3, 16] = .ok (2, hex) ∧
    hex.take 2 = [0x31, 0x23] :=
  hexPrefix_lossless.2.1 [1, 2, 3, terminator] (.inr (terminated_of_not_mem (w := [1, 2, 3]) (by decide))) (by decide)

end Geth.Trie.Encoding
