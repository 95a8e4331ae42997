import Mathlib.Data.Fintype.Vector
import Mathlib.Tactic.Linarith

namespace Geth.Lib.BigEndian

open List Nat

abbrev Bytes := List UInt8

abbrev FixedBytes (n : Nat) := List.Vector UInt8 n

/-- The lowest `len` bytes of a number, most significant byte first. -/
def beBytes : Nat → Nat → Bytes
  | 0, _ => []
  | len + 1, v => UInt8.ofNat (v / 256 ^ len) :: beBytes len v

def beNat : Bytes → Nat
  | [] => 0
  | x :: rest => x.toNat * 256 ^ rest.length + beNat rest

def bitLen (v : Nat) : Nat := if v = 0 then 0 else Nat.log2 v + 1

/-- The minimal number of bytes that hold a number; zero needs none. -/
def byteLen (v : Nat) : Nat := (bitLen v + 7) / 8

def natBytes (v : Nat) : Bytes := beBytes (byteLen v) v

@[simp] theorem beBytes_length (len v : Nat) : (beBytes len v).length = len := by
  induction len with
  | zero => rfl
  | succ len ih => rw [beBytes, length_cons, ih]

theorem beNat_beBytes (len v : Nat) : beNat (beBytes len v) = v % 256 ^ len := by
  induction len with
  | zero => simp [beBytes, beNat, mod_one]
  | succ len ih =>
    have hx : (UInt8.ofNat (v / 256 ^ len)).toNat = v / 256 ^ len % 256 := by simp
    rw [beBytes, beNat, beBytes_length, ih, hx, pow_succ, mod_mul, mul_comm]
    omega

theorem lt_pow_byteLen (v : Nat) : v < 256 ^ byteLen v := by
  by_cases hv : v = 0
  · subst v; simp
  have hlog : v < 2 ^ (log2 v + 1) := lt_log2_self
  have hexp : log2 v + 1 ≤ 8 * byteLen v := by
    simp only [byteLen, bitLen, hv, ↓reduceIte]
    omega
  calc v < 2 ^ (log2 v + 1) := hlog
    _ ≤ 2 ^ (8 * byteLen v) := Nat.pow_le_pow_right (by decide) hexp
    _ = 256 ^ byteLen v := by rw [pow_mul]; norm_num

theorem beNat_natBytes (v : Nat) : beNat (natBytes v) = v := by
  rw [natBytes, beNat_beBytes, mod_eq_of_lt (lt_pow_byteLen v)]

theorem natBytes_injective : Function.Injective natBytes := by
  intro v w h
  rw [← beNat_natBytes v, ← beNat_natBytes w, h]

theorem byteLen_le {v k : Nat} (h : v < 256 ^ k) : byteLen v ≤ k := by
  by_cases hv : v = 0
  · subst v; simp [byteLen, bitLen]
  have hlog : log2 v < 8 * k := by
    rw [log2_lt hv, pow_mul]
    exact h
  simp only [byteLen, bitLen, hv, ↓reduceIte]
  omega

theorem byteLen_pos {v : Nat} (h : v ≠ 0) : 0 < byteLen v := by
  simp only [byteLen, bitLen, h, ↓reduceIte]
  omega

theorem beNat_lt (b : Bytes) : beNat b < 256 ^ b.length := by
  induction b with
  | nil => simp [beNat]
  | cons x rest ih =>
    have hx : x.toNat * 256 ^ rest.length + 256 ^ rest.length ≤ 256 * 256 ^ rest.length := by
      rw [← succ_mul]
      exact mul_le_mul_right _ x.toNat_lt
    rw [beNat, length_cons, pow_succ, mul_comm (256 ^ rest.length)]
    omega

theorem beNat_inj {a b} (hlen : a.length = b.length) (h : beNat a = beNat b) : a = b := by
  induction a generalizing b with
  | nil => exact (eq_nil_of_length_eq_zero hlen.symm).symm
  | cons x a ih =>
    cases b with
    | nil => cases hlen
    | cons y b =>
      have hlen : a.length = b.length := succ.inj hlen
      have ha := beNat_lt a
      have hb := beNat_lt b
      have hpos : 0 < 256 ^ b.length := Nat.pow_pos (by decide)
      rw [beNat, beNat, hlen] at h
      rw [hlen] at ha
      have hx : x.toNat = y.toNat := by
        have hdiv := congrArg (· / 256 ^ b.length) h
        simp only [mul_comm _ (256 ^ b.length), mul_add_div hpos, div_eq_of_lt ha,
          div_eq_of_lt hb, add_zero] at hdiv
        exact hdiv
      rw [hx] at h
      rw [UInt8.toNat_inj.mp hx, ih hlen (add_left_cancel h)]

theorem natBytes_beNat {b} (h : b.head? ≠ some 0) : natBytes (beNat b) = b := by
  refine beNat_inj ?_ (beNat_natBytes _)
  rw [natBytes, beBytes_length]
  refine le_antisymm (byteLen_le (beNat_lt b)) ?_
  cases b with
  | nil => exact zero_le _
  | cons x b =>
    by_contra hlt
    have hx : 1 ≤ x.toNat := one_le_iff_ne_zero.mpr fun hx =>
      h (congrArg some (UInt8.toNat_inj.mp (hx.trans UInt8.toNat_zero.symm)))
    have hle : 256 ^ byteLen (beNat (x :: b)) ≤ 256 ^ b.length :=
      Nat.pow_le_pow_right (by decide) (by rw [length_cons] at hlt; omega)
    have hv := lt_pow_byteLen (beNat (x :: b))
    have hmul : 1 * 256 ^ b.length ≤ x.toNat * 256 ^ b.length := mul_le_mul_right _ hx
    have hbe : beNat (x :: b) = x.toNat * 256 ^ b.length + beNat b := rfl
    omega

/-- Bytewise copying into a zeroed array of size `n`, as Go's `copy` does:
surplus source bytes are ignored and missing ones leave zeros. -/
def copyInto (n : Nat) (src : Bytes) : FixedBytes n :=
  ⟨src.take n ++ List.replicate (n - src.length) 0, by simp; omega⟩

/-- The array that holds a number, most significant byte first. -/
def ofNat (n v : Nat) : FixedBytes n := ⟨beBytes n v, beBytes_length n v⟩

def zeros (n : Nat) : FixedBytes n := ⟨List.replicate n 0, List.length_replicate⟩

instance fintypeUInt8 : Fintype UInt8 :=
  Fintype.ofEquiv (Fin 256) ⟨UInt8.ofFin, UInt8.toFin, fun _ => rfl, fun _ => rfl⟩

theorem map_toNat_injective : Function.Injective (List.map UInt8.toNat) :=
  map_injective_iff.mpr (fun _ _ h => UInt8.toNat_inj.mp h)

/-- Arrays are compared byte by byte from the left, as `bytes.Compare` does. -/
instance (n : Nat) : LinearOrder (FixedBytes n) :=
  LinearOrder.lift' (fun a : FixedBytes n => a.toList.map UInt8.toNat)
    (map_toNat_injective.comp List.Vector.toList_injective)

end Geth.Lib.BigEndian
