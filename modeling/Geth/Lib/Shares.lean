import Mathlib.Tactic.Linarith
import Mathlib.Tactic.Ring

namespace Geth.Lib.Shares

open Nat

/-- The part `p` out of `d` of an amount, rounded down. -/
def share (d p n : ℕ) : ℕ := n * p / d

/-- What rounding both parts down loses. -/
def loss (d p n : ℕ) : ℕ := if d ∣ n * p then 0 else 1

/-- Two complementary shares make up the amount but for one unit that is lost
when they are not whole. -/
theorem share_add_share {d p : ℕ} (hd : 0 < d) (hp : p ≤ d) (n : ℕ) :
    share d p n + share d (d - p) n + loss d p n = n := by
  have hsum : n * p + n * (d - p) = d * n := by
    rw [← mul_add, Nat.add_sub_cancel' hp, mul_comm]
  have hp₁ := div_add_mod (n * p) d
  have hp₂ := div_add_mod (n * (d - p)) d
  have hlt₁ := mod_lt (n * p) hd
  have hlt₂ := mod_lt (n * (d - p)) hd
  have hsplit : d * n = d * (share d p n + share d (d - p) n) + (n * p % d + n * (d - p) % d) := by
    rw [share, share, mul_add]
    omega
  -- the two remainders add up to a multiple of the whole, that is to nothing or to one unit
  obtain ⟨c, hc⟩ : d ∣ n * p % d + n * (d - p) % d :=
    (Nat.dvd_add_right (Dvd.intro _ rfl)).mp (hsplit ▸ Dvd.intro n rfl)
  have hn : n = share d p n + share d (d - p) n + c := by
    apply Nat.eq_of_mul_eq_mul_left hd
    rw [Nat.mul_add, ← hc]
    exact hsplit
  have hc2 : c < 2 := by
    apply Nat.lt_of_mul_lt_mul_left (a := d)
    omega
  have hloss : loss d p n = c := by
    rw [loss]
    split
    · rename_i hdvd
      have h0 := mod_eq_zero_of_dvd hdvd
      have hc1 : c < 1 := by
        apply Nat.lt_of_mul_lt_mul_left (a := d)
        omega
      omega
    rename_i hdvd
    have h0 : n * p % d ≠ 0 := fun h0 => hdvd (dvd_of_mod_eq_zero h0)
    have hpos : c ≠ 0 := by
      rintro rfl
      omega
    omega
  omega

end Geth.Lib.Shares
