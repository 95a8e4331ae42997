import Geth.Congress.Finalize

namespace Geth.Congress.RewardAmounts

open Common.Basic Types.TxData Types.Block Lib.Programs Core.Evm Core.TransitionDb
open SystemCalls Finalize List Int UInt64

/-- The amounts for `distributeBlockReward`, by the balance of the fee account. -/
def rewardAmounts (balance : ℤ) (txs : List Transaction) : List UInt64 :=
  scaleFees (bigUint64 balance) ((offeredFees txs).map Prod.snd)

/-- These are the amounts that the end of a block sends. -/
theorem rewardStep_amounts {ω : Type} (c : Posa ω) (header : Header) {txs : List Transaction}
    (htxs : 0 < txs.length) (w : World ω) :
    rewardStep c header txs w = (do
      let _ ← attempt SysError.isReturned (c.trySendBlockReward header ((offeredFees txs).map Prod.fst)
        (rewardAmounts (w.balance feeRecoder) txs))
      return () : Sys ω Unit) w := by
  rw [rewardStep, if_pos htxs]
  rfl

/-- The running sum that is compared with the balance, in 64 bits. -/
def totalGasSum (txs : List Transaction) : UInt64 :=
  ((offeredFees txs).map Prod.snd).foldl (fun sum gas => sum + gas) 0

def Scaled (balance : ℤ) (txs : List Transaction) : Prop := bigUint64 balance < totalGasSum txs

def exactFee (tx : Transaction) : ℤ := tx.gas.toNat * tx.gasPrice

section

theorem bigUint64_toNat_mod (n : ℕ) : (bigUint64 (n : ℤ)).toNat = n % 2 ^ 64 := by
  rw [bigUint64, natAbs_natCast, toNat_ofNat']

theorem exactFee_nonneg {tx} (h : 0 ≤ tx.gasPrice) : 0 ≤ exactFee tx :=
  mul_nonneg (natCast_nonneg _) h

theorem offeredFee_toNat {tx} (h : 0 ≤ tx.gasPrice) :
    ((tx.gas * bigUint64 tx.gasPrice).toNat : ℤ) = exactFee tx % 2 ^ 64 := by
  obtain ⟨price, hprice⟩ := eq_ofNat_of_zero_le h
  rw [exactFee, hprice, UInt64.toNat_mul, bigUint64_toNat_mod, Nat.mul_mod_mod]
  push_cast
  rfl

theorem foldl_add_toNat (gass : List UInt64) (sum : UInt64) :
    ((gass.foldl (fun sum gas => sum + gas) sum).toNat : ℤ) =
      (sum.toNat + (gass.map fun gas => (gas.toNat : ℤ)).sum) % 2 ^ 64 := by
  induction gass generalizing sum with
  | nil =>
    have hlt := sum.toNat_lt
    simp only [foldl_nil, map_nil, sum_nil, add_zero]
    omega
  | cons gas gass ih =>
    rw [foldl_cons, ih, UInt64.toNat_add, map_cons, sum_cons]
    push_cast
    rw [emod_add_emod, add_assoc]

theorem sum_emod (fees : List ℤ) (m : ℤ) : (fees.map (· % m)).sum % m = fees.sum % m := by
  induction fees with
  | nil => rfl
  | cons fee fees ih =>
    rw [map_cons, sum_cons, sum_cons, emod_add_emod, add_emod, ih, ← add_emod]

end

section

variable {txs : List Transaction}

theorem offeredFees_toNat (hprice : ∀ tx ∈ txs, 0 ≤ tx.gasPrice) :
    ((offeredFees txs).map Prod.snd).map (fun gas => (gas.toNat : ℤ)) =
      (txs.map exactFee).map (· % 2 ^ 64) := by
  rw [offeredFees, map_map, map_map, map_map]
  apply map_congr_left
  intro tx htx
  exact offeredFee_toNat (hprice tx htx)

theorem totalGasSum_toNat (hprice : ∀ tx ∈ txs, 0 ≤ tx.gasPrice) :
    ((totalGasSum txs).toNat : ℤ) = (txs.map exactFee).sum % 2 ^ 64 := by
  rw [totalGasSum, foldl_add_toNat, offeredFees_toNat hprice, ← sum_emod]
  simp

theorem map_emod_eq_iff (fees : List ℤ) (h : ∀ fee ∈ fees, 0 ≤ fee) :
    fees.map (· % 2 ^ 64) = fees ↔ ∀ fee ∈ fees, fee < 2 ^ 64 := by
  induction fees with
  | nil => simp
  | cons fee fees ih =>
    obtain ⟨hfee, hfees⟩ := forall_mem_cons.mp h
    rw [map_cons, cons.injEq, forall_mem_cons, ih hfees]
    apply and_congr_left'
    constructor <;> intro _ <;> omega

/-- Without scaling the amounts are exact and covered exactly when no fee exceeds 64 bits and
the part of the sum above 64 bits is covered by that part of the balance. -/
theorem rewardAmounts_exact_iff (txs : List Transaction) (hprice : ∀ tx ∈ txs, 0 ≤ tx.gasPrice)
    (balance : ℕ) (hscaled : ¬ Scaled balance txs) :
    ((rewardAmounts balance txs).map (fun gas => (gas.toNat : ℤ)) = txs.map exactFee ∧
        (txs.map exactFee).sum ≤ balance) ↔
      (∀ tx ∈ txs, exactFee tx < 2 ^ 64) ∧
        (txs.map exactFee).sum / 2 ^ 64 ≤ (balance : ℤ) / 2 ^ 64 := by
  have hnonneg : ∀ fee ∈ txs.map exactFee, 0 ≤ fee := by
    intro fee hfee
    obtain ⟨tx, htx, rfl⟩ := mem_map.mp hfee
    exact exactFee_nonneg (hprice tx htx)
  have hamounts : (rewardAmounts balance txs).map (fun gas => (gas.toNat : ℤ)) =
      (txs.map exactFee).map (· % 2 ^ 64) := by
    rw [← offeredFees_toNat hprice, rewardAmounts, scaleFees]
    exact congrArg _ (if_neg hscaled)
  rw [hamounts, map_emod_eq_iff _ hnonneg, forall_mem_map]
  apply and_congr_right
  intro _
  -- the low words are in order, so the high words decide
  have hlow : (txs.map exactFee).sum % 2 ^ 64 ≤ (balance : ℤ) % 2 ^ 64 := by
    rw [Scaled, lt_iff_toNat_lt, bigUint64_toNat_mod] at hscaled
    have htotal := totalGasSum_toNat hprice
    omega
  omega

def priced (gas : UInt64) (gasPrice : ℤ) : Transaction :=
  .legacy ⟨0, gasPrice, gas, none, 0, ⟨[], by decide⟩, 0, 0, 0⟩

/-- A fee of 2^64 wei becomes an amount of zero, which no balance is too small for. -/
theorem rewardAmounts_wrap :
    ¬ Scaled 1 [priced 0x100000000 0x100000000] ∧
      rewardAmounts 1 [priced 0x100000000 0x100000000] = [0] ∧
      exactFee (priced 0x100000000 0x100000000) = 0x10000000000000000 := by
  refine ⟨?_, ?_, rfl⟩
  · rw [Scaled]
    decide +kernel
  rw [rewardAmounts, scaleFees]
  dsimp only
  rw [if_neg (by decide +kernel)]
  decide +kernel

theorem rewardAmounts_exact_sample :
    let txs := [priced 21000 2, priced 50000 3]
    (rewardAmounts 200000 txs).map (fun gas => (gas.toNat : ℤ)) = [42000, 150000] ∧
      (txs.map exactFee).sum ≤ 200000 := by
  intro txs
  have hscaled : ¬ Scaled (200000 : ℕ) txs := by
    rw [Scaled]
    decide +kernel
  have hprice : ∀ tx ∈ txs, 0 ≤ tx.gasPrice := by decide
  exact (rewardAmounts_exact_iff txs hprice 200000 hscaled).mpr (by decide)

end

end Geth.Congress.RewardAmounts
