import Mathlib.Algebra.Order.BigOperators.Group.Finset
import Mathlib.Tactic.Ring
import Geth.Vm.SstoreGas

namespace Geth.Vm.SstoreMetering

open Lib.BigEndian Common.Basic State.Account State.Journal State.Revert
open State.Snapshots SstoreGas List Nat

/-- What happens in a transaction, as far as storage is concerned: writes by a
contract with some gas left, and calls, whose frames may be reverted. -/
inductive Trace where
  | done
  | sstore (contract : Address) (slot value : Hash) (gas : UInt64) (rest : Trace)
  | call (body : Trace) (reverts : Bool) (rest : Trace)

def Trace.run (R : Schedule) (C : Crypto) (B : Backend) : Trace → ℕ × StateDB → Except SstoreError (ℕ × StateDB)
  | .done, x => .ok x
  | .sstore a k v gas rest, (left, s) => do
    let (cost, _, s) ← SstoreGas.sstore R C B gas a k v s
    if left < cost.toNat then .error .outOfGas
    else rest.run R C B (left - cost.toNat, s)
  | .call body reverts rest, (left, s) => do
    let (left, s') ← body.run R C B (left, s.snapshot.2)
    let s' ← if reverts then (s'.revertToSnapshot C B s.snapshot.1).mapError .panic else .ok s'
    rest.run R C B (left, s')

def refundAdded (calls : List RefundCall) : ℤ :=
  (calls.map fun
    | .addRefund gas => (gas.toNat : ℤ)
    | .subRefund gas => -(gas.toNat : ℤ)).sum

/-- Writes to one slot: the gas charged, the refund added and the state. -/
def writeAll (R : Schedule) (C : Crypto) (B : Backend) (a : Address) (k : Hash) :
    List (Hash × UInt64) → StateDB → Except SstoreError (ℕ × ℤ × StateDB)
  | [], s => .ok (0, 0, s)
  | (v, gas) :: writes, s => do
    let (cost, calls, s) ← SstoreGas.sstore R C B gas a k v s
    let (total, refund, s) ← writeAll R C B a k writes s
    return (cost.toNat + total, refundAdded calls + refund, s)

/-- The net cost of taking a slot from one value to another, beyond the reads. -/
def amount (R : Schedule) (original value : Hash) : ℤ :=
  if value = original then 0
  else if original = zeros 32 then (R.set.toNat : ℤ) - R.read.toNat
  else if value = zeros 32 then (R.reset.toNat : ℤ) - R.read.toNat - R.clearing.toNat
  else (R.reset.toNat : ℤ) - R.read.toNat

structure Fair (R : Schedule) : Prop where
  read_le_set : R.read.toNat ≤ R.set.toNat
  read_le_reset : R.read.toNat ≤ R.reset.toNat
  reset_le_set : R.reset.toNat ≤ R.set.toNat
  clearing_le : R.clearing.toNat ≤ 6 * R.reset.toNat
  reset_le_clearing : R.reset.toNat ≤ R.clearing.toNat + R.read.toNat
  small : (R.cold.getD 0).toNat + R.set.toNat < 2 ^ 64

theorem fair_of_mem {R} (h : R ∈ schedules) : Fair R := by
  simp only [schedules, mem_cons, not_mem_nil, or_false] at h
  obtain rfl | rfl | rfl := h
  · exact ⟨by decide, by decide, by decide, by decide, by decide, by decide⟩
  · exact ⟨by decide, by decide, by decide, by decide, by decide, by decide⟩
  · exact ⟨by decide, by decide, by decide, by decide, by decide, by decide⟩

section

variable {C : Crypto} {B : Backend} {s s' : StateDB} {R : Schedule} {a : Address} {k : Hash}

theorem amount_self (R : Schedule) (o : Hash) : amount R o o = 0 := if_pos rfl

theorem toNat_sub {x y : UInt64} (h : y.toNat ≤ x.toNat) : ((x - y).toNat : ℤ) = x.toNat - y.toNat := by
  rw [UInt64.toNat_sub_of_le _ _ (UInt64.le_iff_toNat_le.mpr h)]
  omega

theorem cost_telescopes (hR : Fair R) (o c v : Hash) :
    ((sstoreCost R o c v).1.toNat : ℤ) - refundAdded (sstoreCost R o c v).2 =
      R.read.toNat + amount R o v - amount R o c := by
  have hset := toNat_sub hR.read_le_set
  have hreset := toNat_sub hR.read_le_reset
  rw [sstoreCost]
  by_cases hcv : c = v
  · subst hcv
    simp [refundAdded]
  rw [if_neg hcv]
  by_cases hoc : o = c
  · subst hoc
    rw [if_pos rfl, amount_self]
    by_cases ho : o = zeros 32
    · rw [if_pos ho, amount, if_neg (Ne.symm hcv), if_pos ho]
      simp [refundAdded]
    rw [if_neg ho, amount, if_neg (Ne.symm hcv), if_neg ho]
    by_cases hv : v = zeros 32
    · simp [refundAdded, hv]
      omega
    · simp [refundAdded, hv]
  rw [if_neg hoc, amount, amount, if_neg (Ne.symm hoc)]
  by_cases ho : o = zeros 32
  · subst ho
    by_cases hv : v = zeros 32
    · subst hv
      simp [refundAdded, hset]
    · simp [refundAdded, hv, Ne.symm hv]
  by_cases hv : v = o
  · subst hv
    by_cases hc : c = zeros 32
    · simp [refundAdded, ho, hc, hreset]
      omega
    · simp [refundAdded, ho, hc, hreset]
  by_cases hc : c = zeros 32
  · subst hc
    simp [refundAdded, ho, hv, Ne.symm hv, Ne.symm hcv]
    omega
  by_cases hvz : v = zeros 32
  · subst hvz
    simp [refundAdded, ho, hc, hv]
    omega
  · simp [refundAdded, ho, hc, hv, hvz, Ne.symm hv]

theorem coldCost_le (R : Schedule) (s : StateDB) (a : Address) (k : Hash) :
    (coldCost R s a k).toNat ≤ (R.cold.getD 0).toNat := by
  rw [coldCost]
  cases R.cold with
  | none => exact le_rfl
  | some cold =>
    dsimp only
    split
    · exact zero_le _
    · exact le_rfl

theorem charge_le (hR : Fair R) (o c v : Hash) : (sstoreCost R o c v).1.toNat ≤ R.set.toNat := by
  have hread := hR.read_le_set
  have hreset := hR.reset_le_set
  rw [sstoreCost]
  split
  · exact hread
  split
  · split
    · exact le_rfl
    · exact hreset
  · exact hread

theorem cost_toNat (hR : Fair R) (s : StateDB) (a : Address) (k o c v : Hash) :
    (coldCost R s a k + (sstoreCost R o c v).1).toNat =
      (coldCost R s a k).toNat + (sstoreCost R o c v).1.toNat := by
  have hcold := coldCost_le R s a k
  have hcharge := charge_le hR o c v
  have hsmall := hR.small
  rw [UInt64.toNat_add, mod_eq_of_lt (by omega)]

/-- Writes to one slot cost a read each, the surcharge of a cold slot once,
and an amount that depends on the first and the last value only. -/
theorem writeAll_telescopes (hC : AddressesDistinct C) (hR : Fair R) {writes}
    {total : ℕ} {refund : ℤ} (hB : Coherent C B s.trie) (hal : Placed s.accessList)
    (h : writeAll R C B a k writes s = .ok (total, refund, s')) :
    (total : ℤ) - refund = writes.length * R.read.toNat +
        (if writes = [] then 0 else (coldCost R s a k).toNat) +
        (amount R (committed C B s a k) (value C B s' a k) -
          amount R (committed C B s a k) (value C B s a k)) := by
  induction writes generalizing s total refund with
  | nil =>
    cases h
    simp
  | cons w writes ih =>
    obtain ⟨v, gas⟩ := w
    obtain ⟨⟨cost, calls, s₀⟩, h₀, h⟩ := bind_eq_ok.mp h
    obtain ⟨⟨total', refund', s₂⟩, hrest, h⟩ := bind_eq_ok.mp h
    cases h
    obtain ⟨e, _, herr⟩ | ⟨_, herr⟩ | ⟨s₁, hs₁, _, hwrote, hcold⟩ := sstore_spec hC hB hal R gas a k v
    · rw [herr] at h₀
      cases h₀
    · rw [herr] at h₀
      cases h₀
    rw [hs₁] at h₀
    cases h₀
    have hstep := cost_telescopes hR (committed C B s a k) (value C B s a k) v
    have hnext := ih (by rw [hwrote.trie]; exact hB) hwrote.placed hrest
    have hv : value C B s₀ a k = v := by rw [hwrote.value, if_pos ⟨rfl, rfl⟩]
    rw [hwrote.committed, hv, hcold] at hnext
    rw [cost_toNat hR, if_neg (cons_ne_nil _ _), length_cons]
    simp only [UInt64.toNat_zero, ite_self, cast_zero, add_zero] at hnext
    push_cast at hnext ⊢
    linarith

end

section

variable {C : Crypto} {B : Backend} {s s' : StateDB} {R : Schedule} {r : UInt64} {f : Hash → Hash → ℕ}
    {limit : ℕ}

/-- The part of the refund counter that may still be taken back for a slot. -/
def owed (R : Schedule) (original current : Hash) : ℕ :=
  if original ≠ zeros 32 ∧ current = zeros 32 then R.clearing.toNat else 0

/-- The refund that a slot may still earn for what was paid. -/
def pending (R : Schedule) (original current : Hash) : ℕ :=
  if current = original then 0
  else if original = zeros 32 then R.set.toNat - R.read.toNat
  else if current = zeros 32 then 0
  else R.clearing.toNat

theorem owed_self (R : Schedule) (o : Hash) : owed R o o = 0 := by
  rw [owed, if_neg]
  rintro ⟨hne, heq⟩
  exact hne heq

theorem owed_of_zero (R : Schedule) (c : Hash) : owed R (zeros 32) c = 0 := if_neg fun h => h.1 rfl

variable {c o : Hash} {spent left : ℕ}

theorem owed_of_ne (R : Schedule) (o : Hash) (h : c ≠ zeros 32) : owed R o c = 0 :=
  if_neg fun h' => h h'.2

theorem owed_cleared (R : Schedule) (h : o ≠ zeros 32) : owed R o (zeros 32) = R.clearing.toNat :=
  if_pos ⟨h, rfl⟩

theorem pending_self (R : Schedule) (o : Hash) : pending R o o = 0 := if_pos rfl

theorem pending_created (R : Schedule) (h : c ≠ zeros 32) :
    pending R (zeros 32) c = R.set.toNat - R.read.toNat := by
  rw [pending, if_neg h, if_pos rfl]

theorem pending_cleared (R : Schedule) (h : o ≠ zeros 32) : pending R o (zeros 32) = 0 := by
  rw [pending, if_neg (Ne.symm h), if_neg h, if_pos rfl]

theorem pending_changed (R : Schedule) (ho : o ≠ zeros 32) (hc : c ≠ zeros 32) (h : c ≠ o) :
    pending R o c = R.clearing.toNat := by
  rw [pending, if_neg h, if_neg ho, if_neg hc]

theorem refundAfter_add (r gas : UInt64) (h : r.toNat + gas.toNat < 2 ^ 64) :
    ∃ r', refundAfter r [.addRefund gas] = some r' ∧ r'.toNat = r.toNat + gas.toNat :=
  ⟨r + gas, rfl, by rw [UInt64.toNat_add, mod_eq_of_lt h]⟩

theorem refundAfter_sub (r gas : UInt64) (h : gas.toNat ≤ r.toNat) (calls : List RefundCall) :
    ∃ r', refundAfter r (.subRefund gas :: calls) = refundAfter r' calls ∧ r'.toNat = r.toNat - gas.toNat := by
  refine ⟨r - gas, if_neg ?_, UInt64.toNat_sub_of_le _ _ (UInt64.le_iff_toNat_le.mpr h)⟩
  rw [UInt64.lt_iff_toNat_lt]
  omega

theorem refundAfter_adds (calls : List RefundCall) (h : ∀ c ∈ calls, ∃ gas, c = .addRefund gas) (r : UInt64) :
    ∃ r', refundAfter r calls = some r' := by
  induction calls generalizing r with
  | nil => exact ⟨r, rfl⟩
  | cons c calls ih =>
    obtain ⟨gas, rfl⟩ := h c mem_cons_self
    exact ih (fun c' hc' => h c' (mem_cons_of_mem _ hc')) (r + gas)

theorem sstoreCost_calls (R : Schedule) (o c v : Hash) :
    ∃ adds : List RefundCall, (∀ call ∈ adds, ∃ gas, call = .addRefund gas) ∧
      ((sstoreCost R o c v).2 = adds ∨
        o ≠ zeros 32 ∧ c = zeros 32 ∧ (sstoreCost R o c v).2 = .subRefund R.clearing :: adds) := by
  rw [sstoreCost]
  by_cases hcv : c = v
  · exact ⟨[], by simp, .inl (by rw [if_pos hcv])⟩
  rw [if_neg hcv]
  by_cases hoc : o = c
  · rw [if_pos hoc]
    refine ⟨_, ?_, .inl rfl⟩
    split_ifs <;> simp
  rw [if_neg hoc]
  by_cases hclear : o ≠ zeros 32 ∧ c = zeros 32
  · rw [if_pos hclear.1, if_pos hclear.2]
    refine ⟨_, ?_, .inr ⟨hclear.1, hclear.2, rfl⟩⟩
    split_ifs <;> simp
  refine ⟨_, ?_, .inl rfl⟩
  split_ifs <;> simp_all

theorem refund_no_panic (o c v : Hash) (hlow : owed R o c ≤ r.toNat) :
    ∃ r', refundAfter r (sstoreCost R o c v).2 = some r' := by
  obtain ⟨adds, hadds, hcalls | ⟨ho, hc, hcalls⟩⟩ := sstoreCost_calls R o c v
  · rw [hcalls]
    exact refundAfter_adds adds hadds r
  rw [hcalls]
  rw [hc, owed_cleared R ho] at hlow
  obtain ⟨r₁, hr₁, _⟩ := refundAfter_sub r R.clearing hlow adds
  rw [hr₁]
  exact refundAfter_adds adds hadds r₁

theorem refund_step (hR : Fair R) {lows highs : ℕ} (o c v : Hash)
    (hlow : owed R o c + lows ≤ r.toNat) (hhigh : r.toNat + pending R o c + highs ≤ 6 * spent)
    (hfit : 6 * (spent + (sstoreCost R o c v).1.toNat) < 2 ^ 64) :
    ∃ r', refundAfter r (sstoreCost R o c v).2 = some r' ∧ owed R o v + lows ≤ r'.toNat ∧
      r'.toNat + pending R o v + highs ≤ 6 * (spent + (sstoreCost R o c v).1.toNat) := by
  have hset : (R.set - R.read).toNat = R.set.toNat - R.read.toNat :=
    UInt64.toNat_sub_of_le _ _ (UInt64.le_iff_toNat_le.mpr hR.read_le_set)
  have hreset : (R.reset - R.read).toNat = R.reset.toNat - R.read.toNat :=
    UInt64.toNat_sub_of_le _ _ (UInt64.le_iff_toNat_le.mpr hR.read_le_reset)
  have h₁ := hR.read_le_set
  have h₂ := hR.read_le_reset
  have h₃ := hR.clearing_le
  have h₄ := hR.reset_le_clearing
  rw [sstoreCost] at hfit ⊢
  by_cases hcv : c = v
  · subst hcv
    rw [if_pos rfl] at hfit ⊢
    exact ⟨r, rfl, hlow, by omega⟩
  have hvc : v ≠ c := Ne.symm hcv
  rw [if_neg hcv] at hfit ⊢
  by_cases hoc : o = c
  · subst hoc
    rw [owed_self] at hlow
    rw [pending_self] at hhigh
    rw [if_pos rfl] at hfit ⊢
    by_cases ho : o = zeros 32
    · -- a slot is created
      subst ho
      rw [if_pos rfl] at hfit ⊢
      dsimp only at hfit ⊢
      rw [owed_of_zero, pending_created R hvc]
      exact ⟨r, rfl, hlow, by omega⟩
    rw [if_neg ho] at hfit ⊢
    dsimp only at hfit ⊢
    by_cases hv : v = zeros 32
    · -- a slot is cleared
      subst hv
      rw [if_pos rfl, owed_cleared R ho, pending_cleared R ho]
      obtain ⟨r', hr', hnat⟩ := refundAfter_add r R.clearing (by omega)
      exact ⟨r', hr', by omega, by omega⟩
    rw [if_neg hv, owed_of_ne R o hv, pending_changed R ho hv hvc]
    exact ⟨r, rfl, hlow, by omega⟩
  have hco : c ≠ o := Ne.symm hoc
  rw [if_neg hoc] at hfit ⊢
  by_cases ho : o = zeros 32
  · subst ho
    rw [owed_of_zero] at hlow
    rw [pending_created R hco] at hhigh
    rw [if_neg (not_not.mpr rfl), nil_append, owed_of_zero]
    by_cases hv : v = zeros 32
    · -- a slot that was not there is reset
      subst hv
      rw [if_pos rfl, if_pos rfl, pending_self]
      obtain ⟨r', hr', hnat⟩ := refundAfter_add r (R.set - R.read) (by omega)
      exact ⟨r', hr', by omega, by omega⟩
    rw [if_neg (Ne.symm hv), pending_created R hv]
    exact ⟨r, rfl, by omega, by omega⟩
  rw [if_pos ho]
  by_cases hc : c = zeros 32
  · -- a cleared slot is written again
    subst hc
    rw [owed_cleared R ho] at hlow
    rw [pending_cleared R ho] at hhigh
    rw [if_pos rfl, owed_of_ne R o hvc, singleton_append]
    by_cases hv : o = v
    · subst hv
      rw [if_pos rfl, if_neg ho, pending_self]
      obtain ⟨r₁, hr₁, hnat₁⟩ := refundAfter_sub r R.clearing (by omega) [.addRefund (R.reset - R.read)]
      obtain ⟨r', hr', hnat⟩ := refundAfter_add r₁ (R.reset - R.read) (by omega)
      exact ⟨r', hr₁.trans hr', by omega, by omega⟩
    obtain ⟨r₁, hr₁, hnat₁⟩ := refundAfter_sub r R.clearing (by omega) []
    rw [if_neg hv, pending_changed R ho hvc (Ne.symm hv)]
    exact ⟨r₁, hr₁, by omega, by omega⟩
  rw [owed_of_ne R o hc] at hlow
  rw [pending_changed R ho hc hco] at hhigh
  rw [if_neg hc]
  by_cases hv : v = zeros 32
  · -- a changed slot is cleared
    subst hv
    rw [if_pos rfl, if_neg ho, append_nil, owed_cleared R ho, pending_cleared R ho]
    obtain ⟨r', hr', hnat⟩ := refundAfter_add r R.clearing (by omega)
    exact ⟨r', hr', by omega, by omega⟩
  rw [if_neg hv, nil_append, owed_of_ne R o hv]
  by_cases hov : o = v
  · subst hov
    rw [if_pos rfl, if_neg ho, pending_self]
    obtain ⟨r', hr', hnat⟩ := refundAfter_add r (R.reset - R.read) (by omega)
    exact ⟨r', hr', by omega, by omega⟩
  rw [if_neg hov, pending_changed R ho hv (Ne.symm hov)]
  exact ⟨r, rfl, by omega, by omega⟩

/-- The refund counter covers what may be taken back for the slots that were
written, and it stays within six times the gas spent. -/
def Covered (R : Schedule) (C : Crypto) (B : Backend) (spent : ℕ) (s : StateDB) : Prop :=
  ∃ slots : Finset (Address × Hash),
    (∀ p, p ∉ slots → value C B s p.1 p.2 = committed C B s p.1 p.2) ∧
    (∑ p ∈ slots, owed R (committed C B s p.1 p.2) (value C B s p.1 p.2)) ≤ s.refund.toNat ∧
    s.refund.toNat + (∑ p ∈ slots, pending R (committed C B s p.1 p.2) (value C B s p.1 p.2)) ≤ 6 * spent

theorem Covered.congr {spent' : ℕ} (h : Covered R C B spent s) (hslots : SameSlots C B s' s)
    (hrefund : s'.refund = s.refund) (hspent : spent ≤ spent') : Covered R C B spent' s' := by
  obtain ⟨slots, hclean, hlow, hhigh⟩ := h
  refine ⟨slots, fun p hp => ?_, ?_, ?_⟩
  · rw [hslots.value, hslots.committed]
    exact hclean p hp
  · simpa only [hslots.value, hslots.committed, hrefund] using hlow
  simp only [hslots.value, hslots.committed, hrefund]
  omega

theorem sum_with_slot (hself : ∀ o, f o o = 0) {slots}
    (hclean : ∀ p, p ∉ slots → value C B s p.1 p.2 = committed C B s p.1 p.2) (p : Address × Hash) :
    (∑ q ∈ slots, f (committed C B s q.1 q.2) (value C B s q.1 q.2)) =
      f (committed C B s p.1 p.2) (value C B s p.1 p.2) +
        ∑ q ∈ slots.erase p, f (committed C B s q.1 q.2) (value C B s q.1 q.2) := by
  by_cases hp : p ∈ slots
  · exact (Finset.add_sum_erase slots _ hp).symm
  · rw [Finset.erase_eq_of_notMem hp, hclean p hp, hself, zero_add]

theorem sum_after_write {a} {k v : Hash} (hw : Wrote C B a k v s s') (slots : Finset (Address × Hash)) :
    (∑ q ∈ insert (a, k) slots, f (committed C B s' q.1 q.2) (value C B s' q.1 q.2)) =
      f (committed C B s a k) v +
        ∑ q ∈ slots.erase (a, k), f (committed C B s q.1 q.2) (value C B s q.1 q.2) := by
  rw [← Finset.add_sum_erase _ _ (Finset.mem_insert_self (a, k) slots), Finset.erase_insert_eq_erase]
  congr 1
  · rw [hw.value, if_pos ⟨rfl, rfl⟩, hw.committed]
  refine Finset.sum_congr rfl fun q hq => ?_
  rw [hw.committed, hw.value, if_neg]
  rintro ⟨ha, hk⟩
  exact (Finset.mem_erase.mp hq).1 (Prod.ext ha hk)

theorem Covered.owed_le (h : Covered R C B spent s) (a : Address) (k : Hash) :
    owed R (committed C B s a k) (value C B s a k) ≤ s.refund.toNat := by
  obtain ⟨slots, hclean, hlow, _⟩ := h
  rw [sum_with_slot (owed_self R) hclean (a, k)] at hlow
  exact le_trans (le_add_right _ _) hlow

/-- A write keeps the counter covered if it does so for its own slot, whatever the others are owed. -/
theorem covered_write {cost : ℕ} {a} {k v : Hash} (h : Covered R C B spent s) (hw : Wrote C B a k v s s')
    (hstep : ∀ lows highs, owed R (committed C B s a k) (value C B s a k) + lows ≤ s.refund.toNat →
      s.refund.toNat + pending R (committed C B s a k) (value C B s a k) + highs ≤ 6 * spent →
      owed R (committed C B s a k) v + lows ≤ s'.refund.toNat ∧
        s'.refund.toNat + pending R (committed C B s a k) v + highs ≤ 6 * (spent + cost)) :
    Covered R C B (spent + cost) s' := by
  obtain ⟨slots, hclean, hlow, hhigh⟩ := h
  rw [sum_with_slot (owed_self R) hclean (a, k)] at hlow
  rw [sum_with_slot (pending_self R) hclean (a, k), ← add_assoc] at hhigh
  obtain ⟨hlow', hhigh'⟩ := hstep _ _ hlow hhigh
  refine ⟨insert (a, k) slots, fun p hp => ?_, ?_, ?_⟩
  · rw [Finset.mem_insert, not_or] at hp
    rw [hw.value, hw.committed, if_neg]
    · exact hclean p hp.2
    rintro ⟨ha, hk⟩
    exact hp.1 (Prod.ext ha hk)
  · rw [sum_after_write hw]
    exact hlow'
  rw [sum_after_write hw]
  omega

theorem covered_sstore (hC : AddressesDistinct C) (hR : Fair R) (hB : Coherent C B s.trie)
    (hal : Placed s.accessList) (h : Covered R C B spent s) (hfit : 6 * (spent + left) < 2 ^ 64)
    (gas : UInt64) (a : Address) (k v : Hash) :
    (∃ e, (∀ p, e ≠ .panic p) ∧ SstoreGas.sstore R C B gas a k v s = .error e) ∨
      ∃ cost calls s', SstoreGas.sstore R C B gas a k v s = .ok (cost, calls, s') ∧ Wrote C B a k v s s' ∧
        (cost.toNat ≤ left → Covered R C B (spent + cost.toNat) s') := by
  obtain ⟨e, he, herr⟩ | ⟨hnone, _⟩ | ⟨s', hs', hrefund, hwrote, _⟩ := sstore_spec hC hB hal R gas a k v
  · exact .inl ⟨e, he.ne_panic, herr⟩
  · obtain ⟨r', hr'⟩ := refund_no_panic (committed C B s a k) (value C B s a k) v (h.owed_le a k)
    rw [hnone] at hr'
    cases hr'
  refine .inr ⟨_, _, s', hs', hwrote, fun hleft => covered_write h hwrote fun lows highs hlow hhigh => ?_⟩
  rw [cost_toNat hR] at hleft ⊢
  obtain ⟨r', hr', hlow', hhigh'⟩ := refund_step hR _ _ v hlow hhigh (by omega)
  rw [hrefund] at hr'
  cases hr'
  exact ⟨hlow', by omega⟩

/-- A transaction that has spent `limit - left` of its gas. -/
structure Running (R : Schedule) (C : Crypto) (B : Backend) (limit left : ℕ) (s : StateDB) : Prop where
  left_le : left ≤ limit
  coherent : Coherent C B s.trie
  placed : Placed s.accessList
  covered : Covered R C B (limit - left) s

theorem Running.congr {left' : ℕ} (h : Running R C B limit left s) (hsame : Same C B s' s)
    (hle : left' ≤ left) : Running R C B limit left' s' := by
  have hslots := sameSlots_of_same hsame
  refine ⟨hle.trans h.left_le, ?_, ?_, h.covered.congr hslots hsame.refund (by omega)⟩
  · rw [hslots.trie]
    exact h.coherent
  rw [hsame.accessList]
  exact h.placed

/-- A run stays covered and does not panic, and leads back to any snapshot
that was taken before it. -/
theorem run_spec (hC : AddressesDistinct C) (hR : Fair R) (hlimit : 6 * limit < 2 ^ 64)
    (trace : Trace) {s} (h : Running R C B limit left s) :
    (∃ e, (∀ p, e ≠ .panic p) ∧ trace.run R C B (left, s) = .error e) ∨
      ∃ left' s', trace.run R C B (left, s) = .ok (left', s') ∧ left' ≤ left ∧ Running R C B limit left' s' ∧
        ∀ s₀, After C B s₀ s → After C B s₀ s' := by
  induction trace generalizing left s with
  | done => exact .inr ⟨left, s, rfl, le_refl _, h, fun _ h => h⟩
  | sstore a k v gas rest ih =>
    have hle := h.left_le
    rw [Trace.run]
    obtain ⟨e, he, herr⟩ | ⟨cost, calls, s₁, hs₁, hwrote, hcov⟩ :=
      covered_sstore hC hR h.coherent h.placed h.covered
        (show 6 * (limit - left + left) < 2 ^ 64 by omega) gas a k v
    · rw [herr]
      exact .inl ⟨e, he, rfl⟩
    rw [hs₁]
    simp only [bind, Except.bind]
    by_cases hcost : left < cost.toNat
    · exact .inl ⟨.outOfGas, fun p h => (by cases h), if_pos hcost⟩
    rw [if_neg hcost]
    have hspent : limit - left + cost.toNat = limit - (left - cost.toNat) := by omega
    have hnext : Running R C B limit (left - cost.toNat) s₁ := by
      refine ⟨by omega, by rw [hwrote.trie]; exact h.coherent, hwrote.placed, ?_⟩
      rw [← hspent]
      exact hcov (by omega)
    obtain herr | ⟨left', s', hs', hleft, hrun, hafter⟩ := ih hnext
    · exact .inl herr
    exact .inr ⟨left', s', hs', by omega, hrun, fun s₀ h₀ => hafter s₀ (h₀.reversible hC hwrote.reversible)⟩
  | call body reverts rest ihbody ihrest =>
    rw [Trace.run]
    have hsnap : Same C B s.snapshot.2 s := Same.of_lookup (fun _ => rfl) rfl rfl rfl rfl rfl rfl rfl
    obtain ⟨e, he, herr⟩ | ⟨left₁, s₁, hs₁, hle₁, hrun₁, hafter₁⟩ := ihbody (h.congr hsnap (le_refl _))
    · rw [herr]
      exact .inl ⟨e, he, rfl⟩
    rw [hs₁]
    simp only [bind, Except.bind]
    have hself := hafter₁ s (After.start s)
    cases reverts with
    | false =>
      obtain herr | ⟨left', s', hs', hleft, hrun, hafter⟩ := ihrest hrun₁
      · exact .inl herr
      exact .inr ⟨left', s', hs', hleft.trans hle₁, hrun,
        fun s₀ h₀ => hafter s₀ (hafter₁ s₀ (h₀.snapshot hC))⟩
    | true =>
      obtain ⟨s₂, hs₂, hsame⟩ := hself.revert_self hC
      have hrevert : s₁.revertToSnapshot C B s.snapshot.1 = .ok s₂ := hs₂
      rw [hrevert]
      obtain herr | ⟨left', s', hs', hleft, hrun, hafter⟩ := ihrest (h.congr hsame hle₁)
      · exact .inl herr
      refine .inr ⟨left', s', hs', hleft.trans hle₁, hrun, fun s₀ h₀ => hafter s₀ ?_⟩
      exact (hafter₁ s₀ (h₀.snapshot hC)).revert_nested hC h₀.next_lt hrevert

end

section

variable {C : Crypto} {B : Backend} {s : StateDB} {a : Address} {left n : ℕ}

def clearSlots (a : Address) (slots : List Hash) (rest : Trace) : Trace :=
  slots.foldr (fun k t => .sstore a k (zeros 32) 1000000 t) rest

theorem not_refused (s : StateDB) (a : Address) (k o c v : Hash) (e : SstoreError) :
    ¬Refused eip2200 (s.accessList.containsAddress a) 1000000 (coldCost eip2200 s a k + (sstoreCost eip2200 o c v).1) e := by
  have hfair := fair_of_mem mem_cons_self
  intro h
  cases h with
  | sentry h => exact absurd h (by decide)
  | addressNotPresent _ h => exact h rfl
  | outOfGas h =>
    have hset : eip2200.set.toNat = 20000 := rfl
    have hcold := coldCost_le eip2200 s a k
    have hcharge := charge_le hfair o c v
    rw [UInt64.lt_iff_toNat_lt, cost_toNat hfair, show (1000000 : UInt64).toNat = 1000000 from rfl] at h
    rw [show (eip2200.cold.getD 0).toNat = 0 from rfl] at hcold
    omega

theorem run_sstore {R} {s'} {k v : Hash} {gas cost} {calls} (h : SstoreGas.sstore R C B gas a k v s = .ok (cost, calls, s')) (hleft : cost.toNat ≤ left)
    (rest : Trace) :
    (Trace.sstore a k v gas rest).run R C B (left, s) = rest.run R C B (left - cost.toNat, s') := by
  rw [Trace.run, h]
  exact if_neg (not_lt.mpr hleft)

/-- Slots that were not zero before are cleared for 5000 gas each, and 15000
are added to the counter, which wraps around. -/
theorem run_clearSlots (hC : AddressesDistinct C) {slots} (hnodup : slots.Nodup)
    (hleft : 5000 * slots.length ≤ left) (hB : Coherent C B s.trie) (hal : Placed s.accessList)
    (hclean : ∀ k ∈ slots, value C B s a k = committed C B s a k)
    (hne : ∀ k, committed C B s a k ≠ zeros 32) (rest : Trace) :
    ∃ s', (clearSlots a slots rest).run eip2200 C B (left, s) =
        rest.run eip2200 C B (left - 5000 * slots.length, s') ∧
      s'.refund.toNat = (s.refund.toNat + 15000 * slots.length) % 2 ^ 64 ∧
      Coherent C B s'.trie ∧ Placed s'.accessList ∧
      (∀ k, committed C B s' a k = committed C B s a k) ∧
      ∀ k, value C B s' a k = if k ∈ slots then zeros 32 else value C B s a k := by
  induction slots generalizing s left with
  | nil =>
    refine ⟨s, rfl, ?_, hB, hal, fun _ => rfl, fun k => (if_neg not_mem_nil).symm⟩
    exact (mod_eq_of_lt s.refund.toNat_lt).symm
  | cons k slots ih =>
    rw [length_cons] at hleft ⊢
    have hk := hclean k mem_cons_self
    have hcost : sstoreCost eip2200 (committed C B s a k) (value C B s a k) (zeros 32) =
        (5000, [.addRefund 15000]) := by
      rw [sstoreCost, if_neg (by rw [hk]; exact hne k), if_pos hk.symm, if_neg (hne k), if_pos rfl]
      rfl
    obtain ⟨e, he, _⟩ | ⟨hnone, _⟩ | ⟨s₁, hs₁, hrefund, hwrote, _⟩ :=
      sstore_spec hC hB hal eip2200 1000000 a k (zeros 32)
    · exact absurd he (not_refused s a k _ _ _ e)
    · rw [hcost] at hnone
      cases hnone
    rw [hcost] at hs₁ hrefund
    have hcharge : (coldCost eip2200 s a k + (5000 : UInt64)).toNat = 5000 := by
      rw [show coldCost eip2200 s a k = 0 from rfl]
      decide
    have hvalue (k' : Hash) : value C B s₁ a k' = if k' = k then zeros 32 else value C B s a k' := by
      rw [hwrote.value]
      simp only [true_and]
    obtain ⟨s', hs', hr, hB', hal', hcommitted, hval⟩ := ih
      (nodup_cons.mp hnodup).2 (show 5000 * slots.length ≤ left - 5000 by omega) (by rw [hwrote.trie]; exact hB) hwrote.placed
      (fun k' hk' => by
        rw [hvalue, hwrote.committed, if_neg]
        · exact hclean k' (mem_cons_of_mem _ hk')
        rintro rfl
        exact (nodup_cons.mp hnodup).1 hk')
      (fun k' => by rw [hwrote.committed]; exact hne k')
    refine ⟨s', ?_, ?_, hB', hal', fun k' => by rw [hcommitted, hwrote.committed], fun k' => ?_⟩
    · have hstep : (clearSlots a (k :: slots) rest).run eip2200 C B (left, s) =
          (clearSlots a slots rest).run eip2200 C B (left - 5000, s₁) := by
        rw [← hcharge]
        exact run_sstore hs₁ (by rw [hcharge]; omega) _
      rw [hstep, hs', show left - 5000 - 5000 * slots.length = left - 5000 * (slots.length + 1) by omega]
    · have hr₁ : s₁.refund = s.refund + 15000 := (Option.some.inj hrefund).symm
      rw [hr, hr₁, UInt64.toNat_add, show (15000 : UInt64).toNat = 15000 from rfl, mod_add_mod,
        mul_succ, add_assoc, add_comm 15000]
    rw [hval, hvalue]
    by_cases hk' : k' = k
    · rw [hk', if_pos rfl, ite_self, if_pos mem_cons_self]
    rw [if_neg hk']
    simp only [mem_cons, hk', false_or]

def firstSlots (n : ℕ) : List Hash := (List.range n).map hexToHash

theorem firstSlots_nodup (hn : n ≤ 2 ^ 64) : (firstSlots n).Nodup := by
  refine List.Nodup.map_on (fun i hi j hj h => ?_) nodup_range
  have hi := mem_range.mp hi
  have hj := mem_range.mp hj
  have hnat := congrArg (fun x : Hash => beNat x.toList) h
  simp only [hexToHash, ofNat, List.Vector.toList_mk, beNat_beBytes] at hnat
  rwa [mod_eq_of_lt (by omega), mod_eq_of_lt (by omega)] at hnat

/-- So many slots are cleared that the counter wraps around, and then one of
them is written again. -/
theorem run_overflow (hC : AddressesDistinct C) (hn : n ≤ 2 ^ 64) (hpos : 0 < n)
    (hwrap : 15000 * n % 2 ^ 64 < 15000) (hleft : 5000 * n ≤ left) (hB : Coherent C B s.trie)
    (hal : Placed s.accessList) (hrefund : s.refund = 0)
    (hclean : ∀ k, value C B s a k = committed C B s a k) (hne : ∀ k, committed C B s a k ≠ zeros 32) :
    (clearSlots a (firstSlots n) (.sstore a (hexToHash 0) (hexToHash 7) 1000000 .done)).run eip2200 C B
      (left, s) = .error (.panic .explicit) := by
  have hlength : (firstSlots n).length = n := by rw [firstSlots, length_map, length_range]
  obtain ⟨s', hs', hr, hB', hal', hcommitted, hval⟩ := run_clearSlots hC (firstSlots_nodup hn)
    (show 5000 * (firstSlots n).length ≤ left by rw [hlength]; exact hleft) hB hal (fun k _ => hclean k) hne
    (.sstore a (hexToHash 0) (hexToHash 7) 1000000 .done)
  rw [hs', Trace.run]
  have hmem : hexToHash 0 ∈ firstSlots n := mem_map_of_mem (mem_range.mpr hpos)
  have hzero : value C B s' a (hexToHash 0) = zeros 32 := by rw [hval, if_pos hmem]
  have ho : committed C B s' a (hexToHash 0) ≠ zeros 32 := by rw [hcommitted]; exact hne _
  have hcalls : refundAfter s'.refund (sstoreCost eip2200 (committed C B s' a (hexToHash 0))
      (value C B s' a (hexToHash 0)) (hexToHash 7)).2 = none := by
    rw [hzero, sstoreCost, if_neg (by decide), if_neg ho, if_pos ho, if_pos rfl]
    refine if_pos ?_
    rw [UInt64.lt_iff_toNat_lt, hr, hrefund, hlength, UInt64.toNat_zero, zero_add]
    exact hwrap
  obtain ⟨e, he, _⟩ | ⟨_, herr⟩ | ⟨s₁, _, hsome, _⟩ :=
    sstore_spec hC hB' hal' eip2200 1000000 a (hexToHash 0) (hexToHash 7)
  · exact absurd he (not_refused s' a _ _ _ _ e)
  · rw [herr]
    rfl
  rw [hcalls] at hsome
  cases hsome

def onesBackend : Backend where
  snap := none
  openStorageTrie _ root := if root = emptyRoot then some emptyTrie else some fun _ => some [1]
  openEmpty _ := if_pos rfl
  contractCode _ _ := none

/-- Every address has an account, with a storage. -/
def crowded : StateDB := StateDB.new fun _ => some (some ⟨0, 1, hexToHash 1, zeros 32⟩)

theorem coherent_of_none (hB : B.snap = none) (trie : AccountTrie) : Coherent C B trie := by
  intro snap hsnap
  rw [hB] at hsnap
  cases hsnap

theorem crowded_slots (a : Address) (k : Hash) : value alignedHashes onesBackend crowded a k = hexToHash 1 ∧
      committed alignedHashes onesBackend crowded a k = hexToHash 1 := by
  constructor
  · rfl
  · rfl

end

/-- A transaction of less than `2 ^ 63` gas that makes the refund counter wrap. -/
theorem subRefund_panics : ∃ (gasLimit : ℕ) (trace : Trace),
    gasLimit < 2 ^ 63 ∧ crowded.refund = 0 ∧
      (∀ a k, value alignedHashes onesBackend crowded a k = committed alignedHashes onesBackend crowded a k) ∧
      trace.run eip2200 alignedHashes onesBackend (gasLimit, crowded) = .error (.panic .explicit) := by
  refine ⟨5000 * 1229782938247304, _, by norm_num, rfl, fun a k => ?_, run_overflow (a := addressOne)
    alignedHashes_distinct (by norm_num) (by norm_num) (by norm_num) le_rfl
    (coherent_of_none rfl _) placed_new rfl (fun k => ?_) (fun k => ?_)⟩
  · rw [(crowded_slots a k).1, (crowded_slots a k).2]
  · rw [(crowded_slots _ k).1, (crowded_slots _ k).2]
  rw [(crowded_slots _ k).2]
  decide

/-- No `SubRefund` panics in a transaction whose gas is below `2 ^ 64 / 6`, and
the writes of one slot telescope. -/
theorem sstore_metering {C : Crypto} {B : Backend} {R : Schedule} {s : StateDB} (hR : R ∈ schedules)
    (hC : AddressesDistinct C) (hB : Coherent C B s.trie) (hal : Placed s.accessList) :
    (s.refund = 0 → (∀ a k, value C B s a k = committed C B s a k) →
      ∀ (gasLimit : ℕ) (trace : Trace), 6 * gasLimit < 2 ^ 64 →
        ∀ p, trace.run R C B (gasLimit, s) ≠ .error (.panic p)) ∧
    (∀ a k writes total refund s', value C B s a k = committed C B s a k →
      writeAll R C B a k writes s = .ok (total, refund, s') →
        (total : ℤ) - refund = writes.length * R.read.toNat +
          (if writes = [] then 0 else (coldCost R s a k).toNat) +
          amount R (committed C B s a k) (value C B s' a k)) ∧
    ∀ o, amount R o o = 0 := by
  have hfair := fair_of_mem hR
  refine ⟨fun hrefund hclean gasLimit trace hlimit p hp => ?_, fun a k writes total refund s' hv h => ?_,
    amount_self R⟩
  · have hstart : Running R C B gasLimit gasLimit s := by
      refine ⟨le_refl _, hB, hal, ∅, fun q _ => hclean q.1 q.2, ?_, ?_⟩
      · exact zero_le _
      rw [hrefund]
      exact zero_le _
    obtain ⟨e, he, herr⟩ | ⟨left, s', hs', _⟩ := run_spec hC hfair hlimit trace hstart
    · rw [herr] at hp
      cases hp
      exact he p rfl
    rw [hs'] at hp
    cases hp
  have htotal := writeAll_telescopes hC hfair hB hal h
  rw [hv, amount_self, sub_zero] at htotal
  exact htotal

/-- A slot that is cleared in a frame that is reverted, and then written twice. -/
def sampleTrace : Trace :=
  .call (.sstore addressOne (hexToHash 1) (zeros 32) 1000000 .done) true
    (.sstore addressOne (hexToHash 1) (zeros 32) 1000000
      (.sstore addressOne (hexToHash 1) (hexToHash 7) 1000000 .done))

theorem sstore_metering_sample :
    (∀ p, sampleTrace.run eip2200 alignedHashes onesBackend (30000, crowded) ≠ .error (.panic p)) ∧
      ∃ total refund s', writeAll eip2200 alignedHashes onesBackend addressOne (hexToHash 1)
          [(zeros 32, 1000000), (hexToHash 7, 1000000)] crowded = .ok (total, refund, s') ∧
        (total : ℤ) - refund = 2 * 800 + amount eip2200 (hexToHash 1)
          (value alignedHashes onesBackend s' addressOne (hexToHash 1)) := by
  have hclean (a : Address) (k : Hash) : value alignedHashes onesBackend crowded a k =
      committed alignedHashes onesBackend crowded a k :=
    (crowded_slots a k).1.trans (crowded_slots a k).2.symm
  obtain ⟨hpanic, hcost, _⟩ := sstore_metering (s := crowded) (B := onesBackend)
    mem_cons_self alignedHashes_distinct (coherent_of_none rfl _) placed_new
  refine ⟨hpanic rfl hclean 30000 sampleTrace (by norm_num), ?_⟩
  obtain ⟨⟨total, refund, s'⟩, hrun⟩ := exists_of_isOk
    (x := writeAll eip2200 alignedHashes onesBackend addressOne (hexToHash 1)
      [(zeros 32, 1000000), (hexToHash 7, 1000000)] crowded) (by decide +kernel)
  refine ⟨total, refund, s', hrun, ?_⟩
  have htotal := hcost _ _ _ _ _ _ (hclean _ _) hrun
  rw [(crowded_slots _ _).2] at htotal
  exact htotal

end Geth.Vm.SstoreMetering
