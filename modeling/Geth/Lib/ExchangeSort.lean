import Mathlib.Data.List.Sort

namespace Geth.Lib.ExchangeSort

open List List.Pairwise

variable {α : Type} [LinearOrder α] (x : α) (xs : List α)

/-- One round of the sort: the first element is exchanged with every smaller one that is met. -/
def exchange : α → List α → α × List α
  | x, [] => (x, [])
  | x, y :: ys =>
    if y < x then ((exchange y ys).1, x :: (exchange y ys).2)
    else ((exchange x ys).1, y :: (exchange x ys).2)

theorem exchange_perm (ys : List α) : ((exchange x ys).1 :: (exchange x ys).2).Perm (x :: ys) := by
  induction ys generalizing x with
  | nil => exact List.Perm.refl _
  | cons y ys ih =>
    simp only [exchange]
    split
    · exact (List.Perm.swap _ _ _).trans ((ih y).cons x)
    · exact (List.Perm.swap _ _ _).trans (((ih x).cons y).trans (List.Perm.swap _ _ _))

theorem length_exchange (ys : List α) : (exchange x ys).2.length = ys.length := by
  have h := (exchange_perm x ys).length_eq
  simpa using h

theorem exchange_le (ys : List α) : ∀ y ∈ x :: ys, (exchange x ys).1 ≤ y := by
  induction ys generalizing x with
  | nil => simp [exchange]
  | cons z ys ih =>
    simp only [exchange]
    split
    next hlt =>
      have hz := ih z z (by simp)
      intro y hy
      rcases List.mem_cons.mp hy with rfl | hy
      · exact le_trans hz (le_of_lt hlt)
      · exact ih z y hy
    next hle =>
      have hx := ih x x (by simp)
      intro y hy
      rcases List.mem_cons.mp hy with rfl | hy
      · exact hx
      rcases List.mem_cons.mp hy with rfl | hy
      · exact le_trans hx (not_lt.mp hle)
      · exact ih x y (mem_cons_of_mem _ hy)

def exchangeSort : List α → List α
  | [] => []
  | x :: xs => (exchange x xs).1 :: exchangeSort (exchange x xs).2
termination_by xs => xs.length
decreasing_by rw [length_exchange]; exact Nat.lt_succ_self _

theorem exchangeSort_perm : (exchangeSort xs).Perm xs := by
  induction xs using exchangeSort.induct with
  | case1 => rw [exchangeSort]
  | case2 x xs ih =>
    rw [exchangeSort]
    exact (ih.cons _).trans (exchange_perm x xs)

theorem exchangeSort_sorted : (exchangeSort xs).Pairwise (· ≤ ·) := by
  induction xs using exchangeSort.induct with
  | case1 => rw [exchangeSort]; exact nil
  | case2 x xs ih =>
    rw [exchangeSort]
    apply cons _ ih
    intro y hy
    have hmem : y ∈ (exchange x xs).2 := (exchangeSort_perm _).mem_iff.mp hy
    exact exchange_le x xs y ((exchange_perm x xs).mem_iff.mp (mem_cons_of_mem _ hmem))

def dropRepeats : List α → List α
  | [] => []
  | [x] => [x]
  | x :: y :: ys => if y = x then dropRepeats (x :: ys) else x :: dropRepeats (y :: ys)
termination_by xs => xs.length

theorem mem_dropRepeats {z : α} : z ∈ dropRepeats xs ↔ z ∈ xs := by
  induction xs using dropRepeats.induct with
  | case1 => rw [dropRepeats]
  | case2 x => rw [dropRepeats]
  | case3 x ys ih =>
    rw [dropRepeats, if_pos rfl, ih]
    simp
  | case4 x y ys hne ih =>
    rw [dropRepeats, if_neg hne, mem_cons, ih, ← mem_cons]

theorem dropRepeats_strict {xs : List α} (h : xs.Pairwise (· ≤ ·)) : (dropRepeats xs).Pairwise (· < ·) := by
  induction xs using dropRepeats.induct with
  | case1 => rw [dropRepeats]; exact nil
  | case2 x => rw [dropRepeats]; exact pairwise_singleton _ _
  | case3 x ys ih =>
    rw [dropRepeats, if_pos rfl]
    exact ih (List.pairwise_cons.mp h).2
  | case4 x y ys hne ih =>
    rw [dropRepeats, if_neg hne]
    obtain ⟨hx, hys⟩ := List.pairwise_cons.mp h
    apply cons _ (ih hys)
    intro z hz
    have hxy : x < y := lt_of_le_of_ne (hx y (by simp)) (Ne.symm hne)
    rcases List.mem_cons.mp ((mem_dropRepeats _).mp hz) with rfl | hz
    · exact hxy
    · exact lt_of_lt_of_le hxy ((List.pairwise_cons.mp hys).1 z hz)

end Geth.Lib.ExchangeSort
