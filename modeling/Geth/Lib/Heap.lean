import Mathlib.Data.List.Perm.Basic

namespace Geth.Lib.Heap

open List

variable {α : Type} (less : α → α → Bool)

def lessAt (h : Array α) (i j : ℕ) : Bool :=
  match h[i]?, h[j]? with
  | some a, some b => less a b
  | _, _ => false

/-- The child that is to stand above the other one. -/
def firstChild (n : ℕ) (h : Array α) (i : ℕ) : ℕ :=
  if 2 * i + 2 < n && lessAt less h (2 * i + 2) (2 * i + 1) then 2 * i + 2 else 2 * i + 1

theorem lt_firstChild (n : ℕ) (h : Array α) (i : ℕ) : i < firstChild less n h i := by
  rw [firstChild]
  split <;> omega

theorem firstChild_lt {n : ℕ} (h : Array α) {i : ℕ} (hi : 2 * i + 1 < n) : firstChild less n h i < n := by
  rw [firstChild]
  split
  · rename_i hc
    rw [Bool.and_eq_true, decide_eq_true_eq] at hc
    exact hc.1
  · exact hi

/-- Let an element sink among the first `n` ones. It ends at the returned place. -/
def down (n : ℕ) (h : Array α) (i : ℕ) : ℕ × Array α :=
  if 2 * i + 1 < n then
    let j := firstChild less n h i
    if lessAt less h j i then down n (h.swapIfInBounds i j) j else (i, h)
  else (i, h)
termination_by n - i
decreasing_by
  have hlt := lt_firstChild less n h i
  omega

def up (h : Array α) (j : ℕ) : Array α :=
  if j ≠ 0 ∧ lessAt less h j ((j - 1) / 2) = true then
    up (h.swapIfInBounds ((j - 1) / 2) j) ((j - 1) / 2)
  else h
termination_by j
decreasing_by omega

def heapify : ℕ → Array α → Array α
  | 0, h => h
  | k + 1, h => heapify k (down less h.size h k).2

def init (h : Array α) : Array α := heapify less (h.size / 2) h

def fix (h : Array α) (i : ℕ) : Array α :=
  let sunk := down less h.size h i
  if i < sunk.1 then sunk.2 else up less sunk.2 i

def pop (h : Array α) : Array α :=
  (down less (h.size - 1) (h.swapIfInBounds 0 (h.size - 1)) 0).2.pop

section

theorem swapIfInBounds_perm (h : Array α) (i j : ℕ) : (h.swapIfInBounds i j).toList.Perm h.toList := by
  rw [Array.swapIfInBounds_def]
  split
  · split
    · exact Array.perm_iff_toList_perm.mp (Array.swap_perm _ _)
    · exact .refl _
  · exact .refl _

theorem down_perm (n : ℕ) (h : Array α) (i : ℕ) : (down less n h i).2.toList.Perm h.toList := by
  fun_induction down less n h i with
  | case1 h i hn j hless ih => exact ih.trans (swapIfInBounds_perm h i j)
  | case2 => exact .refl _
  | case3 => exact .refl _

theorem up_perm (h : Array α) (j : ℕ) : (up less h j).toList.Perm h.toList := by
  fun_induction up less h j with
  | case1 h j hj ih => exact ih.trans (swapIfInBounds_perm h _ j)
  | case2 => exact .refl _

theorem fix_perm (h : Array α) (i : ℕ) : (fix less h i).toList.Perm h.toList := by
  rw [fix]
  split
  · exact down_perm less _ h i
  · exact (up_perm less _ i).trans (down_perm less _ h i)

theorem down_size (n : ℕ) (h : Array α) (i : ℕ) : (down less n h i).2.size = h.size := by
  simpa using (down_perm less n h i).length_eq

theorem down_get {n k : ℕ} (h : Array α) (i : ℕ) (hk : n ≤ k) : (down less n h i).2[k]? = h[k]? := by
  fun_induction down less n h i with
  | case1 h i hn j hless ih =>
    have hj := firstChild_lt less h hn
    rw [ih, Array.swapIfInBounds_def]
    split
    · split
      · rw [Array.getElem?_swap, if_neg (by omega), if_neg (by omega)]
      · rfl
    · rfl
  | case2 => rfl
  | case3 => rfl

theorem toList_eq_pop_append {h : Array α} {a : α} (hpos : 0 < h.size)
    (ha : h[h.size - 1]? = some a) : h.toList = h.pop.toList ++ [a] := by
  rw [Array.toList_pop]
  have hne : h.toList ≠ [] := fun hnil => by simp [← Array.length_toList, hnil] at hpos
  have hlast : h.toList.getLast hne = a := by
    rw [Array.getElem?_eq_getElem (by omega), Option.some.injEq] at ha
    rw [getLast_eq_getElem, ← ha]
    rfl
  rw [← hlast, dropLast_append_getLast]

theorem pop_perm {h : Array α} (hpos : 0 < h.size) : (pop less h).toList.Perm h.toList.tail := by
  obtain ⟨a, l, hl⟩ : ∃ a l, h.toList = a :: l :=
    exists_cons_of_ne_nil fun hnil => by simp [← Array.length_toList, hnil] at hpos
  have ha : h[0] = a := by simp [← Array.getElem_toList, hl]
  set swapped := h.swapIfInBounds 0 (h.size - 1) with hswapped
  set sunk := (down less (h.size - 1) swapped 0).2 with hsunk
  have hsize : sunk.size = h.size := by
    rw [hsunk, down_size, hswapped, Array.size_swapIfInBounds]
  have hback : sunk[sunk.size - 1]? = some a := by
    rw [hsize, hsunk, down_get less swapped 0 (Nat.le_refl _), hswapped, Array.swapIfInBounds_def,
      dif_pos hpos, dif_pos (by omega), Array.getElem?_swap, if_pos rfl, ha]
  have hperm : sunk.toList.Perm h.toList := (down_perm less _ swapped 0).trans (swapIfInBounds_perm h _ _)
  rw [toList_eq_pop_append (by omega) hback, hl] at hperm
  rw [hl, tail_cons]
  exact ((perm_append_singleton a _).symm.trans hperm).cons_inv

end

end Geth.Lib.Heap
