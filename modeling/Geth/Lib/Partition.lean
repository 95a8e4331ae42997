import Mathlib.Data.List.Basic
import Mathlib.Data.Set.Function

namespace Geth.Lib.Partition

open List

variable {α β : Type} (p : α → Bool)

/-- The elements without a property in their order, then the first `k` of the
others. -/
def regroup (p : α → Bool) (k : ℕ) (l : List α) : List α :=
  l.filter (fun a => !p a) ++ (l.filter p).take k

/-- Once an element has the property, all later ones have it. -/
def Grouped (p : α → Bool) (l : List α) : Prop :=
  l.Pairwise fun a b => p a = true → p b = true

theorem filter_append_filter_eq_iff (l : List α) :
    l.filter (fun a => !p a) ++ l.filter p = l ↔ Grouped p l := by
  induction l with
  | nil => simp [Grouped]
  | cons a l ih =>
    rw [Grouped, pairwise_cons]
    cases hp : p a with
    | false =>
      rw [filter_cons_of_pos (by simp [hp]), filter_cons_of_neg (by simp [hp]), cons_append, cons_eq_cons, ih]
      simp [Grouped]
    | true =>
      rw [filter_cons_of_neg (by simp [hp]), filter_cons_of_pos hp]
      constructor
      · intro h
        -- the element comes first only if nothing without the property is left
        have hnil : l.filter (fun a => !p a) = [] := by
          cases hf : l.filter (fun a => !p a) with
          | nil => rfl
          | cons b bs =>
            rw [hf, cons_append, cons_eq_cons] at h
            have hb : b ∈ l.filter (fun a => !p a) := by
              rw [hf]
              exact mem_cons_self
            have hbp := (mem_filter.mp hb).2
            rw [h.1, hp] at hbp
            cases hbp
        rw [filter_eq_nil_iff] at hnil
        have hall : ∀ b ∈ l, p b = true := fun b hb => by simpa using hnil b hb
        exact ⟨fun b hb _ => hall b hb, pairwise_of_forall_mem_list fun _ _ b hb _ => hall b hb⟩
      rintro ⟨hall, _⟩
      have hnil : l.filter (fun a => !p a) = [] :=
        filter_eq_nil_iff.mpr fun b hb => by simp [hall b hb rfl]
      rw [hnil, nil_append, filter_eq_self.mpr fun b hb => hall b hb rfl]

theorem regroup_eq_iff (k : ℕ) (l : List α) :
    regroup p k l = l ↔ Grouped p l ∧ (l.filter p).length ≤ k := by
  constructor
  · intro h
    have hlen := congrArg List.length h
    have hsum := length_eq_length_filter_add (l := l) p
    rw [regroup, length_append, length_take] at hlen
    have hk : (l.filter p).length ≤ k := by omega
    rw [regroup, take_of_length_le hk, filter_append_filter_eq_iff] at h
    exact ⟨h, hk⟩
  rintro ⟨hg, hk⟩
  rw [regroup, take_of_length_le hk]
  exact (filter_append_filter_eq_iff p l).mpr hg

theorem regroup_subset (k : ℕ) (l : List α) : ∀ a ∈ regroup p k l, a ∈ l := by
  intro a ha
  rw [regroup, mem_append] at ha
  rcases ha with ha | ha
  · exact (mem_filter.mp ha).1
  · exact (mem_filter.mp (mem_of_mem_take ha)).1

theorem map_eq_map_iff {f : α → β} {s : Set α} (hf : Set.InjOn f s) {l l' : List α}
    (hl : ∀ a ∈ l, a ∈ s) (hl' : ∀ a ∈ l', a ∈ s) : l.map f = l'.map f ↔ l = l' := by
  refine ⟨?_, fun h => by rw [h]⟩
  induction l generalizing l' with
  | nil =>
    intro h
    rw [map_nil, eq_comm, map_eq_nil_iff] at h
    exact h.symm
  | cons a l ih =>
    intro h
    cases l' with
    | nil => cases h
    | cons b l' =>
      rw [map_cons, map_cons, cons_eq_cons] at h
      rw [forall_mem_cons] at hl hl'
      rw [hf hl.1 hl'.1 h.1, ih hl.2 hl'.2 h.2]

end Geth.Lib.Partition
