import Mathlib.Data.List.AList

/-! Changes to a store of objects with slots: objects that are wiped, and
objects and slots that are written after that. -/

namespace Geth.Lib.Overlay

open List

variable {α κ ν : Type*}

/-- What a store answers for each object and for each slot of an object. -/
@[ext] structure Contents (α κ ν : Type*) where
  account : α → ν
  storage : α → κ → ν

structure Diff (α κ ν : Type*) where
  destructs : AList fun _ : α => Unit
  accounts : AList fun _ : α => ν
  storage : AList fun _ : α => AList fun _ : κ => ν

section

variable {β : Type*} [DecidableEq α] (m : AList fun _ : α => β)

def update (m s : AList fun _ : α => β) : AList fun _ : α => β := s.entries.foldl (fun m e => m.insert e.1 e.2) m

def without (m : AList fun _ : α => β) (keys : List α) : AList fun _ : α => β := keys.foldl (fun m k => m.erase k) m

theorem lookup_foldl_combine (combine : α → β → Option β → β) (l : List (Sigma fun _ : α => β))
    (hl : l.NodupKeys) (m : AList fun _ : α => β) (a : α) :
    (l.foldl (fun m e => m.insert e.1 (combine e.1 e.2 (m.lookup e.1))) m).lookup a =
      (l.dlookup a).elim (m.lookup a) fun v => some (combine a v (m.lookup a)) := by
  induction l generalizing m with
  | nil => rfl
  | cons e l ih =>
    obtain ⟨k, v⟩ := e
    obtain ⟨hk, hl⟩ := nodupKeys_cons.mp hl
    rw [foldl_cons, ih hl]
    by_cases hak : a = k
    · subst hak
      rw [dlookup_eq_none.mpr hk, dlookup_cons_eq, Option.elim_none, Option.elim_some, AList.lookup_insert]
    · rw [AList.lookup_insert_ne hak, dlookup_cons_ne l ⟨k, v⟩ hak]

theorem lookup_update (m s : AList fun _ : α => β) (a : α) :
    (update m s).lookup a = (s.lookup a).or (m.lookup a) := by
  have h : (update m s).lookup a = (s.lookup a).elim (m.lookup a) some :=
    lookup_foldl_combine (fun _ v _ => v) s.entries s.nodupKeys m a
  rw [h]
  cases s.lookup a with
  | none => rfl
  | some v => rfl

theorem lookup_without (keys : List α) (a : α) :
    (without m keys).lookup a = if a ∈ keys then none else m.lookup a := by
  induction keys generalizing m with
  | nil => rfl
  | cons k keys ih =>
    rw [without, foldl_cons, ← without, ih]
    by_cases hk : a ∈ keys
    · rw [if_pos hk, if_pos (mem_cons_of_mem _ hk)]
    rw [if_neg hk]
    by_cases hak : a = k
    · rw [hak, AList.lookup_erase, if_pos mem_cons_self]
    rw [AList.lookup_erase_ne hak, if_neg]
    simp only [mem_cons, hak, hk, or_self, not_false_eq_true]

theorem lookup_without_keys (s : AList fun _ : α => Unit) (a : α) :
    (without m s.keys).lookup a = if a ∈ s then none else m.lookup a := by
  rw [lookup_without]
  simp only [← AList.mem_keys]

end

variable [DecidableEq α] [DecidableEq κ]

namespace Diff

def slot (d : Diff α κ ν) (a : α) (k : κ) : Option ν := (d.storage.lookup a).bind fun slots => slots.lookup k

def apply (d : Diff α κ ν) (absent : ν) (w : Contents α κ ν) : Contents α κ ν where
  account a :=
    match d.accounts.lookup a with
    | some v => v
    | none => if a ∈ d.destructs then absent else w.account a
  storage a k :=
    match d.slot a k with
    | some v => v
    | none => if a ∈ d.destructs then absent else w.storage a k

/-- Slots written into the table there is, or taken over as they are. -/
def combine (slots : AList fun _ : κ => ν) : Option (AList fun _ : κ => ν) → AList fun _ : κ => ν
  | none => slots
  | some combo => update combo slots

def merge (p d : Diff α κ ν) : Diff α κ ν where
  destructs := update p.destructs d.destructs
  accounts := update (without p.accounts d.destructs.keys) d.accounts
  storage := d.storage.entries.foldl (fun m e => m.insert e.1 (combine e.2 (m.lookup e.1)))
    (without p.storage d.destructs.keys)

section

variable (p d : Diff α κ ν)
include p d

theorem mem_merge_destructs (a : α) : a ∈ (p.merge d).destructs ↔ a ∈ p.destructs ∨ a ∈ d.destructs := by
  rw [← AList.lookup_isSome, ← AList.lookup_isSome, ← AList.lookup_isSome, merge, lookup_update, Option.isSome_or,
    Bool.or_eq_true, or_comm]

theorem lookup_merge_accounts (a : α) : (p.merge d).accounts.lookup a =
      (d.accounts.lookup a).or (if a ∈ d.destructs then none else p.accounts.lookup a) := by
  rw [merge, lookup_update, lookup_without_keys]

theorem slot_merge (a : α) (k : κ) :
    (p.merge d).slot a k = (d.slot a k).or (if a ∈ d.destructs then none else p.slot a k) := by
  have hmerge : (p.merge d).storage.lookup a =
      (d.storage.lookup a).elim ((without p.storage d.destructs.keys).lookup a) fun slots =>
        some (combine slots ((without p.storage d.destructs.keys).lookup a)) :=
    lookup_foldl_combine (fun _ => combine) d.storage.entries d.storage.nodupKeys _ a
  rw [slot, hmerge, lookup_without_keys, slot, slot]
  cases d.storage.lookup a with
  | none =>
    by_cases hd : a ∈ d.destructs
    · rw [if_pos hd, if_pos hd]
      rfl
    rw [if_neg hd, if_neg hd]
    rfl
  | some slots =>
    by_cases hd : a ∈ d.destructs
    · rw [if_pos hd, if_pos hd, Option.or_none]
      rfl
    rw [if_neg hd, if_neg hd]
    cases p.storage.lookup a with
    | none => exact (Option.or_none).symm
    | some combo => exact lookup_update combo slots k

theorem apply_merge (absent : ν) (w : Contents α κ ν) :
    (p.merge d).apply absent w = d.apply absent (p.apply absent w) := by
  ext a
  · simp only [apply, lookup_merge_accounts, mem_merge_destructs]
    cases d.accounts.lookup a with
    | some v => rfl
    | none =>
      by_cases hd : a ∈ d.destructs
      · simp only [hd, if_true, or_true, Option.or_none]
      · simp only [hd, if_false, or_false, Option.none_or]
  next k =>
    simp only [apply, slot_merge, mem_merge_destructs]
    cases d.slot a k with
    | some v => rfl
    | none =>
      by_cases hd : a ∈ d.destructs
      · simp only [hd, if_true, or_true, Option.or_none]
      · simp only [hd, if_false, or_false, Option.none_or]

end

end Diff

end Geth.Lib.Overlay
