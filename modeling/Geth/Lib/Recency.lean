import Mathlib.Algebra.Order.BigOperators.Group.Finset
import Mathlib.Data.Int.Interval
import Mathlib.Order.Interval.Finset.Nat
import Mathlib.Tactic.Linarith

namespace Geth.Lib.Recency

variable {α : Type} {l : ℕ}

/-- Who acted at which height, as far as it is still remembered. -/
abbrev History (α : Type) := ℤ → Option α

def keepAfter (b : ℤ) (r : History α) : History α := fun k => if b < k then r k else none

def record (r : History α) (n : ℤ) (v : α) : History α := Function.update r n (some v)

/-- Only the last `l` heights up to `n` are remembered, and nobody acted twice
among them. -/
structure Spaced (r : History α) (n : ℤ) (l : ℕ) : Prop where
  window : ∀ k v, r k = some v → n - l < k ∧ k ≤ n
  distinct : ∀ j k v, r j = some v → r k = some v → j = k

/-- A chain whose blocks are sealed in turn by members of a changing set. -/
structure State (α : Type) where
  height : ℤ
  members : Finset α
  recent : History α

def State.limit (s : State α) : ℕ := s.members.card / 2 + 1

/-- The history that bars members from the next height. Its oldest entry has
just left the window. -/
def State.barring (s : State α) : History α := keepAfter (s.height + 1 - s.limit) s.recent

def State.Allowed (s : State α) (v : α) : Prop := v ∈ s.members ∧ ∀ k, s.barring k ≠ some v

/-- Append a block by `v` after which `next` is the set of members. The
history is cut down to the window that the new set asks for. -/
def State.sealBy (s : State α) (v : α) (next : Finset α) : State α where
  height := s.height + 1
  members := next
  recent := keepAfter (s.height + 1 - (next.card / 2 + 1 : ℕ)) (record s.barring (s.height + 1) v)

def State.Spacing (s : State α) : Prop := Spaced s.recent s.height s.limit

variable {k n : ℤ} {r : History α} {v : α} {s : State α}

theorem keepAfter_eq_some {b : ℤ} : keepAfter b r k = some v ↔ b < k ∧ r k = some v := by
  by_cases h : b < k <;> simp [keepAfter, h]

theorem record_eq_some {w : α} : record r n v k = some w ↔ k = n ∧ v = w ∨ k ≠ n ∧ r k = some w := by
  by_cases h : k = n
  · subst k; simp [record]
  · simp [record, h]

theorem Spaced.keepAfter (h : Spaced r n l) (l' : ℕ) : Spaced (keepAfter (n - l') r) n l' := by
  refine ⟨?_, ?_⟩
  · intro k v hk
    obtain ⟨hlt, hr⟩ := keepAfter_eq_some.mp hk
    exact ⟨hlt, (h.window k v hr).2⟩
  intro j k v hj hk
  exact h.distinct j k v (keepAfter_eq_some.mp hj).2 (keepAfter_eq_some.mp hk).2

theorem barring_window (h : s.Spacing) (hk : s.barring k = some v) :
    s.height + 1 - s.limit < k ∧ k ≤ s.height := by
  obtain ⟨hlt, hr⟩ := keepAfter_eq_some.mp hk
  exact ⟨hlt, (h.window k v hr).2⟩

theorem Spaced.record (h : s.Spacing) (hv : s.Allowed v) :
    Spaced (record s.barring (s.height + 1) v) (s.height + 1) s.limit := by
  refine ⟨?_, ?_⟩
  · intro k w hk
    rcases record_eq_some.mp hk with ⟨rfl, _⟩ | ⟨_, hr⟩
    · have hpos : 0 < s.limit := Nat.succ_pos _
      omega
    have hw := barring_window h hr
    omega
  intro j k w hj hk
  rcases record_eq_some.mp hj with ⟨rfl, rfl⟩ | ⟨_, hrj⟩
  · rcases record_eq_some.mp hk with ⟨rfl, _⟩ | ⟨_, hrk⟩
    · rfl
    · exact (hv.2 k hrk).elim
  rcases record_eq_some.mp hk with ⟨rfl, rfl⟩ | ⟨_, hrk⟩
  · exact (hv.2 j hrj).elim
  · exact h.distinct j k w (keepAfter_eq_some.mp hrj).2 (keepAfter_eq_some.mp hrk).2

theorem Spacing.sealBy (h : s.Spacing) (hv : s.Allowed v) (next : Finset α) : (s.sealBy v next).Spacing :=
  (Spaced.record h hv).keepAfter (next.card / 2 + 1)

theorem Spaced.keepAfter_eq (h : Spaced r n l) : Geth.Lib.Recency.keepAfter (n - l) r = r := by
  funext k
  refine Option.ext fun v => ?_
  rw [keepAfter_eq_some]
  exact ⟨fun hk => hk.2, fun hk => ⟨(h.window k v hk).1, hk⟩⟩

/-- Fewer than half of the members can be barred, so the chain never runs out
of sealers. -/
theorem exists_allowed [DecidableEq α] (h : s.Spacing) (hne : s.members.Nonempty) : ∃ v, s.Allowed v := by
  by_contra hnone
  have hbarred : ∀ v ∈ s.members, ∃ k, s.barring k = some v := by
    intro v hv
    by_contra hk
    exact hnone ⟨v, hv, fun k hr => hk ⟨k, hr⟩⟩
  let keys := Finset.Ioc (s.height + 1 - s.limit) s.height
  have hsub : s.members ⊆ keys.biUnion (fun k => (s.barring k).toFinset) := by
    intro v hv
    obtain ⟨k, hk⟩ := hbarred v hv
    have hw := barring_window h hk
    exact Finset.mem_biUnion.mpr ⟨k, Finset.mem_Ioc.mpr hw, by simp [hk]⟩
  have hone : ∀ k ∈ keys, (s.barring k).toFinset.card ≤ 1 := by
    intro k _
    cases s.barring k <;> simp
  have hcard := (Finset.card_le_card hsub).trans (Finset.card_biUnion_le_card_mul keys _ 1 hone)
  have hkeys : keys.card = s.members.card / 2 := by
    simp only [keys, Int.card_Ioc, State.limit]
    omega
  have hpos := hne.card_pos
  omega

end Geth.Lib.Recency
