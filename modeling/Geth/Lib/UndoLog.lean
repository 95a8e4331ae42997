import Mathlib.Tactic.Common

namespace Geth.Lib.UndoLog

variable {σ ε π : Type} {undo : ε → σ → Except π σ} {R : σ → σ → Prop} {P : ε → Prop}
variable {log new : List ε} {s s' t s₀ : σ}

/-- Undo the changes of a log, the latest of which comes first. -/
def undoAll (undo : ε → σ → Except π σ) : List ε → σ → Except π σ
  | [], s => .ok s
  | e :: log, s => undo e s >>= undoAll undo log

theorem undoAll_append (new log : List ε) (s : σ) :
    undoAll undo (new ++ log) s = undoAll undo new s >>= undoAll undo log := by
  induction new generalizing s with
  | nil => rfl
  | cons e new ih =>
    rw [List.cons_append, undoAll, undoAll]
    cases undo e s with
    | error p => rfl
    | ok t => exact ih t

/-- States that look the same also do after the same change was undone, for
the changes in question. -/
structure Respects (undo : ε → σ → Except π σ) (R : σ → σ → Prop) (P : ε → Prop) : Prop where
  equivalence : Equivalence R
  congr : ∀ e s s' t, P e → R s s' → undo e s = .ok t → ∃ t', undo e s' = .ok t' ∧ R t t'

theorem Respects.undoAll (h : Respects undo R P) (hlog : ∀ e ∈ log, P e) (hs : R s s')
    (ht : undoAll undo log s = .ok t) : ∃ t', undoAll undo log s' = .ok t' ∧ R t t' := by
  induction log generalizing s s' with
  | nil =>
    cases ht
    exact ⟨s', rfl, hs⟩
  | cons e log ih =>
    rw [List.forall_mem_cons] at hlog
    rw [UndoLog.undoAll] at ht
    cases he : undo e s with
    | error p =>
      rw [he] at ht
      cases ht
    | ok t₁ =>
      rw [he] at ht
      obtain ⟨t₂, ht₂, hr⟩ := h.congr e s s' t₁ hlog.1 hs he
      obtain ⟨t', ht', hr'⟩ := ih hlog.2 hr ht
      refine ⟨t', ?_, hr'⟩
      rw [UndoLog.undoAll, ht₂]
      exact ht'

/-- Undoing a log leads back to a state that looks like the given one. -/
structure Restores (undo : ε → σ → Except π σ) (R : σ → σ → Prop) (P : ε → Prop) (log : List ε)
    (s s₀ : σ) : Prop where
  covered : ∀ e ∈ log, P e
  back : ∃ t, undoAll undo log s = .ok t ∧ R t s₀

theorem Restores.nil (h : R s s₀) : Restores undo R P [] s s₀ :=
  ⟨fun _ he => (List.not_mem_nil he).elim, s, rfl, h⟩

theorem Restores.single {e : ε} (he : P e) (ht : undo e s = .ok t) (h : R t s₀) :
    Restores undo R P [e] s s₀ := by
  refine ⟨fun e' he' => ?_, t, ?_, h⟩
  · rw [List.mem_singleton.mp he']
    exact he
  rw [undoAll, ht]
  rfl

theorem Restores.append (hR : Respects undo R P) (h : Restores undo R P log s s₀)
    (hnew : Restores undo R P new s' s) : Restores undo R P (new ++ log) s' s₀ := by
  obtain ⟨t, ht, hts⟩ := hnew.back
  obtain ⟨t₀, ht₀, hr₀⟩ := h.back
  obtain ⟨t', ht', hr'⟩ := hR.undoAll h.covered (hR.equivalence.symm hts) ht₀
  refine ⟨fun e he => ?_, t', ?_, hR.equivalence.trans (hR.equivalence.symm hr') hr₀⟩
  · rcases List.mem_append.mp he with he | he
    · exact hnew.covered e he
    · exact h.covered e he
  rw [undoAll_append, ht]
  exact ht'

theorem Restores.undo_new (h : Restores undo R P (new ++ log) s s₀) :
    ∃ t, undoAll undo new s = .ok t ∧ Restores undo R P log t s₀ := by
  obtain ⟨t₀, ht₀, hr₀⟩ := h.back
  rw [undoAll_append] at ht₀
  cases hnew : undoAll undo new s with
  | error p =>
    rw [hnew] at ht₀
    cases ht₀
  | ok t =>
    rw [hnew] at ht₀
    exact ⟨t, rfl, fun e he => h.covered e (List.mem_append_right _ he), t₀, ht₀, hr₀⟩

end Geth.Lib.UndoLog
