import Geth.Lib.Programs

namespace Geth.Lib.InheritedCache

open Programs Function

variable {κ ε σ α : Type} {older : σ → Except ε (Option κ)} {read : Program ε σ α} {k : Option κ}

abbrev Cache (κ α : Type) := κ → Option α

def evict (lost : κ → Bool) (cache : Cache κ α) : Cache κ α :=
  fun k => if lost k then none else cache k

def outcome : EStateM.Result ε σ α → Except ε α
  | .ok a _ => .ok a
  | .error e _ => .error e

def leaves : EStateM.Result ε σ α → σ
  | .ok _ s => s
  | .error _ s => s

/-- The entries are the true values of keys that are known. -/
def Sound (known : κ → Prop) (truth : κ → Except ε α) (cache : Cache κ α) : Prop :=
  ∀ k v, cache k = some v → known k ∧ truth k = .ok v

variable {known : κ → Prop} {truth : κ → Except ε α} {cache : Cache κ α} {key : κ}

theorem Sound.empty : Sound known truth (fun _ => none) := by
  intro k v h
  cases h

theorem Sound.evict (h : Sound known truth cache) (lost : κ → Bool) :
    Sound known truth (evict lost cache) := by
  intro k v hk
  rw [InheritedCache.evict] at hk
  split at hk
  · cases hk
  · exact h k v hk

/-- Look a value up before and after a lock is taken, and go on with `next`. -/
def lookup (lost : κ → Bool) (key : κ) (next : Program ε (σ × Cache κ α) α) :
    Program ε (σ × Cache κ α) α := fun p =>
  let cache := evict lost p.2
  match cache key with
  | some v => .ok v (p.1, cache)
  | none => next (p.1, cache)

def Answers (known : κ → Prop) (truth : κ → Except ε α) (key : κ) (s : σ)
    (x : Program ε (σ × Cache κ α) α) : Prop :=
  ∀ cache, Sound known truth cache →
    outcome (x (s, cache)) = truth key ∧ Sound known truth (leaves (x (s, cache))).2

variable {s : σ}

theorem Answers.lookup {next} (h : Answers known truth key s next)
    (lost : κ → Bool) : Answers known truth key s (lookup lost key next) := by
  intro cache hs
  have hs := hs.evict lost
  rw [InheritedCache.lookup]
  cases hk : InheritedCache.evict lost cache key with
  | some v => simpa only [hk, outcome, leaves] using ⟨((hs key v hk).2).symm, hs⟩
  | none => simpa only [hk] using h _ hs

variable [DecidableEq κ]

def add (cache : Cache κ α) (k : κ) (v : α) : Cache κ α := update cache k (some v)

/-- Once the entry is found missing again: inherit that of an older key, or else
read the value. -/
def fill (lost : κ → Bool) (key : κ) (older : σ → Except ε (Option κ)) (read : Program ε σ α) :
    Program ε (σ × Cache κ α) α := fun p =>
  let cache := evict lost p.2
  match older p.1 with
  | .error e => .error e (p.1, cache)
  | .ok k =>
    match k.bind cache with
    | some v => .ok v (p.1, add cache key v)
    | none =>
      match read p.1 with
      | .ok v s => .ok v (s, add cache key v)
      | .error e s => .error e (s, cache)

/-- A value through a cache. Entries may be lost before each of the lookups. -/
def cached (lost : ℕ → κ → Bool) (key : κ) (older : σ → Except ε (Option κ))
    (read : Program ε σ α) : Program ε (σ × Cache κ α) α :=
  lookup (lost 0) key (lookup (lost 1) key (fill (lost 2) key older read))

theorem Sound.add (h : Sound known truth cache) {v : α} (hkey : known key) (hv : truth key = .ok v) :
    Sound known truth (add cache key v) := by
  intro k v' hk
  rw [InheritedCache.add] at hk
  by_cases heq : k = key
  · subst heq
    rw [update_self] at hk
    cases hk
    exact ⟨hkey, hv⟩
  rw [update_of_ne heq] at hk
  exact h k v' hk

section

variable (hkey : known key) (holder : older s = .ok k)
    (hinherit : ∀ o, k = some o → known o → truth o = truth key)
    (hread : outcome (read s) = truth key)
include hkey holder hinherit hread

/-- An older value is only inherited when it is still the true one. -/
theorem answers_fill (lost : κ → Bool) : Answers known truth key s (fill lost key older read) := by
  intro cache hs
  have hs := hs.evict lost
  rw [fill, holder]
  dsimp only
  cases hk : k.bind (InheritedCache.evict lost cache) with
  | some v =>
    obtain ⟨o, rfl, ho⟩ := Option.bind_eq_some_iff.mp hk
    obtain ⟨hknown, htrue⟩ := hs o v ho
    rw [hinherit o rfl hknown] at htrue
    exact ⟨htrue.symm, hs.add hkey htrue⟩
  | none =>
    dsimp only
    cases hr : read s with
    | ok v s' =>
      rw [hr] at hread
      exact ⟨hread, hs.add hkey hread.symm⟩
    | error e s' =>
      rw [hr] at hread
      exact ⟨hread, hs⟩

theorem answers_cached (lost : ℕ → κ → Bool) : Answers known truth key s (cached lost key older read) :=
  ((answers_fill hkey holder hinherit hread (lost 2)).lookup (lost 1)).lookup (lost 0)

end

end Geth.Lib.InheritedCache
