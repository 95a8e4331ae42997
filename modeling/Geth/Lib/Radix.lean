import Mathlib.Data.List.FinRange
import Mathlib.Data.List.Infix

namespace Geth.Lib.Radix

open Function List

section

variable {α : Type} [DecidableEq α] {a e : α} {k p r : List α}

def prefixLen : List α → List α → ℕ
  | a :: as, b :: bs => if a = b then prefixLen as bs + 1 else 0
  | _, _ => 0

/-- A word whose last symbol, and no other, is the terminator `e`. No such
word is a proper prefix of another. -/
def Terminated (e : α) : List α → Prop
  | [] => False
  | a :: k => if a = e then k = [] else Terminated e k

theorem prefixLen_append (p r s : List α) : prefixLen (p ++ r) (p ++ s) = p.length + prefixLen r s := by
  induction p with
  | nil => simp
  | cons a p ih =>
    simp only [cons_append, prefixLen, ↓reduceIte, length_cons, ih]
    omega

theorem prefixLen_of_ne {b : α} (h : a ≠ b) (r s : List α) : prefixLen (a :: r) (b :: s) = 0 := by
  rw [prefixLen, if_neg h]

theorem prefixLen_nil_right (k : List α) : prefixLen k [] = 0 := by
  cases k <;> rfl

theorem prefixLen_self_append (k r : List α) : prefixLen (k ++ r) k = k.length := by
  have h := prefixLen_append k r []
  rwa [append_nil, prefixLen_nil_right] at h

theorem prefix_or_part (k k₀ : List α) : (∃ r, k = k₀ ++ r) ∨ (∃ a r, k₀ = k ++ a :: r) ∨
      ∃ p b r a r₀, b ≠ a ∧ k = p ++ b :: r ∧ k₀ = p ++ a :: r₀ := by
  induction k generalizing k₀ with
  | nil =>
    cases k₀ with
    | nil => exact .inl ⟨[], rfl⟩
    | cons a r => exact .inr (.inl ⟨a, r, rfl⟩)
  | cons b r ih =>
    cases k₀ with
    | nil => exact .inl ⟨b :: r, rfl⟩
    | cons a r₀ =>
      by_cases hab : b = a
      · subst a
        obtain ⟨s, rfl⟩ | ⟨x, s, rfl⟩ | ⟨p, x, s, y, s₀, hxy, rfl, rfl⟩ := ih r₀
        · exact .inl ⟨s, rfl⟩
        · exact .inr (.inl ⟨x, s, rfl⟩)
        · exact .inr (.inr ⟨b :: p, x, s, y, s₀, hxy, rfl, rfl⟩)
      · exact .inr (.inr ⟨[], b, r, a, r₀, hab, rfl, rfl⟩)

theorem Terminated.ne_nil (h : Terminated e k) : k ≠ [] := by
  rintro rfl
  exact h

theorem terminated_append (hr : r ≠ []) : Terminated e (p ++ r) ↔ e ∉ p ∧ Terminated e r := by
  induction p with
  | nil => simp
  | cons a p ih =>
    simp only [cons_append, Terminated, mem_cons, not_or]
    by_cases ha : a = e
    · simp [ha, hr]
    rw [if_neg ha, ih]
    simp [Ne.symm ha]

theorem terminated_singleton : Terminated e [a] ↔ a = e := by
  simp [Terminated]

theorem Terminated.append (hp : e ∉ p) (hr : Terminated e r) : Terminated e (p ++ r) :=
  (terminated_append hr.ne_nil).mpr ⟨hp, hr⟩

theorem Terminated.mem (h : Terminated e k) : e ∈ k := by
  induction k with
  | nil => exact h.elim
  | cons a k ih =>
    rw [Terminated] at h
    split at h
    · next ha => simp [ha]
    · exact mem_cons_of_mem _ (ih h)

theorem Terminated.eq_of_append (hk : Terminated e k) (h : Terminated e (k ++ r)) : r = [] := by
  by_contra hr
  exact ((terminated_append hr).mp h).1 hk.mem

theorem Terminated.split (h : Terminated e k) : ∃ w, e ∉ w ∧ k = w ++ [e] := by
  induction k with
  | nil => exact h.elim
  | cons a k ih =>
    rw [Terminated] at h
    split at h
    · next ha =>
      subst h
      subst ha
      exact ⟨[], by simp, rfl⟩
    next ha =>
      obtain ⟨w, hw, rfl⟩ := ih h
      exact ⟨a :: w, by simp [hw, Ne.symm ha], rfl⟩

theorem terminated_of_not_mem {w} (h : e ∉ w) : Terminated e (w ++ [e]) :=
  Terminated.append h (terminated_singleton.mpr rfl)

end

inductive RadixTree (n : ℕ) (V : Type) where
  | nil
  | value (v : V)
  | short (key : List (Fin n)) (child : RadixTree n V)
  | full (children : Fin n → RadixTree n V)

namespace RadixTree

variable {n : ℕ} {V : Type} {k' p r₀ : List (Fin n)} {d : RadixTree n V}

def isNil : RadixTree n V → Bool
  | nil => true
  | _ => false

def isValue : RadixTree n V → Bool
  | value _ => true
  | _ => false

def isShort : RadixTree n V → Bool
  | short _ _ => true
  | _ => false

def get : RadixTree n V → List (Fin n) → Option V
  | nil, _ => none
  | value v, k => if k = [] then some v else none
  | short k₀ c, k => if k₀ <+: k then get c (k.drop k₀.length) else none
  | full _, [] => none
  | full cs, a :: k => get (cs a) k

/-- A tree below a path that may be empty. -/
def attach (k : List (Fin n)) (t : RadixTree n V) : RadixTree n V := if k = [] then t else short k t

def fork (a : Fin n) (ta : RadixTree n V) (b : Fin n) (tb : RadixTree n V) : RadixTree n V :=
  full (update (update (fun _ => nil) a ta) b tb)

def insert : RadixTree n V → List (Fin n) → V → RadixTree n V
  | _, [], v => value v
  | nil, k, v => short k (value v)
  | value w, _, _ => value w
  | short k₀ c, k, v =>
    if prefixLen k k₀ = k₀.length then short k₀ (insert c (k.drop k₀.length) v)
    else
      match k₀.drop (prefixLen k k₀), k.drop (prefixLen k k₀) with
      | a :: r₀, b :: r => attach (k.take (prefixLen k k₀)) (fork a (attach r₀ c) b (attach r (value v)))
      | _, _ => short k₀ c
  | full cs, a :: k, v => full (update cs a (insert (cs a) k v))

/-- A path in front of a tree, in one short node. -/
def merge (k : List (Fin n)) : RadixTree n V → RadixTree n V
  | short k' c => short (k ++ k') c
  | t => short k t

/-- The place of the single child that is left, if there is just one. -/
def only (cs : Fin n → RadixTree n V) : Option (Fin n) :=
  match (List.finRange n).filter (fun i => !(cs i).isNil) with
  | [i] => some i
  | _ => none

def reduce (cs : Fin n → RadixTree n V) : RadixTree n V :=
  match only cs with
  | some i => merge [i] (cs i)
  | none => full cs

def delete : RadixTree n V → List (Fin n) → RadixTree n V
  | nil, _ => nil
  | value _, _ => nil
  | short k₀ c, k =>
    if k₀ <+: k then
      if k.length = k₀.length then nil else merge k₀ (delete c (k.drop k₀.length))
    else short k₀ c
  | full cs, [] => full cs
  | full cs, a :: k =>
    if (delete (cs a) k).isNil then reduce (update cs a nil)
    else full (update cs a (delete (cs a) k))

/-- Values stand exactly behind the terminator. -/
def Typed (e : Fin n) : RadixTree n V → Prop
  | nil => True
  | value _ => False
  | short k c => (Terminated e k ∧ c.isValue = true) ∨ (e ∉ k ∧ Typed e c)
  | full cs => (cs e = nil ∨ (cs e).isValue = true) ∧ ∀ i, i ≠ e → Typed e (cs i)

/-- What may stand where the rest `k` of a terminated word leads on. -/
def Fits (e : Fin n) (k : List (Fin n)) (t : RadixTree n V) : Prop :=
  (k = [] ∧ (t = nil ∨ t.isValue = true)) ∨ (Terminated e k ∧ Typed e t)

/-- No short node below a short node, and two children in every full node. -/
def Canon : RadixTree n V → Prop
  | nil => False
  | value _ => True
  | short k c => k ≠ [] ∧ Canon c ∧ c.isShort = false
  | full cs => (∀ i, cs i = nil ∨ Canon (cs i)) ∧ ∃ i j, i ≠ j ∧ cs i ≠ nil ∧ cs j ≠ nil

/-- No short node has an empty path or nothing below it. -/
def Proper : RadixTree n V → Prop
  | short k c => k ≠ [] ∧ c ≠ nil ∧ Proper c
  | full cs => ∀ i, Proper (cs i)
  | _ => True

def Within (t' : RadixTree n V) : RadixTree n V → Prop
  | short k c => t' = short k c ∨ Within t' c
  | full cs => t' = full cs ∨ ∃ i, Within t' (cs i)
  | t => t' = t

@[simp] theorem isNil_iff {t : RadixTree n V} : t.isNil = true ↔ t = nil := by
  cases t <;> simp [isNil]

variable {t c t' : RadixTree n V} {k k₀ r : List (Fin n)} {cs : Fin n → RadixTree n V}
    {i b a : Fin n}

theorem isValue_iff : t.isValue = true ↔ ∃ v, t = value v := by
  cases t <;> simp [isValue]

@[simp] theorem get_nil (k : List (Fin n)) : get (nil : RadixTree n V) k = none := by
  simp [get]

@[simp] theorem get_short_append (k r : List (Fin n)) (c : RadixTree n V) :
    get (short k c) (k ++ r) = get c r := by
  simp [get]

theorem get_short_none (h : ¬ k <+: k') (c : RadixTree n V) : get (short k c) k' = none := by
  rw [get, if_neg h]

@[simp] theorem get_full_cons (cs : Fin n → RadixTree n V) (a : Fin n) (k : List (Fin n)) :
    get (full cs) (a :: k) = get (cs a) k := by
  rw [get]

@[simp] theorem get_full_nil (cs : Fin n → RadixTree n V) : get (full cs) [] = none := by
  rw [get]

theorem get_attach (k k' : List (Fin n)) (t : RadixTree n V) : get (attach k t) k' = get (short k t) k' := by
  rw [attach]
  split
  · next hk =>
    subst k
    exact (get_short_append [] k' t).symm
  · rfl

theorem get_merge (k k' : List (Fin n)) (t : RadixTree n V) : get (merge k t) k' = get (short k t) k' := by
  cases t with
  | short k₁ c =>
    rw [merge]
    by_cases hp : k <+: k'
    · obtain ⟨r, rfl⟩ := hp
      rw [get_short_append]
      by_cases hr : k₁ <+: r
      · obtain ⟨s, rfl⟩ := hr
        rw [get_short_append, ← append_assoc, get_short_append]
      · rw [get_short_none hr, get_short_none (by simpa using hr)]
    rw [get_short_none hp, get_short_none]
    exact fun h => hp ((prefix_append k k₁).trans h)
  | nil => rfl
  | value v => rfl
  | full cs => rfl

theorem only_eq_some (h : only cs = some i) : cs i ≠ nil ∧ ∀ j, j ≠ i → cs j = nil := by
  rw [only] at h
  split at h
  · next l hl =>
    cases h
    have hmem (j : Fin n) : cs j ≠ nil ↔ j = i := by
      have hj : j ∈ (List.finRange n).filter (fun i => !(cs i).isNil) ↔ j = i := by
        rw [hl, mem_singleton]
      rw [← hj]
      simp [mem_filter, isNil_iff, Bool.eq_false_iff]
    refine ⟨(hmem i).mpr rfl, fun j hj => ?_⟩
    by_contra hne
    exact hj ((hmem j).mp hne)
  · cases h

theorem only_eq_none (h : only cs = none) (hi : cs i ≠ nil) : ∃ j, j ≠ i ∧ cs j ≠ nil := by
  by_contra hne
  push Not at hne
  have hone : (List.finRange n).filter (fun j => !(cs j).isNil) = [i] := by
    have hf : (fun j => !(cs j).isNil) = fun j => decide (j = i) := by
      funext j
      by_cases hj : j = i
      · subst j
        simpa [Bool.eq_false_iff] using hi
      · simp [hj, hne j hj, isNil]
    rw [hf, filter_eq, count_eq_one_of_mem (nodup_finRange n) (mem_finRange i)]
    rfl
  rw [only, hone] at h
  cases h

theorem get_reduce (cs : Fin n → RadixTree n V) (k : List (Fin n)) : get (reduce cs) k = get (full cs) k := by
  rw [reduce]
  split
  · next i hi =>
    obtain ⟨_, hother⟩ := only_eq_some hi
    rw [get_merge]
    cases k with
    | nil => rw [get_short_none (by simp), get_full_nil]
    | cons a k =>
      rw [get_full_cons]
      by_cases ha : a = i
      · subst a
        exact get_short_append [i] k _
      · rw [hother a ha, get_nil, get_short_none (by simpa using Ne.symm ha)]
  · rfl

section

variable {e : Fin n}

theorem Fits.of_terminated {k : List (Fin n)} {t : RadixTree n V} (hk : Terminated e k) (h : Typed e t) :
    Fits e k t :=
  .inr ⟨hk, h⟩

theorem Fits.typed {k : List (Fin n)} {t : RadixTree n V} (h : Fits e k t) (hk : k ≠ []) :
    Terminated e k ∧ Typed e t := by
  obtain ⟨rfl, _⟩ | h := h
  · exact (hk rfl).elim
  · exact h

theorem Fits.nil_key {t : RadixTree n V} (h : Fits e [] t) : t = nil ∨ t.isValue = true := by
  obtain ⟨_, h⟩ | ⟨hk, _⟩ := h
  · exact h
  · exact hk.elim

theorem Fits.below {k₀ r : List (Fin n)} {c : RadixTree n V} (h : Fits e (k₀ ++ r) (short k₀ c))
    (hk : k₀ ++ r ≠ []) : Fits e r c := by
  obtain ⟨hterm, ⟨hk₀, hc⟩ | ⟨hk₀, hc⟩⟩ := h.typed hk
  · exact .inl ⟨hk₀.eq_of_append hterm, .inr hc⟩
  have hr : r ≠ [] := by
    rintro rfl
    rw [append_nil] at hterm
    exact hk₀ hterm.mem
  exact .inr ⟨((terminated_append hr).mp hterm).2, hc⟩

theorem Fits.child {a : Fin n} {k : List (Fin n)} {cs : Fin n → RadixTree n V}
    (h : Fits e (a :: k) (full cs)) : Fits e k (cs a) := by
  obtain ⟨hterm, hterminator, hother⟩ := h.typed (by simp)
  rw [Terminated] at hterm
  split at hterm
  · next ha =>
    subst ha
    exact .inl ⟨hterm, hterminator⟩
  · next ha => exact .inr ⟨hterm, hother a ha⟩

theorem Fits.part {k k₀ : List (Fin n)} {c : RadixTree n V} (h : Fits e k (short k₀ c)) (hk : k ≠ []) :
    (∃ r, k = k₀ ++ r) ∨ ∃ p b r a r₀, b ≠ a ∧ k = p ++ b :: r ∧ k₀ = p ++ a :: r₀ := by
  obtain ⟨hterm, hc⟩ := h.typed hk
  obtain hpre | ⟨a, r, rfl⟩ | hpart := prefix_or_part k k₀
  · exact .inl hpre
  · exfalso
    obtain ⟨hk₀, _⟩ | ⟨hk₀, _⟩ := hc
    · exact absurd (hterm.eq_of_append hk₀) (by simp)
    · exact hk₀ (mem_append_left _ hterm.mem)
  · exact .inr hpart

end

theorem insert_nil_key (t : RadixTree n V) (v : V) : insert t [] v = value v := by
  cases t <;> rfl

theorem insert_nil (hk : k ≠ []) (v : V) : insert (nil : RadixTree n V) k v = short k (value v) := by
  cases k with
  | nil => exact (hk rfl).elim
  | cons a k => rfl

theorem insert_short_append (hk : k₀ ++ r ≠ []) (c : RadixTree n V) (v : V) :
    insert (short k₀ c) (k₀ ++ r) v = short k₀ (insert c r v) := by
  have hlen : prefixLen (k₀ ++ r) k₀ = k₀.length := by
    have h := prefixLen_append k₀ r []
    rwa [append_nil, prefixLen_nil_right] at h
  rw [insert, if_pos hlen, drop_left]
  exact hk

theorem insert_short_part (hab : b ≠ a)
    (c : RadixTree n V) (v : V) : insert (short (p ++ a :: r₀) c) (p ++ b :: r) v =
      attach p (fork a (attach r₀ c) b (attach r (value v))) := by
  have hlen : prefixLen (p ++ b :: r) (p ++ a :: r₀) = p.length := by
    rw [prefixLen_append, prefixLen_of_ne hab, Nat.add_zero]
  rw [insert, if_neg (by simp [hlen]), hlen, drop_left, drop_left, take_left]
  simp

theorem insert_full (cs : Fin n → RadixTree n V) (a : Fin n) (k : List (Fin n)) (v : V) :
    insert (full cs) (a :: k) v = full (update cs a (insert (cs a) k v)) := by
  rw [insert]

theorem get_value_short (k k' : List (Fin n)) (v : V) :
    get (short k (value v)) k' = if k' = k then some v else none := by
  by_cases hp : k <+: k'
  · obtain ⟨r, rfl⟩ := hp
    simp [get]
  rw [get_short_none hp, if_neg]
  rintro rfl
  exact hp prefix_rfl

theorem get_fork (hab : b ≠ a) (ta tb : RadixTree n V) (x : Fin n) (k : List (Fin n)) :
    get (fork a ta b tb) (x :: k) = if x = b then get tb k else if x = a then get ta k else none := by
  rw [fork, get_full_cons]
  by_cases hb : x = b
  · simp [hb]
  by_cases ha : x = a
  · subst x
    simp [hab.symm]
  · simp [ha, hb]

theorem get_insert {e : Fin n} (h : Fits e k t) (v : V)
    (k' : List (Fin n)) : get (insert t k v) k' = if k' = k then some v else get t k' := by
  induction t generalizing k k' with
  | nil =>
    by_cases hk : k = []
    · subst k
      simp [insert_nil_key, get]
    · rw [insert_nil hk, get_value_short, get_nil]
  | value w =>
    by_cases hk : k = []
    · subst k
      simp only [insert_nil_key, get]
      split <;> rfl
    · exact (h.typed hk).2.elim
  | short k₀ c ih =>
    by_cases hk : k = []
    · subst k
      obtain h | h := h.nil_key <;> cases h
    obtain ⟨r, rfl⟩ | ⟨p, b, r, a, r₀, hab, rfl, rfl⟩ := h.part hk
    · rw [insert_short_append hk]
      by_cases hp : k₀ <+: k'
      · obtain ⟨s, rfl⟩ := hp
        rw [get_short_append, get_short_append, ih (h.below hk)]
        simp
      rw [get_short_none hp, get_short_none hp, if_neg]
      rintro rfl
      exact hp (prefix_append _ _)
    rw [insert_short_part hab, get_attach]
    by_cases hp : p <+: k'
    · obtain ⟨s, rfl⟩ := hp
      rw [get_short_append]
      cases s with
      | nil =>
        rw [fork, get_full_nil, if_neg (by simp), get_short_none]
        intro hpre
        have hle := hpre.length_le
        simp only [length_append, length_cons, length_nil] at hle
        omega
      | cons x s =>
        rw [get_fork hab]
        by_cases hb : x = b
        · subst x
          rw [if_pos rfl, get_attach, get_value_short]
          have hnone : get (short (p ++ a :: r₀) c) (p ++ b :: s) = none :=
            get_short_none (by simp [hab.symm]) c
          simp [hnone]
        have hne : p ++ x :: s ≠ p ++ b :: r := by simp [hb]
        rw [if_neg hb, if_neg hne]
        by_cases ha : x = a
        · subst x
          rw [if_pos rfl, get_attach]
          by_cases hr : r₀ <+: s
          · obtain ⟨s', rfl⟩ := hr
            have happ : p ++ a :: (r₀ ++ s') = (p ++ a :: r₀) ++ s' := by simp
            rw [get_short_append, happ, get_short_append]
          · rw [get_short_none hr, get_short_none (by simpa using hr)]
        rw [if_neg ha, get_short_none]
        simpa using fun hax => (ha hax.symm).elim
    have hne : ∀ x r', k' ≠ p ++ x :: r' := by
      rintro x r' rfl
      exact hp (prefix_append _ _)
    rw [get_short_none hp, if_neg (hne _ _), get_short_none]
    exact fun hpre => hp ((prefix_append _ _).trans hpre)
  | full cs ih =>
    cases k with
    | nil => obtain h | h := h.nil_key <;> cases h
    | cons a k =>
      rw [insert_full]
      cases k' with
      | nil => simp
      | cons x k' =>
        rw [get_full_cons, get_full_cons]
        by_cases hx : x = a
        · subst x
          rw [update_self, ih a h.child]
          simp
        · rw [update_of_ne hx, if_neg (by simp [hx])]

theorem typed_attach {e} (hk : k ≠ []) (h : Typed e (short k t)) : Typed e (attach k t) := by
  rwa [attach, if_neg hk]

theorem fits_attach {e} (h : Typed e (short (a :: r) c)) :
    (a = e → attach r c = nil ∨ (attach r c).isValue = true) ∧ (a ≠ e → Typed e (attach r c)) := by
  obtain ⟨hterm, hc⟩ | ⟨hmem, hc⟩ := h
  · rw [Terminated] at hterm
    split at hterm
    · next ha =>
      subst hterm
      exact ⟨fun _ => .inr hc, fun hne => (hne ha).elim⟩
    next ha =>
      refine ⟨fun h => (ha h).elim, fun _ => typed_attach hterm.ne_nil (.inl ⟨hterm, hc⟩)⟩
  rw [mem_cons, not_or] at hmem
  refine ⟨fun h => (hmem.1 h.symm).elim, fun _ => ?_⟩
  by_cases hr : r = []
  · rwa [attach, if_pos hr]
  · exact typed_attach hr (.inr ⟨hmem.2, hc⟩)

theorem typed_short_append {e} (hr : r ≠ [])
    (h : Typed e (short (p ++ r) c)) : e ∉ p ∧ Typed e (short r c) := by
  obtain ⟨hterm, hc⟩ | ⟨hmem, hc⟩ := h
  · have hsplit := (terminated_append hr).mp hterm
    exact ⟨hsplit.1, .inl ⟨hsplit.2, hc⟩⟩
  rw [mem_append, not_or] at hmem
  exact ⟨hmem.1, .inr ⟨hmem.2, hc⟩⟩

theorem typed_fork {e} (hc : Typed e (short (a :: r₀) c)) (hd : Typed e (short (b :: r) d)) :
    Typed e (fork a (attach r₀ c) b (attach r d)) := by
  rw [fork, Typed]
  constructor
  · by_cases hb : e = b
    · subst b
      rw [update_self]
      exact (fits_attach hd).1 rfl
    rw [update_of_ne hb]
    by_cases ha : e = a
    · subst a
      rw [update_self]
      exact (fits_attach hc).1 rfl
    rw [update_of_ne ha]
    exact .inl rfl
  intro i hi
  by_cases hb : i = b
  · subst b
    rw [update_self]
    exact (fits_attach hd).2 hi
  rw [update_of_ne hb]
  by_cases ha : i = a
  · subst a
    rw [update_self]
    exact (fits_attach hc).2 hi
  rw [update_of_ne ha]
  trivial

theorem typed_full_update {e} (hcs : Typed e (full cs)) (hterm : Terminated e (a :: k)) (h : Fits e k t) :
    Typed e (full (update cs a t)) := by
  obtain ⟨hterminator, hother⟩ := hcs
  by_cases ha : a = e
  · subst a
    rw [Terminated, if_pos rfl] at hterm
    subst k
    refine ⟨?_, fun i hi => ?_⟩
    · rw [update_self]
      exact h.nil_key
    rw [update_of_ne hi]
    exact hother i hi
  rw [Terminated, if_neg ha] at hterm
  refine ⟨?_, fun i hi => ?_⟩
  · rw [update_of_ne (Ne.symm ha)]
    exact hterminator
  by_cases hia : i = a
  · subst i
    rw [update_self]
    exact (h.typed hterm.ne_nil).2
  rw [update_of_ne hia]
  exact hother i hi

theorem fits_insert {e} (h : Fits e k t) (v : V) : Fits e k (insert t k v) := by
  induction t generalizing k with
  | nil =>
    by_cases hk : k = []
    · exact .inl ⟨hk, .inr (by rw [hk, insert_nil_key]; rfl)⟩
    have hterm := (h.typed hk).1
    rw [insert_nil hk]
    exact .inr ⟨hterm, .inl ⟨hterm, rfl⟩⟩
  | value w =>
    by_cases hk : k = []
    · exact .inl ⟨hk, .inr (by rw [hk, insert_nil_key]; rfl)⟩
    · exact (h.typed hk).2.elim
  | short k₀ c ih =>
    by_cases hk : k = []
    · subst k
      obtain h | h := h.nil_key <;> cases h
    obtain ⟨hterm, htyped⟩ := h.typed hk
    obtain ⟨r, rfl⟩ | ⟨p, b, r, a, r₀, hab, rfl, rfl⟩ := h.part hk
    · rw [insert_short_append hk]
      have hc := ih (h.below hk)
      refine .inr ⟨hterm, ?_⟩
      obtain ⟨hk₀, _⟩ | ⟨hk₀, _⟩ := htyped
      · obtain rfl := hk₀.eq_of_append hterm
        rw [insert_nil_key]
        exact .inl ⟨hk₀, rfl⟩
      have hr : r ≠ [] := by
        rintro rfl
        rw [append_nil] at hterm
        exact hk₀ hterm.mem
      exact .inr ⟨hk₀, (hc.typed hr).2⟩
    rw [insert_short_part hab]
    obtain ⟨hp, hc⟩ := typed_short_append (by simp) htyped
    have hd : Typed e (short (b :: r) (value v)) :=
      .inl ⟨((terminated_append (by simp)).mp hterm).2, rfl⟩
    have hfork := typed_fork hc hd
    refine .inr ⟨hterm, ?_⟩
    by_cases hpn : p = []
    · rwa [attach, if_pos hpn]
    · exact typed_attach hpn (.inr ⟨hp, hfork⟩)
  | full cs ih =>
    cases k with
    | nil => obtain h | h := h.nil_key <;> cases h
    | cons a k =>
      obtain ⟨hterm, htyped⟩ := h.typed (by simp)
      rw [insert_full]
      exact .inr ⟨hterm, typed_full_update htyped hterm (ih a h.child)⟩

theorem canon_attach (hc : Canon c) (hs : c.isShort = false) : Canon (attach k c) := by
  rw [attach]
  split
  · exact hc
  · next hk => exact ⟨hk, hc, hs⟩

theorem canon_fork (hab : b ≠ a) {ta tb : RadixTree n V} (ha : Canon ta) (hb : Canon tb) :
    Canon (fork a ta b tb) := by
  have hne {t : RadixTree n V} (h : Canon t) : t ≠ nil := by
    rintro rfl
    exact h
  refine ⟨fun i => ?_, a, b, hab.symm, ?_, ?_⟩
  · by_cases hib : i = b
    · subst b
      rw [update_self]
      exact .inr hb
    rw [update_of_ne hib]
    by_cases hia : i = a
    · subst a
      rw [update_self]
      exact .inr ha
    rw [update_of_ne hia]
    exact .inl rfl
  · rw [update_of_ne hab.symm, update_self]
    exact hne ha
  rw [update_self]
  exact hne hb

theorem Canon.ne_nil (h : Canon t) : t ≠ nil := by
  rintro rfl
  exact h

theorem canon_full_update (h : Canon (full cs)) (ht : Canon t) : Canon (full (update cs a t)) := by
  obtain ⟨hcs, i, j, hij, hi, hj⟩ := h
  have hkeep (x : Fin n) (hx : cs x ≠ nil) : update cs a t x ≠ nil := by
    by_cases hxa : x = a
    · subst x
      rw [update_self]
      exact ht.ne_nil
    · rwa [update_of_ne hxa]
  refine ⟨fun x => ?_, i, j, hij, hkeep i hi, hkeep j hj⟩
  by_cases hxa : x = a
  · subst x
    rw [update_self]
    exact .inr ht
  rw [update_of_ne hxa]
  exact hcs x

theorem insert_isShort {e} (h : Fits e r c) (hc : Canon c)
    (hs : c.isShort = false) (v : V) : (insert c r v).isShort = false := by
  cases r with
  | nil => rw [insert_nil_key]; rfl
  | cons a r =>
    cases c with
    | nil => exact hc.elim
    | value w => exact (h.typed (by simp)).2.elim
    | short k c => cases hs
    | full cs => rw [insert_full]; rfl

theorem canon_insert {e : Fin n} (h : Fits e k t)
    (ht : t = nil ∨ Canon t) (v : V) : Canon (insert t k v) := by
  induction t generalizing k with
  | nil =>
    by_cases hk : k = []
    · rw [hk, insert_nil_key]; trivial
    rw [insert_nil hk]
    exact ⟨hk, trivial, rfl⟩
  | value w =>
    by_cases hk : k = []
    · rw [hk, insert_nil_key]; trivial
    · exact (h.typed hk).2.elim
  | short k₀ c ih =>
    obtain hnil | ⟨hk₀, hc, hs⟩ := ht
    · cases hnil
    by_cases hk : k = []
    · subst k
      obtain h | h := h.nil_key <;> cases h
    obtain ⟨r, rfl⟩ | ⟨p, b, r, a, r₀, hab, rfl, rfl⟩ := h.part hk
    · rw [insert_short_append hk]
      exact ⟨hk₀, ih (h.below hk) (.inr hc), insert_isShort (h.below hk) hc hs v⟩
    rw [insert_short_part hab]
    exact canon_attach (canon_fork hab (canon_attach hc hs) (canon_attach trivial rfl)) rfl
  | full cs ih =>
    obtain hnil | ht := ht
    · cases hnil
    cases k with
    | nil => obtain h | h := h.nil_key <;> cases h
    | cons a k =>
      rw [insert_full]
      exact canon_full_update ht (ih a h.child (ht.1 a))

theorem Canon.proper (h : Canon t) : Proper t := by
  induction t with
  | nil => trivial
  | value v => trivial
  | short k c ih => exact ⟨h.1, h.2.1.ne_nil, ih h.2.1⟩
  | full cs ih =>
    intro i
    obtain hn | hc := h.1 i
    · rw [hn]
      trivial
    · exact ih i hc

theorem delete_short_append (hr : r ≠ []) (c : RadixTree n V) :
    delete (short k₀ c) (k₀ ++ r) = merge k₀ (delete c r) := by
  rw [delete, if_pos (prefix_append _ _), if_neg (by simpa using hr), drop_left]

theorem delete_short_self (k₀ : List (Fin n)) (c : RadixTree n V) : delete (short k₀ c) k₀ = nil := by
  rw [delete, if_pos prefix_rfl, if_pos rfl]

theorem delete_short_missed (h : ¬ k₀ <+: k) (c : RadixTree n V) : delete (short k₀ c) k = short k₀ c := by
  rw [delete, if_neg h]

theorem get_delete {e} (h : Fits e k t)
    (k' : List (Fin n)) : get (delete t k) k' = if k' = k then none else get t k' := by
  induction t generalizing k k' with
  | nil => simp [delete]
  | value w =>
    by_cases hk : k = []
    · subst k
      simp only [delete, get_nil, get]
      split <;> rfl
    · exact (h.typed hk).2.elim
  | short k₀ c ih =>
    by_cases hk : k = []
    · subst k
      obtain h | h := h.nil_key <;> cases h
    by_cases hp : k₀ <+: k
    · obtain ⟨r, rfl⟩ := hp
      by_cases hr : r = []
      · subst r
        -- the word ends with the path, so a value stands below it
        obtain ⟨v, rfl⟩ : ∃ v, c = value v := by
          obtain hn | hv := (h.below hk).nil_key
          · subst c
            obtain ⟨hterm, ⟨_, hv⟩ | ⟨hk₀, _⟩⟩ := h.typed hk
            · cases hv
            rw [append_nil] at hterm
            exact (hk₀ hterm.mem).elim
          · exact isValue_iff.mp hv
        rw [append_nil, delete_short_self, get_nil, get_value_short]
        split <;> rfl
      rw [delete_short_append hr, get_merge]
      by_cases hp' : k₀ <+: k'
      · obtain ⟨s, rfl⟩ := hp'
        rw [get_short_append, get_short_append, ih (h.below hk)]
        simp
      · rw [get_short_none hp', get_short_none hp', ite_self]
    rw [delete_short_missed hp]
    split
    · next heq =>
      subst heq
      exact get_short_none hp c
    · rfl
  | full cs ih =>
    cases k with
    | nil => obtain h | h := h.nil_key <;> cases h
    | cons a k =>
      have hfull : get (delete (full cs) (a :: k)) k' = get (full (update cs a (delete (cs a) k))) k' := by
        rw [delete]
        split
        · next hnil => rw [get_reduce, isNil_iff.mp hnil]
        · rfl
      rw [hfull]
      cases k' with
      | nil => simp
      | cons x k' =>
        rw [get_full_cons, get_full_cons]
        by_cases hx : x = a
        · subst x
          rw [update_self, ih a h.child]
          simp
        · rw [update_of_ne hx, if_neg (by simp [hx])]

theorem typed_merge {e} (hk : e ∉ k) (h : Typed e t) : Typed e (merge k t) := by
  cases t with
  | short k' c =>
    obtain ⟨hterm, hc⟩ | ⟨hmem, hc⟩ := h
    · exact .inl ⟨.append hk hterm, hc⟩
    · exact .inr ⟨by simp [hk, hmem], hc⟩
  | nil => exact .inr ⟨hk, h⟩
  | value v => exact h.elim
  | full cs => exact .inr ⟨hk, h⟩

theorem typed_reduce {e} (h : Typed e (full cs)) : Typed e (reduce cs) := by
  rw [reduce]
  split
  · next i hi =>
    obtain ⟨hne, _⟩ := only_eq_some hi
    by_cases hie : i = e
    · subst i
      obtain hnil | hv := h.1
      · exact (hne hnil).elim
      obtain ⟨v, hv⟩ := isValue_iff.mp hv
      rw [hv]
      exact .inl ⟨terminated_singleton.mpr rfl, rfl⟩
    · exact typed_merge (by simpa using Ne.symm hie) (h.2 i hie)
  · exact h

theorem fits_delete {e} (h : Fits e k t) : Fits e k (delete t k) := by
  induction t generalizing k with
  | nil => exact h
  | value w =>
    by_cases hk : k = []
    · exact .inl ⟨hk, .inl rfl⟩
    · exact (h.typed hk).2.elim
  | short k₀ c ih =>
    by_cases hk : k = []
    · subst k
      obtain h | h := h.nil_key <;> cases h
    obtain ⟨hterm, htyped⟩ := h.typed hk
    by_cases hp : k₀ <+: k
    · obtain ⟨r, rfl⟩ := hp
      by_cases hr : r = []
      · subst r
        rw [append_nil, delete_short_self] at *
        exact .inr ⟨hterm, trivial⟩
      rw [delete_short_append hr]
      refine .inr ⟨hterm, typed_merge ((terminated_append hr).mp hterm).1 ?_⟩
      exact ((ih (h.below hk)).typed hr).2
    rw [delete_short_missed hp]
    exact h
  | full cs ih =>
    cases k with
    | nil => obtain h | h := h.nil_key <;> cases h
    | cons a k =>
      obtain ⟨hterm, htyped⟩ := h.typed (by simp)
      have hfull := typed_full_update htyped hterm (ih a h.child)
      rw [delete]
      split
      · next hnil =>
        rw [isNil_iff.mp hnil] at hfull
        exact .inr ⟨hterm, typed_reduce hfull⟩
      · exact .inr ⟨hterm, hfull⟩

theorem canon_merge (hk : k ≠ []) (h : Canon t) : Canon (merge k t) := by
  cases t with
  | short k' c => exact ⟨by simp [hk], h.2⟩
  | nil => exact h.elim
  | value v => exact ⟨hk, h, rfl⟩
  | full cs => exact ⟨hk, h, rfl⟩

theorem canon_reduce (hcs : ∀ i, cs i = nil ∨ Canon (cs i)) (hi : cs i ≠ nil) : Canon (reduce cs) := by
  rw [reduce]
  split
  · next j hj => exact canon_merge (by simp) ((hcs j).resolve_left (only_eq_some hj).1)
  next hnone =>
    obtain ⟨j, hji, hj⟩ := only_eq_none hnone hi
    exact ⟨hcs, i, j, hji.symm, hi, hj⟩

/-- Deleting leaves a full node with something, since it had two children. -/
theorem canon_delete_full (h : Canon (full cs)) (ha : delete (cs a) k = nil ∨ Canon (delete (cs a) k)) :
    Canon (delete (full cs) (a :: k)) := by
  rw [delete]
  split
  · obtain ⟨hcs, i, j, hij, hi, hj⟩ := h
    have hupd (x : Fin n) : update cs a nil x = nil ∨ Canon (update cs a nil x) := by
      by_cases hxa : x = a
      · subst x
        exact .inl (update_self ..)
      rw [update_of_ne hxa]
      exact hcs x
    by_cases hia : i = a
    · have hja : j ≠ a := fun hja => hij (hia.trans hja.symm)
      exact canon_reduce hupd (by rwa [update_of_ne hja])
    · exact canon_reduce hupd (by rwa [update_of_ne hia])
  next hne =>
    exact canon_full_update h (ha.resolve_left (fun hnil => hne (isNil_iff.mpr hnil)))

theorem canon_delete {e} (h : Fits e k t)
    (ht : t = nil ∨ Canon t) : delete t k = nil ∨ Canon (delete t k) := by
  induction t generalizing k with
  | nil => exact .inl rfl
  | value w => exact .inl rfl
  | short k₀ c ih =>
    obtain hnil | ⟨hk₀, hc, hs⟩ := ht
    · cases hnil
    by_cases hk : k = []
    · subst k
      obtain h | h := h.nil_key <;> cases h
    by_cases hp : k₀ <+: k
    · obtain ⟨r, rfl⟩ := hp
      by_cases hr : r = []
      · subst r
        rw [append_nil]
        exact .inl (delete_short_self k₀ c)
      rw [delete_short_append hr]
      obtain hnil | hd := ih (h.below hk) (.inr hc)
      · -- a full node does not vanish
        exfalso
        cases c with
        | nil => exact hc
        | value w => exact ((h.below hk).typed hr).2
        | short k c => cases hs
        | full cs =>
          cases r with
          | nil => exact hr rfl
          | cons a r =>
            refine (canon_delete_full hc ?_).ne_nil hnil
            rw [delete] at hnil
            split at hnil
            · next hn => exact .inl (isNil_iff.mp hn)
            · cases hnil
      · exact .inr (canon_merge hk₀ hd)
    rw [delete_short_missed hp]
    exact .inr ⟨hk₀, hc, hs⟩
  | full cs ih =>
    obtain hnil | ht := ht
    · cases hnil
    cases k with
    | nil => obtain h | h := h.nil_key <;> cases h
    | cons a k => exact .inr (canon_delete_full ht (ih a h.child (ht.1 a)))

theorem prefix_of_get_short {v : V} (h : get (short k c) k' = some v) : k <+: k' := by
  by_contra hp
  rw [get_short_none hp] at h
  cases h

theorem Canon.exists_get (h : Canon t) : ∃ k v, get t k = some v := by
  induction t with
  | nil => exact h.elim
  | value v => exact ⟨[], v, by simp [get]⟩
  | short k c ih =>
    obtain ⟨r, v, hv⟩ := ih h.2.1
    exact ⟨k ++ r, v, by rwa [get_short_append]⟩
  | full cs ih =>
    obtain ⟨hcs, i, _, _, hi, _⟩ := h
    obtain ⟨r, v, hv⟩ := ih i ((hcs i).resolve_left hi)
    exact ⟨i :: r, v, by rwa [get_full_cons]⟩

theorem Canon.exists_get_ne (h : Canon (full cs)) (a : Fin n) :
    ∃ b r v, b ≠ a ∧ get (full cs) (b :: r) = some v := by
  obtain ⟨hcs, i, j, hij, hi, hj⟩ := h
  have hword (x : Fin n) (hx : cs x ≠ nil) : ∃ r v, get (full cs) (x :: r) = some v := by
    obtain ⟨r, v, hv⟩ := ((hcs x).resolve_left hx).exists_get
    exact ⟨r, v, by rwa [get_full_cons]⟩
  by_cases hia : i = a
  · obtain ⟨r, v, hv⟩ := hword j hj
    exact ⟨j, r, v, fun hja => hij (hia.trans hja.symm), hv⟩
  obtain ⟨r, v, hv⟩ := hword i hi
  exact ⟨i, r, v, hia, hv⟩

theorem short_ne_full (hk : k ≠ []) (h : Canon (full cs)) : ∃ x, get (short k c) x ≠ get (full cs) x := by
  cases k with
  | nil => exact (hk rfl).elim
  | cons a k =>
    obtain ⟨b, r, v, hba, hv⟩ := h.exists_get_ne a
    refine ⟨b :: r, ?_⟩
    rw [hv, get_short_none (by simp [Ne.symm hba])]
    simp

theorem short_ne_longer (h : Canon (short k c)) :
    ∃ x, get (short k c) x ≠ get (short (k ++ a :: r) d) x := by
  obtain ⟨_, hc, hs⟩ := h
  cases c with
  | nil => exact hc.elim
  | value v =>
    refine ⟨k, ?_⟩
    rw [get_value_short, if_pos rfl, get_short_none]
    · simp
    intro hp
    have hle := hp.length_le
    simp only [length_append, length_cons] at hle
    omega
  | short k' c => cases hs
  | full cs =>
    obtain ⟨b, s, v, hba, hv⟩ := hc.exists_get_ne a
    refine ⟨k ++ b :: s, ?_⟩
    rw [get_short_append, hv, get_short_none (by simp [Ne.symm hba])]
    simp

theorem canon_ext (h : Canon t) (h' : Canon t') (hget : ∀ k, get t k = get t' k) : t = t' := by
  induction t generalizing t' with
  | nil => exact h.elim
  | value v =>
    have hv := hget []
    cases t' with
    | nil => exact h'.elim
    | value w => simpa [get] using hv
    | short k c =>
      simp only [get, ↓reduceIte, prefix_nil] at hv
      rw [if_neg h'.1] at hv
      cases hv
    | full cs => simp [get] at hv
  | short k c ih =>
    cases t' with
    | nil => exact h'.elim
    | value w =>
      have hw := hget []
      simp only [get, ↓reduceIte, prefix_nil] at hw
      rw [if_neg h.1] at hw
      cases hw
    | full cs =>
      obtain ⟨x, hx⟩ := short_ne_full h.1 h'
      exact (hx (hget x)).elim
    | short k' c' =>
      obtain ⟨r, rfl⟩ | ⟨a, r, rfl⟩ | ⟨p, b, r, a, r₀, hab, rfl, rfl⟩ := prefix_or_part k k'
      · cases r with
        | nil =>
          rw [append_nil] at *
          rw [ih h.2.1 h'.2.1]
          intro x
          have hx := hget (k' ++ x)
          rwa [get_short_append, get_short_append] at hx
        | cons a r =>
          obtain ⟨x, hx⟩ := short_ne_longer h'
          exact (hx (hget x).symm).elim
      · obtain ⟨x, hx⟩ := short_ne_longer (d := c') h
        exact (hx (hget x)).elim
      obtain ⟨x, v, hv⟩ := h.exists_get
      have hx := prefix_of_get_short hv
      rw [hget x] at hv
      have hx' := prefix_of_get_short hv
      exfalso
      obtain ⟨s, rfl⟩ := hx
      simp [hab.symm] at hx'
  | full cs ih =>
    cases t' with
    | nil => exact h'.elim
    | value w =>
      have hw := hget []
      simp [get] at hw
    | short k c =>
      obtain ⟨x, hx⟩ := short_ne_full (c := c) h'.1 h
      exact (hx (hget x).symm).elim
    | full cs' =>
      congr 1
      funext i
      have hi (k : List (Fin n)) : get (cs i) k = get (cs' i) k := by
        simpa using hget (i :: k)
      obtain hn | hc := h.1 i <;> obtain hn' | hc' := h'.1 i
      · rw [hn, hn']
      · obtain ⟨k, v, hv⟩ := hc'.exists_get
        rw [← hi, hn, get_nil] at hv
        cases hv
      · obtain ⟨k, v, hv⟩ := hc.exists_get
        rw [hi, hn', get_nil] at hv
        cases hv
      · exact ih i hc hc' hi

theorem canon_ext_or_nil (h : t = nil ∨ Canon t) (h' : t' = nil ∨ Canon t')
    (hget : ∀ k, get t k = get t' k) : t = t' := by
  obtain rfl | h := h <;> obtain rfl | h' := h'
  · rfl
  · obtain ⟨k, v, hv⟩ := h'.exists_get
    rw [← hget] at hv
    cases hv
  · obtain ⟨k, v, hv⟩ := h.exists_get
    rw [hget] at hv
    cases hv
  · exact canon_ext h h' hget

theorem within_self (t : RadixTree n V) : Within t t := by
  cases t <;> simp [Within]

theorem within_short (h : Within t c) : Within t (short k c) :=
  .inr h

theorem within_full (h : Within t (cs i)) : Within t (full cs) :=
  .inr ⟨i, h⟩

theorem Proper.within (h : Proper t) (hw : Within t' t) : Proper t' := by
  induction t with
  | nil =>
    cases hw
    exact h
  | value v =>
    cases hw
    exact h
  | short k c ih =>
    obtain rfl | hw := hw
    · exact h
    · exact ih h.2.2 hw
  | full cs ih =>
    obtain rfl | ⟨i, hw⟩ := hw
    · exact h
    · exact ih i (h i) hw

theorem Within.trans {t''} (h : Within t t') (h' : Within t' t'') : Within t t'' := by
  induction t'' with
  | nil => cases h'; exact h
  | value v => cases h'; exact h
  | short k c ih =>
    obtain rfl | h' := h'
    · exact h
    · exact within_short (ih h')
  | full cs ih =>
    obtain rfl | ⟨i, h'⟩ := h'
    · exact h
    · exact within_full (ih i h')

theorem Canon.within (h : Canon t) (hw : Within t' t) : t' = nil ∨ Canon t' := by
  induction t with
  | nil =>
    cases hw
    exact .inl rfl
  | value v =>
    cases hw
    exact .inr h
  | short k c ih =>
    obtain rfl | hw := hw
    · exact .inr h
    · exact ih h.2.1 hw
  | full cs ih =>
    obtain rfl | ⟨i, hw⟩ := hw
    · exact .inr h
    obtain hn | hc := h.1 i
    · rw [hn] at hw
      cases hw
      exact .inl rfl
    · exact ih i hc hw

end RadixTree

end Geth.Lib.Radix
