import Mathlib.Data.List.Basic

/-! Everything that is reached from a node by following links, each node before
those it links to. -/

namespace Geth.Lib.Descent

open List Option Nat

variable {α β σ : Type*} {children : α → List α} {ys : List β} {x : α}

/-- A node and all below it. The fuel bounds the length of a path. -/
def visit (children : α → List α) : ℕ → α → Option (List α)
  | 0, _ => none
  | fuel + 1, a => do
    let below ← (children a).mapM (visit children fuel)
    return a :: below.flatten

variable {f : α → Option β} {a : α} {l : List α} {fuel : ℕ}

theorem mapM_cons_eq_some (h : (a :: l).mapM f = some ys) :
    ∃ y zs, f a = some y ∧ l.mapM f = some zs ∧ ys = y :: zs := by
  rw [mapM_cons] at h
  obtain ⟨y, hy, h⟩ := bind_eq_some_iff.mp h
  obtain ⟨zs, hzs, h⟩ := bind_eq_some_iff.mp h
  exact ⟨y, zs, hy, hzs, (some.inj h).symm⟩

theorem mem_of_mapM (h : l.mapM f = some ys) :
    (∀ y ∈ ys, ∃ a ∈ l, f a = some y) ∧ ∀ a ∈ l, ∃ y ∈ ys, f a = some y := by
  induction l generalizing ys with
  | nil =>
    rw [mapM_nil] at h
    obtain rfl : [] = ys := some.inj h
    exact ⟨fun y hy => absurd hy not_mem_nil, fun a ha => absurd ha not_mem_nil⟩
  | cons a l ih =>
    obtain ⟨y, zs, hy, hzs, rfl⟩ := mapM_cons_eq_some h
    obtain ⟨hfrom, hto⟩ := ih hzs
    refine ⟨?_, ?_⟩
    · intro x hx
      obtain rfl | hx := mem_cons.mp hx
      · exact ⟨a, mem_cons_self, hy⟩
      obtain ⟨a', ha', hf⟩ := hfrom x hx
      exact ⟨a', mem_cons_of_mem _ ha', hf⟩
    intro x hx
    obtain rfl | hx := mem_cons.mp hx
    · exact ⟨y, mem_cons_self, hy⟩
    obtain ⟨y', hy', hf⟩ := hto x hx
    exact ⟨y', mem_cons_of_mem _ hy', hf⟩

theorem exists_mapM (h : ∀ a ∈ l, ∃ y, f a = some y) : ∃ ys, l.mapM f = some ys := by
  induction l with
  | nil => exact ⟨[], mapM_nil⟩
  | cons a l ih =>
    obtain ⟨y, hy⟩ := h a mem_cons_self
    obtain ⟨ys, hys⟩ := ih fun x hx => h x (mem_cons_of_mem _ hx)
    exact ⟨y :: ys, by rw [mapM_cons, hy, hys]; rfl⟩

section

variable (h : visit children fuel a = some l)
include h

theorem visit_eq_some : ∃ k below, fuel = k + 1 ∧ (children a).mapM (visit children k) = some below ∧
      l = a :: below.flatten := by
  cases fuel with
  | zero => cases h
  | succ k =>
    obtain ⟨below, hbelow, h⟩ := bind_eq_some_iff.mp h
    exact ⟨k, below, rfl, hbelow, (some.inj h).symm⟩

theorem mem_visit_self : a ∈ l := by
  obtain ⟨k, below, rfl, hbelow, rfl⟩ := visit_eq_some h
  exact mem_cons_self

theorem mem_visit_child {y : α} (hx : x ∈ l) (hy : y ∈ children x) : y ∈ l := by
  induction fuel generalizing a l with
  | zero => cases h
  | succ k ih =>
    obtain ⟨k', below, hk, hbelow, rfl⟩ := visit_eq_some h
    obtain rfl : k = k' := succ.inj hk
    obtain ⟨hfrom, hto⟩ := mem_of_mapM hbelow
    apply mem_cons_of_mem
    obtain rfl | hx := mem_cons.mp hx
    · obtain ⟨ly, hly, hv⟩ := hto y hy
      exact mem_flatten.mpr ⟨ly, hly, mem_visit_self hv⟩
    obtain ⟨lc, hlc, hxc⟩ := mem_flatten.mp hx
    obtain ⟨c, -, hv⟩ := hfrom lc hlc
    exact mem_flatten.mpr ⟨lc, hlc, ih hv hxc⟩

theorem start_of_mem_visit
    (hx : x ∈ l) {P : α → Prop} (hP : ∀ p c, c ∈ children p → P c → P p) (hPx : P x) : P a := by
  induction fuel generalizing a l with
  | zero => cases h
  | succ k ih =>
    obtain ⟨k', below, hk, hbelow, rfl⟩ := visit_eq_some h
    obtain rfl : k = k' := succ.inj hk
    obtain rfl | hx := mem_cons.mp hx
    · exact hPx
    obtain ⟨lc, hlc, hxc⟩ := mem_flatten.mp hx
    obtain ⟨c, hc, hv⟩ := (mem_of_mapM hbelow).1 lc hlc
    exact hP a c hc (ih hv hxc)

end

theorem exists_visit (height : α → ℕ → Prop) {bound : ℕ}
    (hstep : ∀ p n, height p n → ∀ c ∈ children p, ∃ m, n < m ∧ m < bound ∧ height c m)
    {n : ℕ} (ha : height a n) (hn : n < bound) (hfuel : bound ≤ fuel + n) :
    ∃ l, visit children fuel a = some l := by
  induction fuel generalizing a n with
  | zero => omega
  | succ k ih =>
    obtain ⟨below, hbelow⟩ : ∃ below, (children a).mapM (visit children k) = some below := by
      apply exists_mapM
      intro c hc
      obtain ⟨m, hnm, hm, hcm⟩ := hstep a n ha c hc
      exact ih hcm hm (by omega)
    exact ⟨a :: below.flatten, by rw [visit, hbelow]; rfl⟩

/-- An action on all nodes of a visit, in its order: what it achieves at a node
given that it achieved it at the parent, and keeps, it achieves at all. -/
theorem foldl_visit {f : σ → α → σ} {P : σ → α → Prop} (hkeep : ∀ s x y, P s y → P (f s x) y)
    (hstep : ∀ s p c, P s p → c ∈ children p → P (f s c) c) (h : visit children fuel a = some l)
    {s : σ}
    (ha : P (f s a) a) : ∀ x ∈ l, P (l.foldl f s) x := by
  have hkeeps : ∀ (l : List α) s y, P s y → P (l.foldl f s) y := by
    intro l
    induction l with
    | nil => exact fun _ _ h => h
    | cons x l ih => exact fun s y h => ih (f s x) y (hkeep s x y h)
  induction fuel generalizing a l s with
  | zero => cases h
  | succ k ih =>
    obtain ⟨k', below, hk, hbelow, rfl⟩ := visit_eq_some h
    obtain rfl : k = k' := succ.inj hk
    rw [foldl_cons]
    -- the lists of the children, one after the other
    have hrest : ∀ (cs : List α) (ls : List (List α)) s, (∀ c ∈ cs, c ∈ children a) →
        cs.mapM (visit children k) = some ls → P s a →
        ∀ x ∈ ls.flatten, P (ls.flatten.foldl f s) x := by
      intro cs
      induction cs with
      | nil =>
        intro ls s _ hls _ x hx
        rw [mapM_nil] at hls
        obtain rfl : [] = ls := some.inj hls
        exact absurd hx not_mem_nil
      | cons c cs ihc =>
        intro ls s hcs hls hs x hx
        obtain ⟨lc, ls, hlc, hls', rfl⟩ := mapM_cons_eq_some hls
        rw [flatten_cons] at hx ⊢
        rw [foldl_append]
        obtain hx | hx := mem_append.mp hx
        · apply hkeeps
          exact ih hlc (hstep s a c hs (hcs c mem_cons_self)) x hx
        · exact ihc ls _ (fun c hc => hcs c (mem_cons_of_mem _ hc)) hls' (hkeeps lc s a hs) x hx
    intro x hx
    obtain rfl | hx := mem_cons.mp hx
    · exact hkeeps _ _ _ ha
    · exact hrest _ below _ (fun _ hc => hc) hbelow ha x hx

end Geth.Lib.Descent
