import Mathlib.Data.List.AList
import Mathlib.Data.Finset.Card
import Mathlib.Data.Nat.Find

/-! Chains of linked nodes, from a root up, and an index of one of them by height. -/

namespace Geth.Lib.Ancestry

open List Nat

variable {β η : Type*} {S : Set β} {present : ℕ → Bool}

/-- How the nodes of a tree refer to each other. -/
structure Links (β η : Type*) where
  hash : β → η
  parent : β → η
  number : β → ℕ

/-- The nodes from the root `g` to the last one, each stored under its hash and
its height. -/
structure Chain (L : Links β η) (get : η → ℕ → Option β) (g : β) (cs : List β) : Prop where
  root : cs[0]? = some g
  stored : ∀ {n b}, cs[n]? = some b → get (L.hash b) n = some b ∧ L.number b = n
  linked : ∀ {n a b}, cs[n]? = some a → cs[n + 1]? = some b → L.parent b = L.hash a

namespace Chain

variable {L : Links β η} {get get' : η → ℕ → Option β} {g : β} {cs c' : List β} {n : ℕ} {a b : β}

theorem length_pos (h : Chain L get g cs) : 0 < cs.length := by
  have hroot := h.root
  cases cs with
  | nil => cases hroot
  | cons => exact zero_lt_succ _

theorem singleton (hget : get (L.hash g) 0 = some g) (hnumber : L.number g = 0) : Chain L get g [g] := by
  refine ⟨rfl, fun {n b} h => ?_, fun {n a b} _ h => ?_⟩
  · cases n with
    | zero =>
      cases h
      exact ⟨hget, hnumber⟩
    | succ => cases h
  · cases h

theorem mono (hget : ∀ h n b, get h n = some b → get' h n = some b) (h : Chain L get g cs) :
    Chain L get' g cs :=
  ⟨h.root, fun hb => ⟨hget _ _ _ (h.stored hb).1, (h.stored hb).2⟩, h.linked⟩

variable (h : Chain L get g cs)
include h

theorem take (hn : 0 < n) : Chain L get g (cs.take n) := by
  have hsome {m : ℕ} {b : β} (hb : (cs.take n)[m]? = some b) : cs[m]? = some b := by
    rw [getElem?_take] at hb
    split at hb
    · exact hb
    · cases hb
  refine ⟨?_, fun hb => h.stored (hsome hb), fun ha hb => h.linked (hsome ha) (hsome hb)⟩
  rw [getElem?_take, if_pos hn]
  exact h.root

theorem snoc (ha : cs.getLast? = some a) (hparent : L.parent b = L.hash a)
    (hget : get (L.hash b) cs.length = some b) (hnumber : L.number b = cs.length) :
    Chain L get g (cs ++ [b]) := by
  have hpos := h.length_pos
  have hlast : cs[cs.length - 1]? = some a := by rw [← getLast?_eq_getElem?, ha]
  refine ⟨by rw [getElem?_append_left hpos]; exact h.root, fun {n x} hx => ?_, fun {n x y} hx hy => ?_⟩
  · by_cases hn : n < cs.length
    · rw [getElem?_append_left hn] at hx
      exact h.stored hx
    obtain ⟨hlt, _⟩ := List.getElem?_eq_some_iff.mp hx
    rw [length_append, length_singleton] at hlt
    obtain rfl : n = cs.length := by omega
    rw [getElem?_concat_length] at hx
    cases hx
    exact ⟨hget, hnumber⟩
  by_cases hn : n + 1 < cs.length
  · rw [getElem?_append_left (by omega)] at hx
    rw [getElem?_append_left hn] at hy
    exact h.linked hx hy
  obtain ⟨hlt, _⟩ := List.getElem?_eq_some_iff.mp hy
  rw [length_append, length_singleton] at hlt
  obtain rfl : n = cs.length - 1 := by omega
  rw [getElem?_append_left (by omega), hlast] at hx
  rw [Nat.sub_add_cancel hpos, getElem?_concat_length] at hy
  cases hx
  cases hy
  exact hparent

theorem number_last (hb : cs.getLast? = some b) :
    L.number b + 1 = cs.length ∧ get (L.hash b) (L.number b) = some b := by
  have hpos := h.length_pos
  rw [getLast?_eq_getElem?] at hb
  obtain ⟨hget, hnumber⟩ := h.stored hb
  rw [hnumber]
  exact ⟨by omega, hget⟩

theorem append {l} (ha : cs.getLast? = some a)
    (hl : (a :: l).IsChain fun x y => L.parent y = L.hash x ∧ L.number y = L.number x + 1)
    (hget : ∀ x ∈ l, get (L.hash x) (L.number x) = some x) : Chain L get g (cs ++ l) := by
  induction l generalizing cs a with
  | nil =>
    rw [append_nil]
    exact h
  | cons b l ih =>
    obtain ⟨⟨hparent, hnumber⟩, hrest⟩ := isChain_cons_cons.mp hl
    have hlength := (h.number_last ha).1
    have hb := hget b mem_cons_self
    rw [hnumber, hlength] at hb
    have hsnoc := h.snoc ha hparent hb (by rw [hnumber, hlength])
    have happ := ih hsnoc getLast?_concat hrest fun x hx => hget x (mem_cons_of_mem _ hx)
    rwa [append_assoc, singleton_append] at happ

theorem upto (hb : cs[n]? = some b) :
    Chain L get g (cs.take (n + 1)) ∧ (cs.take (n + 1)).getLast? = some b := by
  refine ⟨h.take (succ_pos n), ?_⟩
  rw [take_add_one, hb]
  exact getLast?_concat

theorem agree (h' : Chain L get g c') (ha : cs[n]? = some a) (hb : c'[n]? = some b)
    (hhash : L.hash a = L.hash b) : cs.take (n + 1) = c'.take (n + 1) := by
  induction n generalizing a b with
  | zero =>
    have hroot := h.root
    have hroot' := h'.root
    rw [take_one, take_one, head?_eq_getElem?, head?_eq_getElem?, hroot, hroot']
  | succ n ih =>
    have heq : a = b := by
      have hget := (h.stored ha).1
      rw [hhash, (h'.stored hb).1] at hget
      exact (Option.some.inj hget).symm
    subst heq
    obtain ⟨hlt, _⟩ := List.getElem?_eq_some_iff.mp ha
    obtain ⟨hlt', _⟩ := List.getElem?_eq_some_iff.mp hb
    obtain ⟨x, hx⟩ : ∃ x, cs[n]? = some x := ⟨_, getElem?_eq_getElem (by omega)⟩
    obtain ⟨y, hy⟩ : ∃ y, c'[n]? = some y := ⟨_, getElem?_eq_getElem (by omega)⟩
    have hxy : L.hash x = L.hash y := (h.linked hx ha).symm.trans (h'.linked hy hb)
    rw [take_add_one, take_add_one (i := n + 1), ih hx hy hxy, ha, hb]

theorem unique (h' : Chain L get g c') (hb : cs.getLast? = some b)
    (hb' : c'.getLast? = some b) : cs = c' := by
  obtain ⟨hlength, _⟩ := h.number_last hb
  obtain ⟨hlength', _⟩ := h'.number_last hb'
  rw [getLast?_eq_getElem?, ← hlength, Nat.add_sub_cancel] at hb
  rw [getLast?_eq_getElem?, ← hlength', Nat.add_sub_cancel] at hb'
  have htake := h.agree h' hb hb' rfl
  rwa [hlength, take_length, ← hlength, hlength', take_length] at htake

theorem step_back (hb : cs[n + 1]? = some b) :
    ∃ a, cs[n]? = some a ∧ L.parent b = L.hash a ∧ get (L.parent b) n = some a := by
  obtain ⟨hlt, _⟩ := List.getElem?_eq_some_iff.mp hb
  obtain ⟨a, ha⟩ : ∃ a, cs[n]? = some a := ⟨_, getElem?_eq_getElem (by omega)⟩
  have hparent := h.linked ha hb
  exact ⟨a, ha, hparent, by rw [hparent]; exact (h.stored ha).1⟩

theorem getElem_of_mem (hb : b ∈ cs) : cs[L.number b]? = some b := by
  obtain ⟨i, hi⟩ := getElem?_of_mem hb
  rw [(h.stored hi).2]
  exact hi

theorem mem_drop_iff {k : ℕ} : b ∈ cs.drop k ↔ b ∈ cs ∧ k ≤ L.number b := by
  constructor
  · intro hb
    obtain ⟨i, hi⟩ := getElem?_of_mem hb
    rw [getElem?_drop] at hi
    rw [(h.stored hi).2]
    exact ⟨mem_of_getElem? hi, le_add_right k i⟩
  rintro ⟨hb, hk⟩
  refine mem_of_getElem? (i := L.number b - k) ?_
  rw [getElem?_drop, Nat.add_sub_cancel' hk]
  exact h.getElem_of_mem hb

theorem mem_of_fork (h' : Chain L get g c') {k : ℕ} (htake : cs.take k = c'.take k)
    (hfork : ∀ n a b, k ≤ n → cs[n]? = some a → c'[n]? = some b → L.hash a ≠ L.hash b) (hb : b ∈ cs) :
    b ∈ c' ↔ L.number b < k := by
  constructor
  · intro hb'
    by_contra hk
    exact hfork _ b b (by omega) (h.getElem_of_mem hb) (h'.getElem_of_mem hb') rfl
  intro hk
  have hget := congrArg (fun l => l[L.number b]?) htake
  simp only [getElem?_take, hk, if_true] at hget
  rw [h.getElem_of_mem hb] at hget
  exact mem_of_getElem? hget.symm

theorem fork (h' : Chain L get g c') : ∃ k, 0 < k ∧ k ≤ cs.length ∧ k ≤ c'.length ∧ cs.take k = c'.take k ∧
      ∀ n a b, k ≤ n → cs[n]? = some a → c'[n]? = some b → L.hash a ≠ L.hash b := by
  classical
  -- the last height at which the chains agree
  let agrees (n : ℕ) : Prop := n < cs.length ∧ n < c'.length ∧ cs.take (n + 1) = c'.take (n + 1)
  have hzero : agrees 0 := by
    refine ⟨h.length_pos, h'.length_pos, ?_⟩
    exact h.agree h' h.root h'.root rfl
  obtain ⟨hlt, hlt', htake⟩ := findGreatest_spec (zero_le cs.length) hzero
  refine ⟨findGreatest agrees cs.length + 1, succ_pos _, hlt, hlt', htake, fun n a b hn ha hb hhash => ?_⟩
  obtain ⟨hna, _⟩ := List.getElem?_eq_some_iff.mp ha
  obtain ⟨hnb, _⟩ := List.getElem?_eq_some_iff.mp hb
  have hle := le_findGreatest (P := agrees) hna.le ⟨hna, hnb, h.agree h' ha hb hhash⟩
  omega

end Chain

/-- Every stored node is of the set `S`, and has a chain. -/
def Rooted (L : Links β η) (S : Set β) (g : β) (get : η → ℕ → Option β) : Prop :=
  ∀ {h n b}, get h n = some b → b ∈ S ∧ L.hash b = h ∧ L.number b = n ∧
    ∃ cs, Chain L get g cs ∧ cs.getLast? = some b

theorem Rooted.start [DecidableEq η] {L : Links β η} {g : β} (hg : g ∈ S)
    (hnumber : L.number g = 0) : let get := fun h n => if h = L.hash g ∧ n = 0 then some g else none
    Rooted L S g get ∧ Chain L get g [g] := by
  intro get
  have hchain : Chain L get g [g] := .singleton (if_pos ⟨rfl, rfl⟩) hnumber
  refine ⟨fun {h n b} hb => ?_, hchain⟩
  change (if _ then _ else _) = _ at hb
  split at hb
  · next heq =>
    cases hb
    exact ⟨hg, heq.1.symm, hnumber.trans heq.2.symm, [g], hchain, rfl⟩
  · cases hb

theorem Rooted.insert [DecidableEq η] {L : Links β η} {g : β} {get : η → ℕ → Option β}
    (hget : Rooted L S g get) (hinj : S.InjOn L.hash) {a b : β} {cs : List β} (hc : Chain L get g cs)
    (ha : cs.getLast? = some a) (hparent : L.parent b = L.hash a) (hnumber : L.number b = L.number a + 1)
    (hb : b ∈ S) : let get' := fun h n => if h = L.hash b ∧ n = L.number b then some b else get h n
    Rooted L S g get' ∧ Chain L get' g (cs ++ [b]) ∧ ∀ h n x, get h n = some x → get' h n = some x := by
  intro get'
  have hkeep (h : η) (n : ℕ) (x : β) (hx : get h n = some x) : get' h n = some x := by
    change (if _ then _ else _) = _
    split
    · next heq =>
      obtain ⟨hxS, hxh, _⟩ := hget hx
      rw [hinj hxS hb (hxh.trans heq.1)]
    · exact hx
  have hself : get' (L.hash b) (L.number b) = some b := if_pos ⟨rfl, rfl⟩
  have hchain : Chain L get' g (cs ++ [b]) := by
    refine (hc.mono hkeep).append ha (isChain_cons_cons.mpr ⟨⟨hparent, hnumber⟩, .singleton b⟩) ?_
    intro x hx
    rw [mem_singleton.mp hx]
    exact hself
  refine ⟨fun {h n x} hx => ?_, hchain, hkeep⟩
  change (if _ then _ else _) = _ at hx
  split at hx
  · next heq =>
    cases hx
    exact ⟨hb, heq.1.symm, heq.2.symm, cs ++ [b], hchain, getLast?_concat⟩
  obtain ⟨hxS, hxh, hxn, c', hc', hl'⟩ := hget hx
  exact ⟨hxS, hxh, hxn, c', hc'.mono hkeep, hl'⟩

/-- The index holds the entries of the list, and nothing above. -/
def Describes (idx : AList fun _ : ℕ => η) (cs : List η) : Prop := ∀ n, idx.lookup n = cs[n]?

namespace Describes

variable {idx : AList fun _ : ℕ => η} {cs : List η} {n : ℕ}

theorem length_le (h : Describes idx cs) : cs.length ≤ idx.entries.length := by
  have hsub : range cs.length ⊆ idx.keys := by
    intro n hn
    have hlt := mem_range.mp hn
    have hsome : (idx.lookup n).isSome := by
      rw [h n, getElem?_eq_getElem hlt]
      rfl
    exact AList.mem_keys.mp (AList.lookup_isSome.mp hsome)
  have hle := (nodup_range.subperm hsub).length_le
  rwa [length_range, AList.keys, keys, length_map] at hle

theorem singleton (x : η) : Describes ((∅ : AList fun _ : ℕ => η).insert 0 x) [x] := by
  intro n
  cases n with
  | zero => exact AList.lookup_insert _
  | succ n => exact AList.lookup_insert_ne (succ_ne_zero n)

end Describes

/-- Entries written at consecutive heights. -/
def put (idx : AList fun _ : ℕ => η) (start : ℕ) : List η → AList fun _ : ℕ => η
  | [] => idx
  | x :: l => put (idx.insert start x) (start + 1) l

theorem lookup_put (idx : AList fun _ : ℕ => η) (start : ℕ) (l : List η) (n : ℕ) :
    (put idx start l).lookup n =
      if start ≤ n ∧ n < start + l.length then l[n - start]? else idx.lookup n := by
  induction l generalizing idx start with
  | nil =>
    rw [put, if_neg]
    intro h
    rw [length_nil] at h
    omega
  | cons x l ih =>
    rw [put, ih, length_cons]
    by_cases hn : n = start
    · subst hn
      rw [if_neg (by omega), if_pos (by omega), AList.lookup_insert, Nat.sub_self]
      rfl
    rw [AList.lookup_insert_ne hn]
    by_cases hin : start + 1 ≤ n ∧ n < start + 1 + l.length
    · rw [if_pos hin, if_pos (by omega), show n - start = n - (start + 1) + 1 by omega,
        getElem?_cons_succ]
    · rw [if_neg hin, if_neg (by omega)]

/-- The heights from a given one on that have an entry; `none` is a loop that
did not end within the fuel. -/
def occupied (present : ℕ → Bool) : ℕ → ℕ → Option (List ℕ)
  | 0, _ => none
  | fuel + 1, i => if present i then (occupied present fuel (i + 1)).map (i :: ·) else some []

theorem occupied_spec {top : ℕ} (h : ∀ n, present n = true ↔ n < top) {fuel i : ℕ}
    (hfuel : top < fuel + i) (hpos : 0 < fuel) :
    occupied present fuel i = some (List.range' i (top - i)) := by
  induction fuel generalizing i with
  | zero => omega
  | succ fuel ih =>
    rw [occupied]
    by_cases hlt : i < top
    · rw [if_pos ((h i).mpr hlt), ih (by omega) (by omega), show top - i = top - (i + 1) + 1 by omega,
        range'_succ]
      rfl
    rw [if_neg (fun hp => hlt ((h i).mp hp)), show top - i = 0 by omega]
    rfl

theorem lookup_erase_all {κ : Type*} [DecidableEq κ] (idx : AList fun _ : κ => η) (l : List κ) (n : κ) :
    (l.foldl (fun m i => m.erase i) idx).lookup n = if n ∈ l then none else idx.lookup n := by
  induction l generalizing idx with
  | nil => rfl
  | cons i l ih =>
    rw [foldl_cons, ih]
    by_cases hl : n ∈ l
    · rw [if_pos hl, if_pos (mem_cons_of_mem _ hl)]
    rw [if_neg hl]
    by_cases hn : n = i
    · subst hn
      rw [if_pos mem_cons_self, AList.lookup_erase]
    rw [AList.lookup_erase_ne hn, if_neg]
    simp only [mem_cons, hn, hl, or_self, not_false_eq_true]

theorem Describes.cut {idx : AList fun _ : ℕ => η} {cs : List η} (h : Describes idx cs)
    (hpresent : ∀ n, present n = true ↔ n < cs.length) (i : ℕ) :
    ∃ above, occupied present (idx.entries.length + 1) i = some above ∧
      Describes (above.foldl (fun m n => m.erase n) idx) (cs.take i) := by
  have hle := h.length_le
  refine ⟨_, occupied_spec hpresent (by omega) (succ_pos _), fun n => ?_⟩
  rw [lookup_erase_all, getElem?_take, h n]
  simp only [mem_range'_1]
  by_cases hn : n < i
  · rw [if_neg (by omega), if_pos hn]
  rw [if_neg hn]
  split
  · rfl
  · exact getElem?_eq_none (by omega)

end Geth.Lib.Ancestry
