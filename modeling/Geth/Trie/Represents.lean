import Geth.Trie.Merkle
import Geth.Trie.Operations

namespace Geth.Trie.Represents

open Lib.BigEndian Lib.Radix Common.Basic Encoding Decode Merkle NodeStore
open Operations Function List

/-- What the flags of a node with contents `t` may say. `S` are the trees that
the database holds in full; `f` stands for the root, which is hashed whatever
its size; `b` says that all hashes have been noted. -/
structure FlagOk (C : Crypto) (S : Patricia → Prop) (f b : Bool) (fl : NodeFlag) (t : Patricia) : Prop where
  hash : ∀ h, fl.hash = some h → h = hashOf C t ∧ (f = true ∨ 32 ≤ size C t)
  clean : fl.dirty = false → S t ∨ (f = false ∧ size C t < 32)
  noted : b = true → fl.hash = none → f = false ∧ size C t < 32

/-- The node stands for the tree: hash nodes stand for trees in the database. -/
inductive Rep (C : Crypto) (S : Patricia → Prop) : Bool → Bool → Node → Patricia → Prop where
  | nil {f b : Bool} : Rep C S f b .nil .nil
  | value {f b : Bool} (v : Bytes) : Rep C S f b (.value v) (.value v)
  | hash {f b : Bool} {t : Patricia} (hi : isInner t = true) (hf : f = true ∨ 32 ≤ size C t)
      (hS : S t) : Rep C S f b (.hash (hashOf C t)) t
  | short {f b : Bool} {k : List Nibble} {v : Node} {c : Patricia} {fl : NodeFlag}
      (hv : Rep C S false (b || fl.hash.isSome) v c) (hfl : FlagOk C S f b fl (.short k c)) :
      Rep C S f b (.short k v fl) (.short k c)
  | full {f b : Bool} {cs : Nibble → Node} {ts : Nibble → Patricia} {fl : NodeFlag}
      (hcs : ∀ i, Rep C S false (b || fl.hash.isSome) (cs i) (ts i))
      (hfl : FlagOk C S f b fl (.full ts)) : Rep C S f b (.full cs fl) (.full ts)

def isBranch : Node → Bool
  | .short _ _ _ => true
  | .full _ _ => true
  | _ => false

def isHash : Node → Bool
  | .hash _ => true
  | _ => false

/-- The database returns the trees it holds, with the hashes noted. -/
def Serves (C : Crypto) (S : Patricia → Prop) (db : Database) : Prop :=
  ∀ t, isInner t = true → S t →
    ∃ n, db.node (hashOf C t) = .ok n ∧ isBranch n = true ∧ Rep C S true true n t

/-- As before, but some of the nodes may be missing. -/
def Answers (C : Crypto) (S : Patricia → Prop) (miss : Prop) (db : Database) : Prop :=
  ∀ t, isInner t = true → S t → (miss ∧ db.node (hashOf C t) = .ok .nil) ∨
    ∃ n, db.node (hashOf C t) = .ok n ∧ isBranch n = true ∧ Rep C S true true n t

/-- An operation that stopped at a node the database does not have. -/
def Missed {α : Type} (miss : Prop) (r : Except TrieError α) : Prop :=
  miss ∧ ∃ h path, r = .error (.missingNode h path)

theorem Missed.resolve {α : Type} {r : Except TrieError α} {p : Prop} (h : Missed False r ∨ p) : p :=
  h.resolve_left fun hm => hm.1

theorem Missed.bind {α β : Type} {miss : Prop} {r} (h : Missed miss r)
    (k : α → Except TrieError β) : Missed miss (r >>= k) := by
  obtain ⟨hm, h, path, rfl⟩ := h
  exact ⟨hm, h, path, rfl⟩

variable {C : Crypto} {S : Patricia → Prop} {miss : Prop} {db : Database} {f b : Bool} {b' : Bool}
    {a : Nibble}

theorem Serves.answers (h : Serves C S db) : Answers C S False db := fun t hi hS => .inr (h t hi hS)

variable {t : Patricia} {n : Node} {k rest key : List Nibble} {fuel : ℕ} {cs : Nibble → Node}
    {ts : Nibble → Patricia}

theorem FlagOk.relax {fl} (h : FlagOk C S f b fl t) (hb : b' = true → b = true) : FlagOk C S f b' fl t :=
  ⟨h.hash, h.clean, fun hb' => h.noted (hb hb')⟩

theorem flagOk_newFlag (f : Bool) (t : Patricia) : FlagOk C S f false newFlag t where
  hash _ h := by cases h
  clean h := by cases h
  noted h := by cases h

/-- A node with all hashes noted may stand where they need not be. -/
theorem Rep.relax (h : Rep C S f b n t) (hb : b' = true → b = true) : Rep C S f b' n t := by
  induction h generalizing b' with
  | nil => exact .nil
  | value v => exact .value v
  | hash hi hf hS => exact .hash hi hf hS
  | short hv hfl ih =>
    refine .short (ih fun h => ?_) (hfl.relax hb)
    rw [Bool.or_eq_true] at h ⊢
    exact h.imp_left hb
  | full hcs hfl ih =>
    refine .full (fun i => ih i fun h => ?_) (hfl.relax hb)
    rw [Bool.or_eq_true] at h ⊢
    exact h.imp_left hb

theorem Rep.plain (h : Rep C S f b n t) : Rep C S f false n t :=
  h.relax (fun h => by cases h)

theorem Rep.mono {S'} (hS : ∀ t, S t → S' t) (h : Rep C S f b n t) : Rep C S' f b n t := by
  have hflag {f b : Bool} {fl : NodeFlag} {t : Patricia} (hfl : FlagOk C S f b fl t) :
      FlagOk C S' f b fl t :=
    ⟨hfl.hash, fun hd => (hfl.clean hd).imp_left (hS t), hfl.noted⟩
  induction h with
  | nil => exact .nil
  | value v => exact .value v
  | hash hi hf hs => exact .hash hi hf (hS _ hs)
  | short hv hfl ih => exact .short ih (hflag hfl)
  | full hcs hfl ih => exact .full ih (hflag hfl)

theorem Rep.of_large (h : Rep C S true b n t) (hl : 32 ≤ size C t) : Rep C S f b n t := by
  have hflag {fl : NodeFlag} (hfl : FlagOk C S true b fl t) : FlagOk C S f b fl t := by
    refine ⟨fun h hh => ⟨(hfl.hash h hh).1, .inr hl⟩, fun hd => ?_, fun hb hn => ?_⟩
    · obtain hS | ⟨hf, _⟩ := hfl.clean hd
      · exact .inl hS
      · cases hf
    · cases (hfl.noted hb hn).1
  cases h with
  | nil => exact .nil
  | value v => exact .value v
  | hash hi hf hS => exact .hash hi (.inr hl) hS
  | short hv hfl => exact .short hv (hflag hfl)
  | full hcs hfl => exact .full hcs (hflag hfl)

theorem Rep.isNil_iff (h : Rep C S f b n t) : n.isNil = t.isNil := by
  cases h with
  | nil => rfl
  | value v => rfl
  | hash hi hf hS =>
    cases t with
    | nil => cases hi
    | value v => rfl
    | short k c => rfl
    | full cs => rfl
  | short hv hfl => rfl
  | full hcs hfl => rfl

/-- The steps of a walk along `key` from a node, a resolved hash being one. -/
def steps (n : Node) (key : List Nibble) : ℕ := 2 * key.length + (if isHash n then 1 else 0) + 1

theorem steps_le (n : Node) (key : List Nibble) : steps n key ≤ fuelFor key := by
  rw [steps, fuelFor]
  split <;> omega

theorem steps_of_branch (h : isBranch n = true) (key : List Nibble) : steps n key = 2 * key.length + 1 := by
  cases n with
  | nil => cases h
  | value v => cases h
  | hash h' => cases h
  | short k v fl => rfl
  | full cs fl => rfl

theorem steps_below {v : Node} (hn : isBranch n = true) (hk : k ≠ [])
    (h : steps n (k ++ rest) ≤ fuel + 1) : steps v rest ≤ fuel := by
  have hpos := length_pos_of_ne_nil hk
  have hle := steps_le v rest
  rw [steps_of_branch hn, length_append] at h
  rw [fuelFor] at hle
  omega

theorem resolveHash_spec (hdb : Answers C S miss db) (hi : isInner t = true)
    (hf : f = true ∨ 32 ≤ size C t) (hS : S t) (path : List Nibble) :
    Missed miss (resolveHash db (hashOf C t) path) ∨
      ∃ n, resolveHash db (hashOf C t) path = .ok n ∧ isBranch n = true ∧ Rep C S f true n t := by
  obtain ⟨hm, hnil⟩ | ⟨n, hn, hbranch, hrep⟩ := hdb t hi hS
  · exact .inl ⟨hm, hashOf C t, path, by rw [resolveHash, hnil]⟩
  refine .inr ⟨n, ?_, hbranch, ?_⟩
  · rw [resolveHash, hn]
    cases n with
    | nil => cases hbranch
    | value v => rfl
    | hash h => rfl
    | short k v fl => rfl
    | full cs fl => rfl
  obtain rfl | hl := hf
  · exact hrep
  · exact hrep.of_large hl

theorem resolveHash_of_serves (hdb : Serves C S db) (hi : isInner t = true)
    (hf : f = true ∨ 32 ≤ size C t) (hS : S t) (path : List Nibble) :
    ∃ n, resolveHash db (hashOf C t) path = .ok n ∧ isBranch n = true ∧ Rep C S f true n t :=
  Missed.resolve (resolveHash_spec hdb.answers hi hf hS path)

theorem fits_ne_nil_of_isInner (h : t.Fits terminator key) (hi : isInner t = true) : key ≠ [] := by
  rintro rfl
  obtain rfl | hv := h.nil_key
  · cases hi
  obtain ⟨v, rfl⟩ := RadixTree.isValue_iff.mp hv
  cases hi

theorem get_value_of_fits {v} (h : (RadixTree.value v : Patricia).Fits terminator key) : key = [] := by
  by_contra hk
  exact (h.typed hk).2

/-- `tryGet` finds what the tree holds, and leaves a node for the same tree. -/
theorem tryGet_spec (hdb : Answers C S miss db)
    (h : Rep C S f b n t) (hp : t.Proper) (hfit : t.Fits terminator key) (hfuel : steps n key ≤ fuel)
    (path : List Nibble) : Missed miss (tryGet db fuel n path key) ∨
      ∃ n' r, tryGet db fuel n path key = .ok (t.get key, n', r) ∧ Rep C S f b n' t := by
  induction fuel generalizing n t key path f b with
  | zero => exact absurd hfuel (by simp [steps])
  | succ fuel ih =>
    cases h with
    | nil => exact .inr ⟨.nil, false, by simp [tryGet], .nil⟩
    | value v =>
      obtain rfl := get_value_of_fits hfit
      exact .inr ⟨.value v, false, rfl, .value v⟩
    | hash hi hf hS =>
      rw [tryGet]
      obtain hmiss | ⟨rn, hrn, hbranch, hrep⟩ := resolveHash_spec hdb hi hf hS path
      · exact .inl (hmiss.bind _)
      have hsteps := steps_of_branch hbranch key
      rw [steps, isHash, if_pos rfl] at hfuel
      rw [hrn]
      obtain hmiss | ⟨n', r, hget, hrep'⟩ := ih (hrep.relax fun _ => rfl) hp hfit (by omega) path
      · exact .inl (hmiss.bind _)
      refine .inr ⟨n', true, ?_, hrep'⟩
      simp only [bind, Except.bind, hget]
      rfl
    | @short _ _ k v c fl hv hfl =>
      have hk := fits_ne_nil_of_isInner hfit rfl
      by_cases hpre : k <+: key
      · obtain ⟨rest, rfl⟩ := hpre
        rw [tryGet, if_pos (prefix_append _ _), drop_left, RadixTree.get_short_append]
        obtain hmiss | ⟨n', r, hget, hrep'⟩ :=
          ih hv hp.2.2 (hfit.below hk) (steps_below rfl hp.1 hfuel) (path ++ k)
        · exact .inl (hmiss.bind _)
        refine .inr ⟨.short k (if r then n' else v) fl, r, by rw [hget]; rfl, .short ?_ hfl⟩
        cases r with
        | false => exact hv
        | true => exact hrep'
      refine .inr ⟨.short k v fl, false, ?_, .short hv hfl⟩
      rw [tryGet, if_neg hpre, RadixTree.get_short_none hpre]
    | @full _ _ cs ts fl hcs hfl =>
      cases key with
      | nil => exact (fits_ne_nil_of_isInner hfit rfl rfl).elim
      | cons a key =>
        rw [tryGet, RadixTree.get_full_cons]
        obtain hmiss | ⟨n', r, hget, hrep'⟩ := ih (hcs a) (hp a) hfit.child
          (steps_below (k := [a]) rfl (by simp) hfuel) (path ++ [a])
        · exact .inl (hmiss.bind _)
        refine .inr ⟨.full (if r then update cs a n' else cs) fl, r, by rw [hget]; rfl,
          .full (fun i => ?_) hfl⟩
        cases r with
        | false => exact hcs i
        | true =>
          rw [if_pos rfl]
          by_cases hi : i = a
          · subst i
            rwa [update_self]
          rw [update_of_ne hi]
          exact hcs i

theorem rep_update {n' : Node} {t'}
    (hcs : ∀ i, Rep C S false b (cs i) (ts i)) (h : Rep C S false b n' t') (i : Nibble) :
    Rep C S false b (update cs a n' i) (update ts a t' i) := by
  by_cases hi : i = a
  · subst i
    rwa [update_self, update_self]
  rw [update_of_ne hi, update_of_ne hi]
  exact hcs i

/-- A node below a path that may be empty. -/
def attachNode (k : List Nibble) (n : Node) : Node := if k = [] then n else .short k n newFlag

theorem attachNode_of_ne (hk : k ≠ []) (n : Node) : attachNode k n = .short k n newFlag :=
  if_neg hk

theorem insert_nil_node (fuel : ℕ) (path k : List Nibble) (value : Node) :
    insert db (fuel + 1) .nil path k value = .ok (true, attachNode k value) := by
  cases k <;> rfl

theorem rep_attachNode (h : Rep C S false false n t) (k : List Nibble) :
    Rep C S false false (attachNode k n) (t.attach k) := by
  rw [attachNode, RadixTree.attach]
  split
  · exact h
  · exact .short h (flagOk_newFlag _ _)

theorem insert_short_match (hk : k ++ rest ≠ []) (val : Node)
    (fl : NodeFlag) (path : List Nibble) (value : Node) :
    insert db (fuel + 1) (.short k val fl) path (k ++ rest) value =
      (insert db fuel val (path ++ k) rest value) >>= fun r =>
        .ok (if r.1 then (true, .short k r.2 newFlag) else (false, .short k val fl)) := by
  have hlen := prefixLen_self_append k rest
  rw [Operations.insert, if_pos hlen, hlen, take_left, drop_left]
  · cases insert db fuel val (path ++ k) rest value with
    | error e => rfl
    | ok r =>
      obtain ⟨d, nn⟩ := r
      cases d <;> rfl
  all_goals simp [hk]

theorem insert_hash {h : Hash} (hk : key ≠ []) (path : List Nibble) (value : Node) :
    insert db (fuel + 1) (.hash h) path key value = (do
      let rn ← resolveHash db h path
      let (dirty, nn) ← insert db fuel rn path key value
      if dirty then return (true, nn) else return (false, rn)) := by
  cases key with
  | nil => exact (hk rfl).elim
  | cons a key => rfl

theorem insert_short_part {p} {x y} {r r₀} (hxy : x ≠ y)
    (val : Node) (fl : NodeFlag) (path : List Nibble) (value : Node) :
    insert db (fuel + 2) (.short (p ++ y :: r₀) val fl) path (p ++ x :: r) value =
      .ok (true, attachNode p (.full (update (update (fun _ => .nil) y
        (attachNode r₀ val)) x (attachNode r value)) newFlag)) := by
  have hlen : prefixLen (p ++ x :: r) (p ++ y :: r₀) = p.length := by
    rw [prefixLen_append, prefixLen_of_ne hxy, Nat.add_zero]
  rw [Operations.insert, if_neg (by simp [hlen]), hlen, drop_left, drop_left, take_left]
  · simp only [insert_nil_node, bind, Except.bind]
    by_cases hp : p = []
    · subst p
      rfl
    rw [if_neg (by simpa using hp), attachNode_of_ne hp]
    rfl
  all_goals simp

/-- `insert` does to the node what insertion does to the tree it stands for. -/
theorem insert_spec (hdb : Answers C S miss db)
    (h : Rep C S f b n t) (hp : t.Proper) (hfit : t.Fits terminator key) (hfuel : steps n key ≤ fuel)
    (path : List Nibble) (v : Bytes) : Missed miss (insert db fuel n path key (.value v)) ∨
      ∃ d n', insert db fuel n path key (.value v) = .ok (d, n') ∧ Rep C S f false n' (t.insert key v) ∧
        (d = false → t.insert key v = t) := by
  induction fuel generalizing n t key path f b with
  | zero => exact absurd hfuel (by simp [steps])
  | succ fuel ih =>
    cases h with
    | nil =>
      refine .inr ⟨true, attachNode key (.value v), insert_nil_node _ _ _ _, ?_, fun h => by cases h⟩
      rw [attachNode]
      split
      · next hk =>
        rw [hk, RadixTree.insert_nil_key]
        exact .value v
      next hk =>
        rw [RadixTree.insert_nil hk]
        exact .short (.value v) (flagOk_newFlag _ _)
    | value w =>
      obtain rfl := get_value_of_fits hfit
      rw [RadixTree.insert_nil_key]
      refine .inr ⟨w != v, .value v, rfl, .value v, fun hd => ?_⟩
      rw [bne_eq_false_iff_eq.mp hd]
    | hash hi hf hS =>
      have hkey := fits_ne_nil_of_isInner hfit hi
      rw [insert_hash hkey]
      obtain hmiss | ⟨rn, hrn, hbranch, hrep⟩ := resolveHash_spec hdb hi hf hS path
      · exact .inl (hmiss.bind _)
      have hsteps := steps_of_branch hbranch key
      rw [steps, isHash, if_pos rfl] at hfuel
      rw [hrn]
      obtain hmiss | ⟨d, n', hins, hrep', hsame⟩ := ih hrep hp hfit (by omega) path
      · exact .inl (hmiss.bind _)
      refine .inr ⟨d, if d then n' else rn, ?_, ?_, hsame⟩
      · simp only [bind, Except.bind, hins]
        cases d <;> rfl
      cases d with
      | true => exact hrep'
      | false =>
        rw [hsame rfl]
        exact hrep.plain
    | @short _ _ k val c fl hv hfl =>
      have hk := fits_ne_nil_of_isInner hfit rfl
      obtain ⟨rest, rfl⟩ | ⟨p, x, r, y, r₀, hxy, rfl, rfl⟩ := hfit.part hk
      · rw [insert_short_match hk, RadixTree.insert_short_append hk]
        obtain hmiss | ⟨d, n', hins, hrep', hsame⟩ :=
          ih hv hp.2.2 (hfit.below hk) (steps_below rfl hp.1 hfuel) (path ++ k)
        · exact .inl (hmiss.bind _)
        rw [hins]
        cases d with
        | true =>
          exact .inr ⟨true, _, rfl, .short hrep' (flagOk_newFlag _ _), fun h => by cases h⟩
        | false =>
          rw [hsame rfl]
          exact .inr ⟨false, _, rfl, (Rep.short hv hfl).plain, fun _ => rfl⟩
      obtain ⟨fuel, rfl⟩ : ∃ m, fuel = m + 1 := by
        refine ⟨fuel - 1, ?_⟩
        rw [steps_of_branch rfl, length_append, length_cons] at hfuel
        omega
      rw [insert_short_part hxy, RadixTree.insert_short_part hxy]
      refine .inr ⟨true, _, rfl, ?_, fun h => by cases h⟩
      have hfork : ∀ g, Rep C S g false (.full (update (update (fun _ => .nil) y
          (attachNode r₀ val)) x (attachNode r (.value v))) newFlag)
          (RadixTree.fork y (c.attach r₀) x (RadixTree.attach r (.value v))) := by
        intro g
        refine .full (fun i => ?_) (flagOk_newFlag _ _)
        exact rep_update (rep_update (fun _ => .nil) (rep_attachNode hv.plain r₀))
          (rep_attachNode (.value v) r) i
      rw [attachNode, RadixTree.attach]
      split
      · exact hfork f
      · exact .short (hfork false) (flagOk_newFlag _ _)
    | @full _ _ cs ts fl hcs hfl =>
      cases key with
      | nil => exact (fits_ne_nil_of_isInner hfit rfl rfl).elim
      | cons a key =>
        rw [RadixTree.insert_full, Operations.insert]
        obtain hmiss | ⟨d, n', hins, hrep', hsame⟩ := ih (hcs a) (hp a) hfit.child
          (steps_below (k := [a]) rfl (by simp) hfuel) (path ++ [a])
        · exact .inl (hmiss.bind _)
        rw [hins]
        cases d with
        | true =>
          refine .inr ⟨true, _, rfl, .full (fun i => ?_) (flagOk_newFlag _ _), fun h => by cases h⟩
          exact rep_update (fun i => (hcs i).plain) hrep' i
        | false =>
          rw [hsame rfl, update_eq_self]
          exact .inr ⟨false, _, rfl, (Rep.full hcs hfl).plain, fun _ => rfl⟩

theorem singleChild_eq (hcs : ∀ i, Rep C S false b (cs i) (ts i)) : singleChild cs = RadixTree.only ts := by
  have hnil : (fun i => !(cs i).isNil) = fun i => !(ts i).isNil := by
    funext i
    rw [(hcs i).isNil_iff]
  rw [singleChild, RadixTree.only, hnil]
  generalize (finRange 17).filter (fun i => !(ts i).isNil) = l
  obtain _ | ⟨x, _ | ⟨y, l⟩⟩ := l <;> rfl

/-- A path put in front of a node that is not a hash. -/
def mergeNode (k : List Nibble) : Node → Node
  | .short k' val' _ => .short (k ++ k') val' newFlag
  | n => .short k n newFlag

theorem rep_mergeNode (h : Rep C S false b n t) (hn : isHash n = false)
    (k : List Nibble) : Rep C S f false (mergeNode k n) (t.merge k) := by
  cases h with
  | nil => exact .short .nil (flagOk_newFlag _ _)
  | value v => exact .short (.value v) (flagOk_newFlag _ _)
  | hash hi hf hS => cases hn
  | short hv hfl => exact .short hv.plain (flagOk_newFlag _ _)
  | full hcs hfl => exact .short (Rep.full hcs hfl).plain (flagOk_newFlag _ _)

theorem merge_of_not_isShort (h : t.isShort = false) (k : List Nibble) : t.merge k = .short k t := by
  cases t with
  | short k' c => cases h
  | nil => rfl
  | value v => rfl
  | full cs => rfl

theorem reduce_spec (hdb : Answers C S miss db)
    (hcs : ∀ i, Rep C S false false (cs i) (ts i)) (ht : (RadixTree.full ts).Typed terminator)
    (path : List Nibble) : Missed miss (reduce db cs path) ∨
      ∃ n', reduce db cs path = .ok n' ∧ Rep C S f false n' (RadixTree.reduce ts) ∧ isHash n' = false := by
  rw [reduce, RadixTree.reduce, singleChild_eq hcs]
  cases hone : RadixTree.only ts with
  | none => exact .inr ⟨_, rfl, .full hcs (flagOk_newFlag _ _), rfl⟩
  | some pos =>
    obtain ⟨hne, _⟩ := RadixTree.only_eq_some hone
    by_cases hpos : pos = terminator
    · obtain hn | hv := ht.1
      · exact (hne (hpos ▸ hn)).elim
      obtain ⟨v, hv⟩ := RadixTree.isValue_iff.mp hv
      refine .inr ⟨_, if_pos hpos, ?_, rfl⟩
      change Rep C S f false _ ((ts pos).merge [pos])
      have hrep := hcs pos
      rw [hpos, hv] at hrep ⊢
      exact .short hrep (flagOk_newFlag _ _)
    simp only [if_neg hpos]
    have htyped := ht.2 pos hpos
    have hrep := hcs pos
    generalize cs pos = n at hrep
    generalize ts pos = t at hrep htyped hne
    cases hrep with
    | nil => exact (hne rfl).elim
    | value v => exact htyped.elim
    | short hv hfl => exact .inr ⟨_, rfl, .short hv.plain (flagOk_newFlag _ _), rfl⟩
    | full hcs hfl => exact .inr ⟨_, rfl, .short (.full hcs hfl) (flagOk_newFlag _ _), rfl⟩
    | hash hi hf hS =>
      rw [resolve]
      obtain hmiss | ⟨rn, hrn, hbranch, hrn'⟩ := resolveHash_spec hdb hi hf hS path
      · exact .inl (hmiss.bind _)
      rw [hrn]
      cases hrn' with
      | nil => cases hbranch
      | value v => cases hbranch
      | hash hi hf hS => cases hbranch
      | short hv hfl => exact .inr ⟨_, rfl, .short hv.plain (flagOk_newFlag _ _), rfl⟩
      | full hcs hfl => exact .inr ⟨_, rfl, .short (.hash hi hf hS) (flagOk_newFlag _ _), rfl⟩

theorem delete_full_same (hc : (RadixTree.full ts).Canon) (h : (ts a).delete k = ts a) :
    (RadixTree.full ts).delete (a :: k) = .full ts := by
  rw [RadixTree.delete, h]
  split
  · next hn =>
    rw [RadixTree.isNil_iff] at hn
    have hts : update ts a RadixTree.nil = ts := by rw [← hn, update_eq_self]
    rw [hts, RadixTree.reduce]
    cases hone : RadixTree.only ts with
    | none => rfl
    | some i =>
      obtain ⟨_, hother⟩ := RadixTree.only_eq_some hone
      obtain ⟨_, x, y, hxy, hx, hy⟩ := hc
      have hxi : x = i := by
        by_contra hne
        exact hx (hother x hne)
      exact (hy (hother y (fun hyi => hxy (hxi.trans hyi.symm)))).elim
  · rw [update_eq_self]

theorem delete_short_part (h : ¬ k <+: key)
    (hfit : (RadixTree.short k t).Fits terminator key) (val : Node) (fl : NodeFlag)
    (path : List Nibble) :
    delete db (fuel + 1) (.short k val fl) path key = .ok (false, .short k val fl) := by
  have hkey := fits_ne_nil_of_isInner hfit rfl
  obtain ⟨r, rfl⟩ | ⟨p, x, r, y, r₀, hxy, rfl, rfl⟩ := hfit.part hkey
  · exact (h (prefix_append _ _)).elim
  have hlen : prefixLen (p ++ x :: r) (p ++ y :: r₀) = p.length := by
    rw [prefixLen_append, prefixLen_of_ne hxy, Nat.add_zero]
  rw [delete, if_pos (by simp [hlen])]

theorem delete_short_self (fuel : ℕ) (k : List Nibble) (val : Node) (fl : NodeFlag) (path : List Nibble) :
    delete db (fuel + 1) (.short k val fl) path k = .ok (true, .nil) := by
  have hlen : prefixLen k k = k.length := by
    have h := prefixLen_self_append k []
    rwa [append_nil] at h
  rw [delete, if_neg (by omega), if_pos hlen]

theorem delete_short_append (hr : rest ≠ []) (val : Node) (fl : NodeFlag) (path : List Nibble) :
    delete db (fuel + 1) (.short k val fl) path (k ++ rest) =
      (delete db fuel val (path ++ k) rest) >>= fun r =>
        .ok (if r.1 then (true, mergeNode k r.2) else (false, .short k val fl)) := by
  have hlen := prefixLen_self_append k rest
  have hpos := length_pos_of_ne_nil hr
  rw [delete, if_neg (by omega), if_neg (by rw [length_append]; omega), take_left, drop_left]
  cases delete db fuel val (path ++ k) rest with
  | error e => rfl
  | ok r =>
    obtain ⟨d, nn⟩ := r
    cases d with
    | false => rfl
    | true => cases nn <;> rfl

/-- `delete` does to the node what deletion does to the tree it stands for. -/
theorem delete_spec (hdb : Answers C S miss db)
    (h : Rep C S f b n t) (hc : t = .nil ∨ t.Canon) (hfit : t.Fits terminator key)
    (hfuel : steps n key ≤ fuel) (path : List Nibble) : Missed miss (delete db fuel n path key) ∨
      ∃ d n', delete db fuel n path key = .ok (d, n') ∧ Rep C S f false n' (t.delete key) ∧
        (d = false → t.delete key = t) ∧ (d = true → isHash n' = false) := by
  induction fuel generalizing n t key path f b with
  | zero => exact absurd hfuel (by simp [steps])
  | succ fuel ih =>
    cases h with
    | nil => exact .inr ⟨false, .nil, by simp [delete], .nil, fun _ => rfl, fun h => by cases h⟩
    | value w =>
      obtain rfl := get_value_of_fits hfit
      exact .inr ⟨true, .nil, rfl, .nil, fun h => (by cases h), fun _ => rfl⟩
    | hash hi hf hS =>
      rw [delete]
      obtain hmiss | ⟨rn, hrn, hbranch, hrep⟩ := resolveHash_spec hdb hi hf hS path
      · exact .inl (hmiss.bind _)
      have hsteps := steps_of_branch hbranch key
      rw [steps, isHash, if_pos rfl] at hfuel
      rw [hrn]
      obtain hmiss | ⟨d, n', hdel, hrep', hsame, hhash⟩ := ih hrep hc hfit (by omega) path
      · exact .inl (hmiss.bind _)
      refine .inr ⟨d, if d then n' else rn, ?_, ?_, hsame, fun hd => ?_⟩
      · simp only [bind, Except.bind, hdel]
        cases d <;> rfl
      · cases d with
        | true => exact hrep'
        | false =>
          rw [hsame rfl]
          exact hrep.plain
      rw [if_pos hd]
      exact hhash hd
    | @short _ _ k val c fl hv hfl =>
      have hkey := fits_ne_nil_of_isInner hfit rfl
      obtain ⟨hk, hcc, hs⟩ := hc.resolve_left (by simp)
      by_cases hpre : k <+: key
      · obtain ⟨rest, rfl⟩ := hpre
        by_cases hr : rest = []
        · subst rest
          rw [append_nil, delete_short_self, RadixTree.delete_short_self]
          exact .inr ⟨true, .nil, rfl, .nil, fun h => (by cases h), fun _ => rfl⟩
        rw [delete_short_append hr, RadixTree.delete_short_append hr]
        obtain hmiss | ⟨d, n', hdel, hrep', hsame, hhash⟩ :=
          ih hv (.inr hcc) (hfit.below hkey) (steps_below rfl hk hfuel) (path ++ k)
        · exact .inl (hmiss.bind _)
        rw [hdel]
        cases d with
        | false =>
          rw [hsame rfl, merge_of_not_isShort hs]
          exact .inr ⟨false, _, rfl, (Rep.short hv hfl).plain, fun _ => rfl, fun h => by cases h⟩
        | true =>
          refine .inr ⟨true, _, rfl, rep_mergeNode hrep' (hhash rfl) k, fun h => (by cases h), fun _ => ?_⟩
          cases n' <;> rfl
      rw [delete_short_part hpre hfit, RadixTree.delete_short_missed hpre]
      exact .inr ⟨false, _, rfl, (Rep.short hv hfl).plain, fun _ => rfl, fun h => by cases h⟩
    | @full _ _ cs ts fl hcs hfl =>
      have hcc := hc.resolve_left (by simp)
      cases key with
      | nil => exact (fits_ne_nil_of_isInner hfit rfl rfl).elim
      | cons a key =>
        rw [delete]
        obtain hmiss | ⟨d, n', hdel, hrep', hsame, hhash⟩ := ih (hcs a) (hcc.1 a) hfit.child
          (steps_below (k := [a]) rfl (by simp) hfuel) (path ++ [a])
        · exact .inl (hmiss.bind _)
        rw [hdel]
        cases d with
        | false =>
          refine .inr ⟨false, .full cs fl, rfl, ?_, fun _ => delete_full_same hcc (hsame rfl),
            fun h => by cases h⟩
          rw [delete_full_same hcc (hsame rfl)]
          exact (Rep.full hcs hfl).plain
        | true =>
          have hupd := rep_update (a := a) (fun i => (hcs i).plain) hrep'
          have hnil := hrep'.isNil_iff
          simp only [bind, Except.bind, ↓reduceIte]
          rw [RadixTree.delete, ← hnil]
          by_cases hn : n'.isNil = true
          · have htyped := RadixTree.typed_full_update (hfit.typed (by simp)).2 (hfit.typed (by simp)).1
              (RadixTree.fits_delete hfit.child)
            rw [hn, eq_comm] at hnil
            rw [if_pos hn, if_pos hn]
            obtain hmiss | ⟨rn, hred, hrn, hhash'⟩ := reduce_spec (f := f) hdb hupd htyped path
            · exact .inl (hmiss.bind _)
            rw [RadixTree.isNil_iff.mp hnil] at hrn
            rw [hred]
            exact .inr ⟨true, rn, rfl, hrn, fun h => (by cases h), fun _ => hhash'⟩
          rw [if_neg hn, if_neg hn]
          exact .inr ⟨true, .full (update cs a n') newFlag, rfl,
            .full hupd (flagOk_newFlag _ _), fun h => (by cases h), fun _ => rfl⟩

end Geth.Trie.Represents
