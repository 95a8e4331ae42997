import Geth.Trie.FiniteMap

namespace Geth.Trie.Proof

open Lib.BigEndian Lib.Radix Common.Basic Rlp.Encode Encoding Decode Merkle NodeStore Hasher
open Operations Represents Hashing Holding FiniteMap Function List
open RadixTree (get_short_append get_full_cons within_short within_self within_full)

/-- The nodes that come with a proof, by the key they are stored under. -/
abbrev ProofDb := Hash → Option Bytes

/-- The node that a key leads to and the rest of the key: the next one, or
with `skipResolved` the first that is not in memory. -/
def get : Node → List Nibble → Bool → Except Panic (List Nibble × Node)
  | .short k val _, key, skipResolved =>
    if k <+: key then
      if skipResolved then get val (key.drop k.length) skipResolved
      else .ok (key.drop k.length, val)
    else .ok ([], .nil)
  | .full _ _, [], _ => .error .indexRange
  | .full cs _, a :: key, skipResolved =>
    if skipResolved then get (cs a) key skipResolved else .ok (key, cs a)
  | .hash h, key, _ => .ok (key, .hash h)
  | .nil, key, _ => .ok (key, .nil)
  | .value v, _, _ => .ok ([], .value v)

def provePath (db : Database) : ℕ → Node → List Nibble → Except TrieError (List Node)
  | 0, _, _ => .error .noReturn
  | _ + 1, _, [] => .ok []
  | _ + 1, .nil, _ => .ok []
  | fuel + 1, .short k val fl, key =>
    if k <+: key then do
      let nodes ← provePath db fuel val (key.drop k.length)
      return .short k val fl :: nodes
    else .ok [.short k val fl]
  | fuel + 1, .full cs fl, a :: key => do
    let nodes ← provePath db fuel (cs a) key
    return .full cs fl :: nodes
  | fuel + 1, .hash h, key => do
    let n ← resolveHash db h []
    provePath db fuel n key
  | _ + 1, .value _, _ => .error (.panic .explicit)

def proofHash (C : Crypto) : Node → Item × Hashed
  | .short key val _ =>
    let collapsed : Item := .list [.str (hexToCompact key), valItem val (hash C val false ∅).1]
    (collapsed, nodeToHash C collapsed false)
  | .full cs _ =>
    let collapsed : Item := .list ((hashChildren (fun i d => hash C (cs i) false d) cs
      (List.finRange 16) ∅).1 ++ [(simplifyNode (cs terminator)).item])
    (collapsed, nodeToHash C collapsed false)
  | .hash h => (.str h.toList, .hashNode h)
  | n => ((simplifyNode n).item, .node (simplifyNode n).item)

/-- The nodes from place `i` on go into the proof if they have a hash of
their own, and the root always. -/
def proveNodes (C : Crypto) : List Node → ℕ → ℕ → ProofDb → ProofDb
  | [], _, _, proofDb => proofDb
  | _ :: nodes, i, fromLevel + 1, proofDb => proveNodes C nodes (i + 1) fromLevel proofDb
  | n :: nodes, i, 0, proofDb =>
    let enc := encode (proofHash C n).1
    match (proofHash C n).2 with
    | .hashNode h => proveNodes C nodes (i + 1) 0 (update proofDb h (some enc))
    | .node _ =>
      if i = 0 then proveNodes C nodes (i + 1) 0 (update proofDb (C.keccak256 enc) (some enc))
      else proveNodes C nodes (i + 1) 0 proofDb

def prove (C : Crypto) (db : Database) (root : Node) (key : Bytes) (fromLevel : ℕ) (proofDb : ProofDb) :
    Except TrieError ProofDb := do
  let k := keybytesToHex key
  let nodes ← provePath db (fuelFor k) root k
  return proveNodes C nodes 0 fromLevel proofDb

inductive VerifyError where
  | missing (i : ℕ) (wantHash : Hash)
  | badNode (i : ℕ) (e : NodeError)
  | panic (p : Panic)
  | noReturn
  deriving DecidableEq

/-- The rounds from round `i` on, at most `fuel` of them. -/
def verifyRounds (proofDb : ProofDb) : ℕ → ℕ → Hash → List Nibble → Except VerifyError (Option Bytes)
  | 0, _, _, _ => .error .noReturn
  | fuel + 1, i, wantHash, key =>
    match proofDb wantHash with
    | none => .error (.missing i wantHash)
    | some buf =>
      match decodeNode (some wantHash) buf with
      | .error e => .error (.badNode i e)
      | .ok n =>
        match get n key true with
        | .error p => .error (.panic p)
        | .ok (_, .nil) => .ok none
        | .ok (keyrest, .hash h) => verifyRounds proofDb fuel (i + 1) h keyrest
        | .ok (_, .value v) => .ok (some v)
        | .ok (_, _) => verifyRounds proofDb fuel (i + 1) wantHash key

def verifyProof (proofDb : ProofDb) (fuel : ℕ) (rootHash : Hash) (key : Bytes) :
    Except VerifyError (Option Bytes) :=
  verifyRounds proofDb fuel 0 rootHash (keybytesToHex key)

/-- A walk along a key, from a tree to one below and the rest of the key. -/
inductive Reaches : Patricia → List Nibble → Patricia → List Nibble → Prop where
  | refl (t : Patricia) (key : List Nibble) : Reaches t key t key
  | short {k rest r : List Nibble} {c t : Patricia} (h : Reaches c rest t r) :
      Reaches (.short k c) (k ++ rest) t r
  | full {cs : Nibble → Patricia} {a : Nibble} {key r : List Nibble} {t : Patricia}
      (h : Reaches (cs a) key t r) : Reaches (.full cs) (a :: key) t r

/-- The trees on the way to a key. -/
def pathOf : Patricia → List Nibble → List Patricia
  | .short k c, key => .short k c :: (if k <+: key then pathOf c (key.drop k.length) else [])
  | .full cs, [] => [.full cs]
  | .full cs, a :: key => .full cs :: pathOf (cs a) key
  | _, _ => []

section

variable {t t' : Patricia} {key r : List Nibble}

section

variable (h : Reaches t key t' r)
include h

theorem Reaches.within : t'.Within t := by
  induction h with
  | refl t key => exact within_self t
  | short _ ih => exact within_short ih
  | full _ ih => exact within_full ih

theorem Reaches.get_eq : t.get key = t'.get r := by
  induction h with
  | refl t key => rfl
  | short _ ih => rw [get_short_append, ih]
  | full _ ih => rw [get_full_cons, ih]

theorem Reaches.proper (hp : t.Proper) : t'.Proper := by
  induction h with
  | refl t key => exact hp
  | short _ ih => exact ih hp.2.2
  | full _ ih => exact ih (hp _)

theorem Reaches.fits (hp : t.Proper) (hfit : t.Fits terminator key) : t'.Fits terminator r := by
  induction h with
  | refl t key => exact hfit
  | short _ ih => exact ih hp.2.2 (hfit.below (by simp [hp.1]))
  | full _ ih => exact ih (hp _) hfit.child

theorem Reaches.length_le : r.length ≤ key.length := by
  induction h with
  | refl t key => exact le_refl _
  | short _ ih =>
    rw [length_append]
    omega
  | full _ ih =>
    rw [length_cons]
    omega

omit h in
theorem pathOf_short_append (k rest : List Nibble) (c : Patricia) :
    pathOf (.short k c) (k ++ rest) = .short k c :: pathOf c rest := by
  rw [pathOf, if_pos (prefix_append _ _), drop_left]

theorem Reaches.path_subset : pathOf t' r ⊆ pathOf t key := by
  induction h with
  | refl t key => exact List.Subset.refl _
  | short _ ih =>
    rw [pathOf_short_append]
    exact subset_cons_of_subset _ ih
  | full _ ih => exact subset_cons_of_subset _ ih

end

theorem mem_pathOf_self (hi : isInner t = true) (key : List Nibble) : t ∈ pathOf t key := by
  cases t with
  | nil => cases hi
  | value v => cases hi
  | short k c =>
    rw [pathOf]
    exact mem_cons_self
  | full cs =>
    cases key with
    | nil => exact mem_cons_self
    | cons a key => exact mem_cons_self

end

section

variable {C : Crypto} {r : List Nibble × Node} {key : List Nibble} {t : Patricia}

/-- What following a key through the nodes in memory ends with. -/
inductive Outcome (C : Crypto) (t : Patricia) (key : List Nibble) : List Nibble × Node → Prop where
  | absent (r : List Nibble) (h : t.get key = none) : Outcome C t key (r, .nil)
  | found (r : List Nibble) (v : Bytes) (h : t.get key = some v) : Outcome C t key (r, .value v)
  | further {t' : Patricia} {r : List Nibble} (h : Reaches t key t' r) (hi : isInner t' = true)
      (hl : 32 ≤ size C t') : Outcome C t key (r, .hash (hashOf C t'))

theorem Outcome.short {k rest} {c} (h : Outcome C c rest r) : Outcome C (.short k c) (k ++ rest) r := by
  cases h with
  | absent r h => exact .absent r (by rwa [get_short_append])
  | found r v h => exact .found r v (by rwa [get_short_append])
  | further h hi hl => exact .further (.short h) hi hl

theorem Outcome.full {cs} {a} (h : Outcome C (cs a) key r) : Outcome C (.full cs) (a :: key) r := by
  cases h with
  | absent r h => exact .absent r (by rwa [get_full_cons])
  | found r v h => exact .found r v (by rwa [get_full_cons])
  | further h hi hl => exact .further (.full h) hi hl

theorem Outcome.length_le (h : Outcome C t key r) (hh : isHash r.2 = true) : r.1.length ≤ key.length := by
  cases h with
  | absent r h => cases hh
  | found r v h => cases hh
  | further h hi hl => exact h.length_le

/-- Following a key through a node as it is loaded, given how its children
are followed. -/
theorem get_loaded_of_children (hi : isInner t = true) (hp : t.Proper) (hfit : t.Fits terminator key)
    (hchild : ∀ c rest, c.Fits terminator rest → c.Proper → (∃ k, t = .short k c) ∨ (∃ cs a, t = .full cs ∧ c = cs a) →
      ∃ r, get (childNode C c) rest true = .ok r ∧ Outcome C c rest r) (hash : Option Hash) :
    ∃ r, get (loaded C hash t) key true = .ok r ∧ Outcome C t key r ∧
      (isHash r.2 = true → r.1.length < key.length) := by
  cases t with
  | nil => cases hi
  | value v => cases hi
  | short k c =>
    by_cases hk : k <+: key
    · obtain ⟨rest, rfl⟩ := hk
      have hne : k ++ rest ≠ [] := by simp [hp.1]
      obtain ⟨r, hr, hout⟩ := hchild c rest (hfit.below hne) hp.2.2 (.inl ⟨k, rfl⟩)
      refine ⟨r, ?_, hout.short, fun hh => ?_⟩
      · rw [loaded, get, if_pos (prefix_append _ _), if_pos rfl, drop_left]
        exact hr
      have hle := hout.length_le hh
      have hpos := length_pos_of_ne_nil hp.1
      rw [length_append]
      omega
    refine ⟨([], .nil), ?_, .absent [] (RadixTree.get_short_none hk c), fun hh => by cases hh⟩
    rw [loaded, get, if_neg hk]
  | full cs =>
    cases key with
    | nil =>
      obtain h | h := hfit.nil_key
      · cases h
      · cases h
    | cons a key =>
      obtain ⟨r, hr, hout⟩ := hchild (cs a) key hfit.child (hp a) (.inr ⟨cs, a, rfl, rfl⟩)
      refine ⟨r, ?_, hout.full, fun hh => ?_⟩
      · rw [loaded, get, if_pos rfl]
        exact hr
      have hle := hout.length_le hh
      rw [length_cons]
      omega

theorem get_childNode (hp : t.Proper) (hfit : t.Fits terminator key) :
    ∃ r, get (childNode C t) key true = .ok r ∧ Outcome C t key r := by
  -- a node that is not embedded is a hash node, and the walk stops there
  have hlarge {t : Patricia} {key : List Nibble} (hi : isInner t = true) (he : ¬ embeds C t = true) :
      ∃ r, get (childNode C t) key true = .ok r ∧ Outcome C t key r := by
    refine ⟨(key, .hash (hashOf C t)), ?_, .further (.refl t key) hi ?_⟩
    · rw [childNode, if_neg he, get]
    · exact not_lt.mp fun h => he ((embeds_iff hi).mpr h)
  induction t generalizing key with
  | nil => exact ⟨(key, .nil), rfl, .absent key (RadixTree.get_nil key)⟩
  | value v =>
    obtain rfl := get_value_of_fits hfit
    exact ⟨([], .value v), rfl, .found [] v (by simp [RadixTree.get])⟩
  | short k c ih =>
    by_cases he : embeds C (.short k c) = true
    · obtain ⟨r, hr, hout, _⟩ := get_loaded_of_children (C := C) rfl hp hfit (fun c' rest hf hp' hc => by
        obtain ⟨k', h⟩ | ⟨cs, a, h, _⟩ := hc
        · cases h
          exact ih hp' hf
        · cases h) none
      rw [childNode, if_pos he]
      exact ⟨r, hr, hout⟩
    · exact hlarge rfl he
  | full cs ih =>
    by_cases he : embeds C (.full cs) = true
    · obtain ⟨r, hr, hout, _⟩ := get_loaded_of_children (C := C) rfl hp hfit (fun c' rest hf hp' hc => by
        obtain ⟨k', h⟩ | ⟨cs', a, h, rfl⟩ := hc
        · cases h
        cases h
        exact ih a hp' hf) none
      rw [childNode, if_pos he]
      exact ⟨r, hr, hout⟩
    · exact hlarge rfl he

theorem get_loaded (hi : isInner t = true) (hp : t.Proper)
    (hfit : t.Fits terminator key) (hash : Option Hash) :
    ∃ r, get (loaded C hash t) key true = .ok r ∧ Outcome C t key r ∧
      (isHash r.2 = true → r.1.length < key.length) :=
  get_loaded_of_children hi hp hfit (fun _ _ hf hp' _ => get_childNode hp' hf) hash

end

section

variable {C : Crypto} {S : Set Bytes} {proofDb : ProofDb} {t : Patricia} {key : List Nibble} {fuel i : ℕ}

/-- Entries are keyed by the hash of their content. -/
def Addressed (C : Crypto) (proofDb : ProofDb) : Prop := ∀ h b, proofDb h = some b → C.keccak256 b = h

section

variable (hinj : Set.InjOn C.keccak256 S) (hdb : ∀ h b, proofDb h = some b → b ∈ S)
    (haddr : Addressed C proofDb) (ht : InPlay C S t) (hi : isInner t = true)
include hinj hdb haddr ht hi

theorem blob_eq {b} (hb : proofDb (hashOf C t) = some b) : b = encode (item C t) :=
  hinj (hdb _ _ hb) (ht.encodings (mem_encodings hi)) (haddr _ _ hb)

omit hinj hdb haddr ht hi in
theorem verifyRounds_step (hs : Storable t) (hi : isInner t = true)
    (hp : t.Proper) (hfit : t.Fits terminator key) (hb : proofDb (hashOf C t) = some (encode (item C t)))
    (fuel i : ℕ) : verifyRounds proofDb (fuel + 1) i (hashOf C t) key = .ok (t.get key) ∨
      ∃ t' r, Reaches t key t' r ∧ isInner t' = true ∧ 32 ≤ size C t' ∧ r.length < key.length ∧
        verifyRounds proofDb (fuel + 1) i (hashOf C t) key =
          verifyRounds proofDb fuel (i + 1) (hashOf C t') r := by
  obtain ⟨r, hr, hout, hlen⟩ := get_loaded (C := C) hi hp hfit (some (hashOf C t))
  rw [verifyRounds, hb]
  simp only [decodeNode_encode hs hi, hr]
  cases hout with
  | absent r h =>
    left
    rw [h]
  | found r v h =>
    left
    rw [h]
  | further h hi' hl => exact .inr ⟨_, _, h, hi', hl, hlen rfl, rfl⟩

/-- Whatever is stored, an answer is what the tree holds. -/
theorem verifyRounds_sound (hp : t.Proper) (hfit : t.Fits terminator key) {v}
    (hv : verifyRounds proofDb fuel i (hashOf C t) key = .ok v) : v = t.get key := by
  induction fuel generalizing t key i with
  | zero => cases hv
  | succ fuel ih =>
    cases hb : proofDb (hashOf C t) with
    | none =>
      rw [verifyRounds, hb] at hv
      cases hv
    | some b =>
      rw [blob_eq hinj hdb haddr ht hi hb] at hb
      obtain hok | ⟨t', r, hreach, hi', _, _, hnext⟩ :=
        verifyRounds_step ht.storable hi hp hfit hb fuel i
      · rw [hok] at hv
        cases hv
        rfl
      rw [hnext] at hv
      rw [hreach.get_eq]
      exact ih (ht.within hreach.within hi') hi' (hreach.proper hp) (hreach.fits hp hfit) hv

/-- With the nodes on the way to the key there, the answer comes after at
most one round for each digit. -/
theorem verifyRounds_complete (hp : t.Proper) (hfit : t.Fits terminator key)
    (hthere : ∀ t' ∈ pathOf t key, t' = t ∨ 32 ≤ size C t' → (proofDb (hashOf C t')).isSome = true) (hfuel : key.length < fuel) :
    verifyRounds proofDb fuel i (hashOf C t) key = .ok (t.get key) := by
  induction fuel generalizing t key i with
  | zero => omega
  | succ fuel ih =>
    obtain ⟨b, hb⟩ := Option.isSome_iff_exists.mp (hthere t (mem_pathOf_self hi key) (.inl rfl))
    rw [blob_eq hinj hdb haddr ht hi hb] at hb
    obtain hok | ⟨t', r, hreach, hi', hl, hlen, hnext⟩ :=
      verifyRounds_step ht.storable hi hp hfit hb fuel i
    · exact hok
    rw [hnext, hreach.get_eq]
    refine ih (ht.within hreach.within hi') hi' (hreach.proper hp) (hreach.fits hp hfit)
      (fun t'' hmem hl' => hthere t'' (hreach.path_subset hmem) (.inr ?_)) (by omega)
    obtain rfl | hl' := hl'
    · exact hl
    · exact hl'

end

end

section

variable {C : Crypto} {P : Patricia → Prop} {db : Database} {f b : Bool} {n : Node} {t : Patricia}
    {key : List Nibble}

/-- The node stands for the tree and is in memory itself. -/
def Shows (C : Crypto) (P : Patricia → Prop) (n : Node) (t : Patricia) : Prop :=
  isHash n = false ∧ ∃ f b, Rep C P f b n t

theorem provePath_spec (hdb : Serves C P db) {fuel : ℕ}
    (h : Rep C P f b n t) (hp : t.Proper) (hfit : t.Fits terminator key) (hfuel : steps n key ≤ fuel) :
    ∃ nodes, provePath db fuel n key = .ok nodes ∧ List.Forall₂ (Shows C P) nodes (pathOf t key) := by
  induction fuel generalizing n t key f b with
  | zero => exact absurd hfuel (by simp [steps])
  | succ fuel ih =>
    cases key with
    | nil =>
      refine ⟨[], by rw [provePath], ?_⟩
      obtain rfl | hv := hfit.nil_key
      · exact .nil
      obtain ⟨v, rfl⟩ := RadixTree.isValue_iff.mp hv
      exact .nil
    | cons a key =>
      cases h with
      | nil => exact ⟨[], by rw [provePath]; simp, .nil⟩
      | value v => cases get_value_of_fits hfit
      | hash hi hf hP =>
        obtain ⟨rn, hrn, hbranch, hrep⟩ := resolveHash_of_serves hdb hi hf hP []
        have hsteps := steps_of_branch hbranch (a :: key)
        simp only [steps, isHash, ↓reduceIte] at hfuel
        obtain ⟨nodes, hnodes, hshow⟩ := ih hrep hp hfit (by omega)
        refine ⟨nodes, ?_, hshow⟩
        rw [provePath, hrn]
        · exact hnodes
        · simp
      | @short _ _ k v c fl hv hfl =>
        have hrep : Rep C P f b (.short k v fl) (.short k c) := .short hv hfl
        by_cases hk : k <+: a :: key
        · obtain ⟨rest, hrest⟩ := hk
          rw [← hrest] at hfit hfuel ⊢
          obtain ⟨nodes, hnodes, hshow⟩ := ih hv hp.2.2 (hfit.below (by simp [hp.1]))
            (steps_below rfl hp.1 hfuel)
          refine ⟨.short k v fl :: nodes, ?_, ?_⟩
          · rw [provePath, if_pos (prefix_append _ _), drop_left, hnodes]
            · rfl
            · simp [hp.1]
          rw [pathOf_short_append]
          exact .cons ⟨rfl, f, b, hrep⟩ hshow
        refine ⟨[.short k v fl], ?_, ?_⟩
        · rw [provePath, if_neg hk]
          simp
        rw [pathOf, if_neg hk]
        exact .cons ⟨rfl, f, b, hrep⟩ .nil
      | @full _ _ cs ts fl hcs hfl =>
        obtain ⟨nodes, hnodes, hshow⟩ := ih (hcs a) (hp a) hfit.child (steps_below (k := [a]) rfl (by simp) hfuel)
        refine ⟨.full cs fl :: nodes, ?_, .cons ⟨rfl, f, b, .full hcs hfl⟩ hshow⟩
        rw [provePath, hnodes]
        rfl

theorem proofHash_spec (h : Shows C P n t) (hi : isInner t = true)
    (ht : t.Typed terminator) (hp : t.Proper) : proofHash C n = (item C t, reference C false t) := by
  obtain ⟨hn, f, b, hrep⟩ := h
  cases hrep with
  | nil => cases hi
  | value v => cases hi
  | hash _ _ _ => cases hn
  | @short _ _ k v c fl hv hfl =>
    obtain ⟨hchild, _⟩ := hash_spec hv (typedOrValue_below ht) hp.2.2 ∅
    have hitem : Item.list [.str (hexToCompact k), valItem v (hash C v false ∅).1] =
        item C (.short k c) := by
      rw [valItem_of_rep hv hp.2.1, hchild, reference_item, Merkle.item]
    rw [proofHash, hitem, nodeToHash_item rfl]
  | @full _ _ cs ts fl hcs hfl =>
    obtain ⟨hitems, _, _⟩ := hashChildren_spec (g := fun i d => hash C (cs i) false d) ts
      (fun i hi d => hash_spec (hcs i) (.inr (ht.2 i hi)) (hp i) d) cs (finRange 16) ∅
    obtain ⟨_, hlast⟩ := rep_last (hcs terminator) ht.1
    have hitem : Item.list ((hashChildren (fun i d => hash C (cs i) false d) cs (finRange 16) ∅).1 ++
        [(simplifyNode (cs terminator)).item]) = item C (.full ts) := by
      rw [hitems, hlast, Merkle.item]
    rw [proofHash, hitem, nodeToHash_item rfl]

theorem mem_pathOf {t'} (h : t' ∈ pathOf t key) : t'.Within t ∧ isInner t' = true := by
  induction t generalizing key with
  | nil => cases h
  | value v => cases h
  | short k c ih =>
    rw [pathOf, mem_cons] at h
    obtain rfl | h := h
    · exact ⟨within_self _, rfl⟩
    split at h
    · exact ⟨within_short (ih h).1, (ih h).2⟩
    · cases h
  | full cs ih =>
    cases key with
    | nil =>
      obtain rfl := List.mem_singleton.mp h
      exact ⟨within_self _, rfl⟩
    | cons a key =>
      rw [pathOf, mem_cons] at h
      obtain rfl | h := h
      · exact ⟨within_self _, rfl⟩
      · exact ⟨within_full (ih a h).1, (ih a h).2⟩

theorem proveNodes_cons (h : proofHash C n = (item C t, reference C false t))
    (hi : isInner t = true) (nodes : List Node) (i : ℕ) (proofDb : ProofDb) :
    proveNodes C (n :: nodes) i 0 proofDb = proveNodes C nodes (i + 1) 0 (if 32 ≤ size C t ∨ i = 0
        then update proofDb (hashOf C t) (some (encode (item C t))) else proofDb) := by
  rw [proveNodes, h]
  by_cases hl : 32 ≤ size C t
  · have href : reference C false t = .hashNode (hashOf C t) := if_pos ⟨hi, .inr hl⟩
    simp only [href]
    rw [if_pos (.inl hl)]
  have href : reference C false t = .node (item C t) := by
    rw [reference, if_neg]
    rintro ⟨_, hf | hl'⟩
    · cases hf
    · exact hl hl'
  simp only [href]
  by_cases h0 : i = 0
  · rw [if_pos h0, if_pos (.inr h0)]
    rfl
  · rw [if_neg h0, if_neg (by simp [hl, h0])]

/-- What the proof holds after nodes of the trees have been put into it. -/
structure Written (C : Crypto) (ts : List Patricia) (before after : ProofDb) : Prop where
  sound : ∀ h b, after h = some b → before h = some b ∨ ∃ t ∈ ts, h = hashOf C t ∧ b = encode (item C t)
  kept : ∀ h, (before h).isSome = true → (after h).isSome = true
  large : ∀ t ∈ ts, 32 ≤ size C t → (after (hashOf C t)).isSome = true

theorem proveNodes_spec {nodes} {ts}
    (h : List.Forall₂ (fun n t => proofHash C n = (item C t, reference C false t) ∧ isInner t = true)
      nodes ts) (i : ℕ) (proofDb : ProofDb) :
    Written C ts proofDb (proveNodes C nodes i 0 proofDb) ∧
      (i = 0 → ∀ t, ts.head? = some t → (proveNodes C nodes i 0 proofDb (hashOf C t)).isSome = true) := by
  induction h generalizing i proofDb with
  | nil => exact ⟨⟨fun _ _ h => .inl h, fun _ h => h, fun t ht => by cases ht⟩, fun _ t ht => by cases ht⟩
  | @cons n t nodes ts hn _ ih =>
    rw [proveNodes_cons hn.1 hn.2]
    obtain ⟨hw, _⟩ := ih (i + 1) (if 32 ≤ size C t ∨ i = 0
      then update proofDb (hashOf C t) (some (encode (item C t))) else proofDb)
    have hself (hput : 32 ≤ size C t ∨ i = 0) : (proveNodes C nodes (i + 1) 0 (if 32 ≤ size C t ∨ i = 0
        then update proofDb (hashOf C t) (some (encode (item C t))) else proofDb)
        (hashOf C t)).isSome = true := by
      apply hw.kept
      rw [if_pos hput, update_self]
      rfl
    refine ⟨⟨fun h b hb => ?_, fun h hh => hw.kept h ?_, fun t' ht' hl => ?_⟩, fun h0 t' ht' => ?_⟩
    · obtain hold | ⟨t', ht', hrest⟩ := hw.sound h b hb
      · split at hold
        · by_cases hht : h = hashOf C t
          · subst h
            rw [update_self] at hold
            cases hold
            exact .inr ⟨t, mem_cons_self, rfl, rfl⟩
          rw [update_of_ne hht] at hold
          exact .inl hold
        · exact .inl hold
      · exact .inr ⟨t', mem_cons_of_mem _ ht', hrest⟩
    · split
      · by_cases hht : h = hashOf C t
        · rw [hht, update_self]
          rfl
        · rwa [update_of_ne hht]
      · exact hh
    · obtain rfl | ht' := List.mem_cons.mp ht'
      · exact hself (.inl hl)
      · exact hw.large t' ht' hl
    cases ht'
    exact hself (.inr h0)

/-- The proof of a key: it is written from the nodes on the way to it, the
root and the large ones among them. -/
theorem prove_spec (hdb : Serves C P db) {m}
    (h : Rep C P true b n t) (hm : Models t m) (key : Bytes) (proofDb : ProofDb) :
    ∃ after, prove C db n key 0 proofDb = .ok after ∧
      Written C (pathOf t (keybytesToHex key)) proofDb after ∧
      (t ≠ .nil → (after (hashOf C t)).isSome = true) := by
  obtain ⟨nodes, hnodes, hshow⟩ :=
    provePath_spec hdb h hm.proper (hm.fits key) (steps_le n (keybytesToHex key))
  have hcollapse : List.Forall₂ (fun n t => proofHash C n = (item C t, reference C false t) ∧
      isInner t = true) nodes (pathOf t (keybytesToHex key)) := by
    refine List.forall₂_iff_get.mpr ⟨hshow.length_eq, fun i hi hi' => ?_⟩
    obtain ⟨hw, hin⟩ := mem_pathOf (get_mem (pathOf t (keybytesToHex key)) ⟨i, hi'⟩)
    exact ⟨proofHash_spec (hshow.get hi hi') hin (storable_of_within hm.storable hw hin).typed
      (hm.proper.within hw), hin⟩
  obtain ⟨hwritten, hroot⟩ := proveNodes_spec hcollapse 0 proofDb
  refine ⟨_, ?_, hwritten, fun hne => hroot rfl t ?_⟩
  · rw [prove]
    simp only [hnodes]
    rfl
  cases t with
  | nil => exact (hne rfl).elim
  | value v => exact hm.typed.elim
  | short k c => rfl
  | full cs =>
    cases keybytesToHex key with
    | nil => rfl
    | cons a key => rfl

end

theorem verifyRounds_empty {C} {S} {proofDb}
    (hinj : Set.InjOn C.keccak256 S) (hdb : ∀ h b, proofDb h = some b → b ∈ S) (hmem : [0x80] ∈ S)
    (haddr : Addressed C proofDb) (hempty : C.keccak256 [0x80] = emptyRoot) (fuel i : ℕ)
    (key : List Nibble) (v : Option Bytes) : verifyRounds proofDb fuel i emptyRoot key ≠ .ok v := by
  intro hv
  cases fuel with
  | zero => cases hv
  | succ fuel =>
    rw [verifyRounds] at hv
    cases hb : proofDb emptyRoot with
    | none =>
      rw [hb] at hv
      cases hv
    | some b =>
      obtain rfl : b = [0x80] := hinj (hdb _ _ hb) hmem (by rw [haddr _ _ hb, hempty])
      rw [hb] at hv
      cases hv

/-- Proofs of single keys, for a trie after any calls: over what `prove`
writes for a trie that is not empty the verifier returns what the trie holds,
and over any database keyed by content it returns nothing else. -/
theorem single_key_proofs (C : Crypto) (ops : List Op) (hmem : ∀ op ∈ ops, op.InMemory)
    (hC : Ideal C (inPlay C ops)) (hempty : C.keccak256 [0x80] = emptyRoot) :
    ∃ s h r, run C ops = .ok s ∧ hashTrie C s.db s.root = .ok (h, r) ∧
      (contents ops ≠ (fun _ => none) → ∀ key, ∃ proofDb,
        prove C s.db s.root key 0 (fun _ => none) = .ok proofDb ∧
        ∀ fuel, 2 * key.length + 1 < fuel → verifyProof proofDb fuel h key = .ok (contents ops key)) ∧
      (∀ proofDb : ProofDb, Addressed C proofDb →
        Set.InjOn C.keccak256 (inPlay C ops ∪ { b | b = [0x80] ∨ ∃ h, proofDb h = some b }) →
        ∀ key fuel v, verifyProof proofDb fuel h key = .ok v → v = contents ops key) := by
  have hm := (related_run hmem).now
  obtain ⟨s, hs, hf⟩ := follows_run hC hmem (Set.Subset.refl _)
  obtain ⟨n, d, hhash, _⟩ := hashTrie_spec s.db hf.root hm.typed hm.proper
  have ht := inPlay_of_part hmem (prefix_refl ops) (Set.Subset.refl (inPlay C ops))
  refine ⟨s, rootHash C (trees ops).now, _, hs, hhash, fun hne key => ?_, fun proofDb haddr hinj key fuel v hv => ?_⟩
  · have hnil : (trees ops).now ≠ .nil := by
      intro hnil
      apply hne
      funext key
      rw [contents, ← hm.get, hnil, RadixTree.get_nil]
    have hi := isInner_of_typed hm.typed hnil
    obtain ⟨proofDb, hprove, hw, hroot⟩ := prove_spec hf.kept.serves hf.root hm key (fun _ => none)
    refine ⟨proofDb, hprove, fun fuel hfuel => ?_⟩
    have hsound (h : Hash) (b : Bytes) (hb : proofDb h = some b) :
        ∃ t ∈ pathOf (trees ops).now (keybytesToHex key), h = hashOf C t ∧ b = encode (item C t) := by
      obtain hold | hnew := hw.sound h b hb
      · cases hold
      · exact hnew
    rw [verifyProof, rootHash_inner hi, verifyRounds_complete hC.injOn (fun h b hb => ?_) (fun h b hb => ?_) ht hi
      hm.proper (hm.fits key) (fun t' hmem' hl => ?_) (by rw [keybytesToHex_length]; omega), hm.get]
    · rfl
    · obtain ⟨t', ht', _, rfl⟩ := hsound h b hb
      obtain ⟨hwithin, hi'⟩ := mem_pathOf ht'
      exact ht.encodings ⟨t', hwithin, hi', rfl⟩
    · obtain ⟨t', _, rfl, rfl⟩ := hsound h b hb
      rfl
    obtain rfl | hl := hl
    · exact hroot hnil
    · exact hw.large t' hmem' hl
  have hdb (h : Hash) (b : Bytes) (hb : proofDb h = some b) :
      b ∈ inPlay C ops ∪ { b | b = [0x80] ∨ ∃ h, proofDb h = some b } := .inr (.inr ⟨h, hb⟩)
  by_cases hnil : (trees ops).now = .nil
  · rw [hnil] at hv
    exact (verifyRounds_empty hinj hdb (.inr (.inl rfl)) haddr hempty _ _ _ _ hv).elim
  have hi := isInner_of_typed hm.typed hnil
  rw [verifyProof, rootHash_inner hi] at hv
  rw [contents, ← hm.get]
  exact verifyRounds_sound hinj hdb haddr (ht.mono Set.subset_union_left) hi hm.proper (hm.fits key) hv

def proofCrypto : Crypto := Crypto.ofTables (([0x80], emptyRoot) :: sampleHashes) []

def recordedDb : ProofDb := fun h => (sampleHashes.find? fun e => e.2 = h).map Prod.fst

theorem mem_of_recordedDb {h : Hash} {b} (hb : recordedDb h = some b) : (b, h) ∈ sampleHashes := by
  rw [recordedDb, Option.map_eq_some_iff] at hb
  obtain ⟨e, he, rfl⟩ := hb
  have hh := find?_some he
  rw [decide_eq_true_eq] at hh
  rw [← hh]
  exact mem_of_find?_eq_some he

theorem single_key_proofs_reloading :
    ∃ s h r proofDb, run proofCrypto reloadingOps = .ok s ∧ hashTrie proofCrypto s.db s.root = .ok (h, r) ∧
      prove proofCrypto s.db s.root [0x12] 0 (fun _ => none) = .ok proofDb ∧
      verifyProof proofDb 4 h [0x12] = .ok (some longValue) ∧
      ∀ v, verifyProof recordedDb 4 h [0x56] = .ok v → v = none := by
  have hmem : ∀ op ∈ reloadingOps, op.InMemory := by
    simp [reloadingOps, Op.InMemory, keybytesToHex_length, longValue]
  have hsub : ∀ b ∈ inPlay proofCrypto reloadingOps, b ∈ sampleHashes.map Prod.fst := by
    have hlist : ∀ b ∈ reloadingOps.inits.flatMap fun pre => nodeEncodings proofCrypto (trees pre).now,
        b ∈ sampleHashes.map Prod.fst := by
      decide +kernel
    exact fun b hb => hlist b (mem_inits_of_inPlay hb)
  have hC : Ideal proofCrypto (inPlay proofCrypto reloadingOps) :=
    ideal_of_list hsub (by decide +kernel)
  have haddr : Addressed proofCrypto recordedDb := by
    have hall : ∀ e ∈ sampleHashes, proofCrypto.keccak256 e.1 = e.2 := by
      decide +kernel
    exact fun h b hb => hall (b, h) (mem_of_recordedDb hb)
  have hinj : Set.InjOn proofCrypto.keccak256
      (inPlay proofCrypto reloadingOps ∪ { b | b = [0x80] ∨ ∃ h, recordedDb h = some b }) := by
    have hall : ∀ a ∈ [0x80] :: sampleHashes.map Prod.fst, ∀ b ∈ [0x80] :: sampleHashes.map Prod.fst,
        proofCrypto.keccak256 a = proofCrypto.keccak256 b → a = b := by
      decide +kernel
    have hin : ∀ b ∈ inPlay proofCrypto reloadingOps ∪ { b | b = [0x80] ∨ ∃ h, recordedDb h = some b },
        b ∈ [0x80] :: sampleHashes.map Prod.fst := by
      rintro b (hb | rfl | ⟨h, hb⟩)
      · exact mem_cons_of_mem _ (hsub b hb)
      · exact mem_cons_self
      · exact mem_cons_of_mem _ (List.mem_map.mpr ⟨(b, h), mem_of_recordedDb hb, rfl⟩)
    exact fun a ha b hb => hall a (hin a ha) b (hin b hb)
  obtain ⟨s, h, r, hs, hh, hcomplete, hsound⟩ :=
    single_key_proofs proofCrypto reloadingOps hmem hC (by decide +kernel)
  have hne : contents reloadingOps ≠ fun _ => none := by
    intro hc
    have hv := congrFun hc [0x12]
    revert hv
    decide
  obtain ⟨proofDb, hprove, hverify⟩ := hcomplete hne [0x12]
  exact ⟨s, h, r, proofDb, hs, hh, hprove, hverify 4 (by decide),
    fun v hv => hsound recordedDb haddr hinj [0x56] 4 v hv⟩

/-- The proof for an empty trie is empty, and the verifier misses the root. -/
theorem prove_empty_trie_rejected :
    run proofCrypto [] = .ok Session.new ∧ contents [] [0x12] = none ∧
      prove proofCrypto Session.new.db Session.new.root [0x12] 0 (fun _ => none) = .ok (fun _ => none) ∧
      ∀ fuel, verifyProof (fun _ => none) (fuel + 1) emptyRoot [0x12] = .error (.missing 0 emptyRoot) :=
  ⟨rfl, rfl, rfl, fun _ => rfl⟩

end Geth.Trie.Proof
