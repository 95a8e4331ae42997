import Geth.Trie.NodeStore

namespace Geth.Trie.Hasher

open Common.Basic Rlp.Encode Encoding Decode NodeStore Function

/-- What stands for a node in its parent: its hash, or the collapsed node itself. -/
inductive Hashed where
  | hashNode (h : Hash)
  | node (collapsed : Item)

def Hashed.item : Hashed → Item
  | .hashNode h => .str h.toList
  | .node collapsed => collapsed

def nodeToHash (C : Crypto) (collapsed : Item) (force : Bool) : Hashed :=
  if (encode collapsed).length < 32 ∧ force = false then .node collapsed
  else .hashNode (C.keccak256 (encode collapsed))

/-- The hash is noted in the node, and a node with changes is put into the cache. -/
def keep (withFlags : NodeFlag → Node) (fl : NodeFlag) (hashed : Hashed) (dirties : HashCache) :
    Hashed × Node × HashCache :=
  match hashed with
  | .hashNode hn =>
    let cached := withFlags { fl with hash := some hn }
    (hashed, cached, if fl.dirty then dirties.insert hn cached else dirties)
  | .node _ => (hashed, withFlags { fl with hash := none }, dirties)

def knownHash (n : Node) (h : Hash) (dirties : HashCache) : Hashed × Node × HashCache :=
  (.hashNode h, n, if h ∈ dirties then dirties else dirties.insert h n)

def hashChildren (hash : Nibble → HashCache → Hashed × Node × HashCache) (cs : Nibble → Node) :
    List (Fin 16) → HashCache → List Item × (Nibble → Node) × HashCache
  | [], dirties => ([], cs, dirties)
  | i :: l, dirties =>
    let (hashed, cached, dirties) := hash i.castSucc dirties
    let (items, cs', dirties) := hashChildren hash cs l dirties
    (hashed.item :: items, update cs' i.castSucc cached, dirties)

/-- The child of a short node as it is encoded: an absent one is an empty list. -/
def valItem (val : Node) (child : Hashed) : Item :=
  match val with
  | .nil => .list []
  | _ => child.item

def hash (C : Crypto) : Node → Bool → HashCache → Hashed × Node × HashCache
  | .short key val fl, force, dirties =>
    match fl.hash with
    | some h => knownHash (.short key val fl) h dirties
    | none =>
      let (child, val', dirties) := hash C val false dirties
      keep (.short key val') fl
        (nodeToHash C (.list [.str (hexToCompact key), valItem val child]) force) dirties
  | .full cs fl, force, dirties =>
    match fl.hash with
    | some h => knownHash (.full cs fl) h dirties
    | none =>
      let (items, cs', dirties) :=
        hashChildren (fun i d => hash C (cs i) false d) cs (List.finRange 16) dirties
      keep (.full cs') fl
        (nodeToHash C (.list (items ++ [(simplifyNode (cs terminator)).item])) force) dirties
  | .hash h, _, dirties => (.hashNode h, .hash h, dirties)
  | .value v, _, dirties => (.node (.str v), .value v, dirties)
  | .nil, _, dirties => (.node (.str []), .nil, dirties)

section

variable {C : Crypto} {force : Bool} {d : HashCache} {fl : NodeFlag} {key : List Nibble} {val : Node}
    {h : Hash} {cs : Nibble → Node}

theorem hashChildren_cons (g : Nibble → HashCache → Hashed × Node × HashCache) (cs : Nibble → Node)
    (i : Fin 16) (l : List (Fin 16)) (d : HashCache) :
    hashChildren g cs (i :: l) d = ((g i.castSucc d).1.item :: (hashChildren g cs l (g i.castSucc d).2.2).1,
        update (hashChildren g cs l (g i.castSucc d).2.2).2.1 i.castSucc (g i.castSucc d).2.1,
        (hashChildren g cs l (g i.castSucc d).2.2).2.2) :=
  rfl

theorem hash_short_some (hh : fl.hash = some h) :
    hash C (.short key val fl) force d = knownHash (.short key val fl) h d := by
  rw [Hasher.hash, hh]

theorem hash_full_some (hh : fl.hash = some h) :
    hash C (.full cs fl) force d = knownHash (.full cs fl) h d := by
  rw [Hasher.hash, hh]

theorem hash_short_none (hh : fl.hash = none) : hash C (.short key val fl) force d =
      keep (.short key (hash C val false d).2.1) fl
        (nodeToHash C (.list [.str (hexToCompact key), valItem val (hash C val false d).1]) force)
        (hash C val false d).2.2 := by
  rw [Hasher.hash, hh]

theorem hash_full_none (hh : fl.hash = none) : hash C (.full cs fl) force d =
      keep (.full (hashChildren (fun i d => hash C (cs i) false d) cs (List.finRange 16) d).2.1) fl
        (nodeToHash C (.list ((hashChildren (fun i d => hash C (cs i) false d) cs
          (List.finRange 16) d).1 ++ [(simplifyNode (cs terminator)).item])) force)
        (hashChildren (fun i d => hash C (cs i) false d) cs (List.finRange 16) d).2.2 := by
  rw [Hasher.hash, hh]

end

/-- A node that is handed to the database. -/
structure Leaf where
  size : ℕ
  hash : Hash
  node : RawNode

def store (collapsed : RawNode) : Option Hash → RawNode × List Leaf
  | none => (collapsed, [])
  | some h => (.hash h, [{ size := estimateSize collapsed, hash := h, node := collapsed }])

def storeAfter (leaves : List Leaf) (collapsed : RawNode) (hash : Option Hash) : RawNode × List Leaf :=
  ((store collapsed hash).1, leaves ++ (store collapsed hash).2)

def commitVal (val : Node) (committed : Except Panic (RawNode × List Leaf)) :
    Except Panic (RawNode × List Leaf) :=
  match val with
  | .full _ _ => committed
  | _ => .ok (simplifyNode val, [])

def commitChild (n : Node) (committed : Except Panic (RawNode × List Leaf)) :
    Except Panic (RawNode × List Leaf) :=
  match n with
  | .nil => .ok (.nil, [])
  | .hash h => .ok (.hash h, [])
  | _ => committed

def commitChildren (commit : Nibble → Except Panic (RawNode × List Leaf)) (cs : Nibble → Node) :
    List (Fin 16) → Except Panic ((Nibble → RawNode) × List Leaf)
  | [] => .ok (fun i => if i = terminator then simplifyNode (cs i) else .nil, [])
  | i :: l => do
    let child ← commitChild (cs i.castSucc) (commit i.castSucc)
    let rest ← commitChildren commit cs l
    return (update rest.1 i.castSucc child.1, child.2 ++ rest.2)

/-- `committer.commit`: the reference to the node, and the nodes to insert
into the database in the order they are handed over. -/
def commit : Node → Except Panic (RawNode × List Leaf)
  | .short key val fl =>
    match fl.hash, fl.dirty with
    | some h, false => .ok (.hash h, [])
    | _, _ => do
      let child ← commitVal val (commit val)
      return storeAfter child.2 (.short (hexToCompact key) child.1) fl.hash
  | .full cs fl =>
    match fl.hash, fl.dirty with
    | some h, false => .ok (.hash h, [])
    | _, _ => do
      let kids ← commitChildren (fun i => commit (cs i)) cs (List.finRange 16)
      return storeAfter kids.2 (.full kids.1) fl.hash
  | .hash h => .ok (.hash h, [])
  | _ => .error .explicit

section

variable {key : List Nibble} {val : Node} {cs : Nibble → Node} {fl : NodeFlag} {h : Hash}
    {child : RawNode × List Leaf}

theorem commit_short_clean (hh : fl.hash = some h) (hd : fl.dirty = false) :
    commit (.short key val fl) = .ok (.hash h, []) := by
  rw [commit, hh, hd]

theorem commit_full_clean (hh : fl.hash = some h) (hd : fl.dirty = false) :
    commit (.full cs fl) = .ok (.hash h, []) := by
  rw [commit, hh, hd]

theorem commit_short_dirty (hd : fl.hash = none ∨ fl.dirty = true)
    (hchild : commitVal val (commit val) = .ok child) : commit (.short key val fl) =
      .ok (storeAfter child.2 (.short (hexToCompact key) child.1) fl.hash) := by
  rw [commit, hchild]
  obtain hn | hd := hd
  · rw [hn]
    rfl
  rw [hd]
  cases fl.hash <;> rfl

theorem commit_full_dirty (hd : fl.hash = none ∨ fl.dirty = true) {kids}
    (hkids : commitChildren (fun i => commit (cs i)) cs (List.finRange 16) = .ok kids) :
    commit (.full cs fl) = .ok (storeAfter kids.2 (.full kids.1) fl.hash) := by
  rw [commit, hkids]
  obtain hn | hd := hd
  · rw [hn]
    rfl
  rw [hd]
  cases fl.hash <;> rfl

theorem commitChildren_cons {g} {i} {l} {rest}
    (hchild : commitChild (cs i.castSucc) (g i.castSucc) = .ok child)
    (hrest : commitChildren g cs l = .ok rest) : commitChildren g cs (i :: l) =
      .ok (update rest.1 i.castSucc child.1, child.2 ++ rest.2) := by
  rw [commitChildren, hchild, hrest]
  rfl

end

def commitLoop (db : Database) (leaves : List Leaf) : Database :=
  leaves.foldl (fun db item => db.insert item.hash item.size item.node) db

end Geth.Trie.Hasher
