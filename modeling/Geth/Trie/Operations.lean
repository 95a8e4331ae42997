import Geth.Trie.Hasher

namespace Geth.Trie.Operations

open Lib.BigEndian Lib.Radix Common.Basic Encoding Decode NodeStore Hasher Function

def emptyRoot : Hash := hexToHash 0x56e81f171bcc55a6ff8345e692c0f86e5b48e01b996cadc001622fb5e363b421

inductive TrieError where
  | missingNode (nodeHash : Hash) (path : List Nibble)
  | panic (p : Panic)
  | noReturn
  deriving DecidableEq

def newFlag : NodeFlag := { dirty := true }

def resolveHash (db : Database) (h : Hash) (path : List Nibble) : Except TrieError Node :=
  match db.node h with
  | .ok .nil => .error (.missingNode h path)
  | .ok n => .ok n
  | .error p => .error (.panic p)

def resolve (db : Database) (n : Node) (path : List Nibble) : Except TrieError Node :=
  match n with
  | .hash h => resolveHash db h path
  | n => .ok n

/-- The value for the rest of a key after `path`, and the node with what was
resolved on the way. Resolving a hash uses up fuel but no digit. -/
def tryGet (db : Database) :
    ℕ → Node → List Nibble → List Nibble → Except TrieError (Option Bytes × Node × Bool)
  | 0, _, _, _ => .error .noReturn
  | _ + 1, .nil, _, _ => .ok (none, .nil, false)
  | _ + 1, .value v, _, _ => .ok (some v, .value v, false)
  | fuel + 1, .short k val fl, path, key =>
    if k <+: key then do
      let (value, newnode, didResolve) ← tryGet db fuel val (path ++ k) (key.drop k.length)
      return (value, .short k (if didResolve then newnode else val) fl, didResolve)
    else .ok (none, .short k val fl, false)
  | _ + 1, .full _ _, _, [] => .error (.panic .indexRange)
  | fuel + 1, .full cs fl, path, a :: key => do
    let (value, newnode, didResolve) ← tryGet db fuel (cs a) (path ++ [a]) key
    return (value, .full (if didResolve then update cs a newnode else cs) fl, didResolve)
  | fuel + 1, .hash h, path, key => do
    let child ← resolveHash db h path
    let (value, newnode, _) ← tryGet db fuel child path key
    return (value, newnode, true)

/-- Whether the node changed, and the node with the value at the rest of the key. -/
def insert (db : Database) :
    ℕ → Node → List Nibble → List Nibble → Node → Except TrieError (Bool × Node)
  | 0, _, _, _, _ => .error .noReturn
  | _ + 1, .value v, _, [], .value w => .ok (v != w, .value w)
  | _ + 1, .value _, _, [], _ => .error (.panic .explicit)
  | _ + 1, _, _, [], value => .ok (true, value)
  | fuel + 1, .short k val fl, path, key, value =>
    let matchlen := prefixLen key k
    if matchlen = k.length then do
      let (dirty, nn) ← insert db fuel val (path ++ key.take matchlen) (key.drop matchlen) value
      if dirty then return (true, .short k nn newFlag) else return (false, .short k val fl)
    else
      match k.drop matchlen, key.drop matchlen with
      | a :: k', b :: key' => do
        let (_, old) ← insert db fuel .nil (path ++ k.take (matchlen + 1)) k' val
        let (_, new) ← insert db fuel .nil (path ++ key.take (matchlen + 1)) key' value
        let branch : Node :=
          .full (update (update (fun _ => .nil) a old) b new) newFlag
        if matchlen = 0 then return (true, branch)
        else return (true, .short (key.take matchlen) branch newFlag)
      | _, _ => .error (.panic .indexRange)
  | fuel + 1, .full cs fl, path, a :: key, value => do
    let (dirty, nn) ← insert db fuel (cs a) (path ++ [a]) key value
    if dirty then return (true, .full (update cs a nn) newFlag)
    else return (false, .full cs fl)
  | _ + 1, .nil, _, key, value => .ok (true, .short key value newFlag)
  | fuel + 1, .hash h, path, key, value => do
    let rn ← resolveHash db h path
    let (dirty, nn) ← insert db fuel rn path key value
    if dirty then return (true, nn) else return (false, rn)
  | _ + 1, .value _, _, _, _ => .error (.panic .explicit)

def singleChild (cs : Nibble → Node) : Option Nibble :=
  match (List.finRange 17).filter (fun i => !(cs i).isNil) with
  | [pos] => some pos
  | _ => none

/-- A full node that lost a child becomes a short node if one child is left. -/
def reduce (db : Database) (cs : Nibble → Node) (path : List Nibble) : Except TrieError Node :=
  match singleChild cs with
  | some pos =>
    if pos = terminator then .ok (.short [pos] (cs pos) newFlag)
    else do
      let cnode ← resolve db (cs pos) path
      match cnode with
      | .short k val _ => return .short (pos :: k) val newFlag
      | _ => return .short [pos] (cs pos) newFlag
  | none => .ok (.full cs newFlag)

def delete (db : Database) : ℕ → Node → List Nibble → List Nibble → Except TrieError (Bool × Node)
  | 0, _, _, _ => .error .noReturn
  | fuel + 1, .short k val fl, path, key =>
    let matchlen := prefixLen key k
    if matchlen < k.length then .ok (false, .short k val fl)
    else if matchlen = key.length then .ok (true, .nil)
    else do
      let (dirty, child) ← delete db fuel val (path ++ key.take k.length) (key.drop k.length)
      if dirty then
        match child with
        | .short k' val' _ => return (true, .short (k ++ k') val' newFlag)
        | _ => return (true, .short k child newFlag)
      else return (false, .short k val fl)
  | _ + 1, .full _ _, _, [] => .error (.panic .indexRange)
  | fuel + 1, .full cs fl, path, a :: key => do
    let (dirty, nn) ← delete db fuel (cs a) (path ++ [a]) key
    if dirty then
      if nn.isNil then
        let n ← reduce db (update cs a nn) path
        return (true, n)
      else return (true, .full (update cs a nn) newFlag)
    else return (false, .full cs fl)
  | _ + 1, .value _, _, _ => .ok (true, .nil)
  | _ + 1, .nil, _, _ => .ok (false, .nil)
  | fuel + 1, .hash h, path, key => do
    let rn ← resolveHash db h path
    let (dirty, nn) ← delete db fuel rn path key
    if dirty then return (true, nn) else return (false, rn)

/-- Every digit of a key leads into one node, which may have to be resolved first. -/
def fuelFor (key : List Nibble) : ℕ := 2 * key.length + 2

def newTrie (db : Database) (root : Hash) : Except TrieError Node :=
  if root ≠ zeros 32 ∧ root ≠ emptyRoot then resolveHash db root [] else .ok .nil

def tryGetKey (db : Database) (root : Node) (key : Bytes) : Except TrieError (Option Bytes × Node) := do
  let k := keybytesToHex key
  let (value, newroot, didResolve) ← tryGet db (fuelFor k) root [] k
  return (value, if didResolve then newroot else root)

def tryDelete (db : Database) (root : Node) (key : Bytes) : Except TrieError Node := do
  let k := keybytesToHex key
  let (_, n) ← delete db (fuelFor k) root [] k
  return n

def tryUpdate (db : Database) (root : Node) (key value : Bytes) : Except TrieError Node :=
  if value.length ≠ 0 then do
    let k := keybytesToHex key
    let (_, n) ← insert db (fuelFor k) root [] k (.value value)
    return n
  else tryDelete db root key

def hashRoot (C : Crypto) (db : Database) (root : Node) : Hashed × Node × HashCache :=
  match root with
  | .nil => (.hashNode emptyRoot, .nil, db.dirtyHashCache)
  | root => hash C root true db.dirtyHashCache

/-- The root hash, the trie with the hashes noted, and the database with what
was put into its hash cache. -/
def hashTrie (C : Crypto) (db : Database) (root : Node) : Except TrieError (Hash × Node × Database) :=
  match hashRoot C db root with
  | (.hashNode h, cached, dirties) => .ok (h, cached, { db with dirtyHashCache := dirties })
  | (.node _, _, _) => .error (.panic .explicit)

/-- What a commit does before the nodes are inserted: the root hash, the trie
after the commit, the nodes to insert, and the database. -/
def commitNodes (C : Crypto) (db : Database) (root : Node) :
    Except TrieError (Hash × Node × List Leaf × Database) :=
  match root with
  | .nil => .ok (emptyRoot, .nil, [], db)
  | root => do
    let (rootHash, root, db) ← hashTrie C db root
    if root.cache.2 then
      match commit root with
      | .ok (.hash newRoot, leaves) => return (rootHash, .hash newRoot, leaves, db)
      | .ok _ => .error (.panic .explicit)
      | .error p => .error (.panic p)
    else return (rootHash, root, [], db)

def commitTrie (C : Crypto) (db : Database) (root : Node) :
    Except TrieError (Hash × ℕ × Node × Database) := do
  let (rootHash, root, leaves, db) ← commitNodes C db root
  return (rootHash, leaves.length, root, commitLoop db leaves)

end Geth.Trie.Operations
