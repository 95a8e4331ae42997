import Mathlib.Data.List.AList
import Geth.Trie.Decode

namespace Geth.Trie.NodeStore

open Lib.BigEndian Common.Basic Rlp.Encode Encoding Decode

/-- A node without caches and flags, with its key as bytes. -/
inductive RawNode where
  | nil
  | value (v : Bytes)
  | hash (h : Hash)
  | short (key : Bytes) (val : RawNode)
  | full (children : Nibble → RawNode)

/-- An absent child is an empty string in a full node and an empty list in a
short node. -/
def RawNode.item : RawNode → Item
  | .nil => .str []
  | .value v => .str v
  | .hash h => .str h.toList
  | .short key .nil => .list [.str key, .list []]
  | .short key val => .list [.str key, val.item]
  | .full cs => .list ((List.finRange 17).map fun i => (cs i).item)

/-- Discards the caches of a node. Keys are taken over digit by digit. -/
def simplifyNode : Node → RawNode
  | .nil => .nil
  | .value v => .value v
  | .hash h => .hash h
  | .short key val _ => .short (key.map byteOf) (simplifyNode val)
  | .full cs _ => .full fun i => simplifyNode (cs i)

def expandNode (hash : Option Hash) : RawNode → Node
  | .nil => .nil
  | .value v => .value v
  | .hash h => .hash h
  | .short key val => .short (compactToHex key) (expandNode none val) { hash }
  | .full cs => .full (fun i => expandNode none (cs i)) { hash }

/-- A clean copy of a node. Children of a full node that have a hash are cut off. -/
def createNode : Node → Node
  | .nil => .nil
  | .value v => .value v
  | .hash h => .hash h
  | .short key val fl => .short key (createNode val) { hash := fl.hash }
  | .full cs fl =>
    .full (fun i =>
      match (cs i).cache.1 with
      | some h => .hash h
      | none => createNode (cs i)) { hash := fl.hash }

/-- The estimate leaves the 17th child out. -/
def estimateSize : RawNode → ℕ
  | .nil => 0
  | .value v => 1 + v.length
  | .hash _ => 1 + 32
  | .short key val => 3 + key.length + estimateSize val
  | .full cs =>
    (List.finRange 16).foldl (fun s i =>
      match cs i.castSucc with
      | .nil => s + 1
      | _ => s + estimateSize (cs i.castSucc)) 3

abbrev HashCache := AList fun _ : Hash => Node

structure CachedNode where
  node : RawNode
  size : ℕ
  children : List Hash := []

def CachedNode.rlp (n : CachedNode) : Bytes := encode n.node.item

def CachedNode.obj (n : CachedNode) (hash : Hash) : Node := expandNode (some hash) n.node

def forGatherChildren : RawNode → List Hash
  | .short _ val => forGatherChildren val
  | .full cs => (List.finRange 16).flatMap fun i => forGatherChildren (cs i.castSucc)
  | .hash h => [h]
  | _ => []

def CachedNode.forChilds (n : CachedNode) : List Hash := n.children ++ forGatherChildren n.node

/-- The node database. `dirties` is in the order of the flush-list, oldest
first; the entry of the meta root, under the zero hash, is `roots`. -/
structure Database where
  disk : AList fun _ : Hash => Bytes
  cleans : Option (AList fun _ : Hash => Bytes)
  dirties : List (Hash × CachedNode)
  roots : List Hash
  dirtiesSize : ℤ
  childrenSize : ℤ
  dirtyHashCache : HashCache
  flushedHashCache : Option HashCache

def newDatabase (disk : AList fun _ : Hash => Bytes) (cleans : Option (AList fun _ : Hash => Bytes)) :
    Database where
  disk := disk
  cleans := cleans
  dirties := []
  roots := []
  dirtiesSize := 0
  childrenSize := 0
  dirtyHashCache := ∅
  flushedHashCache := none

def cachedNodeSize : ℤ := 96

def cachedNodeChildrenSize : ℤ := 48

namespace Database

def insert (db : Database) (hash : Hash) (size : ℕ) (node : RawNode) : Database :=
  if hash = zeros 32 ∨ (db.dirties.lookup hash).isSome then db
  else
    { db with
      dirties := db.dirties ++ [(hash, { node, size := size % 2 ^ 16 })]
      dirtiesSize := db.dirtiesSize + ((32 + size % 2 ^ 16) % 2 ^ 16 : ℕ) }

def mustDecodeNode (hash : Hash) (buf : Bytes) : Except Panic Node :=
  match decodeNode (some hash) buf with
  | .ok n => .ok n
  | .error _ => .error .explicit

/-- The lookup that tries resolve hashes with; `.nil` if there is no such node. -/
def node (db : Database) (hash : Hash) : Except Panic Node :=
  match db.cleans.bind (·.lookup hash) with
  | some enc => mustDecodeNode hash enc
  | none =>
    match db.flushedHashCache.bind (·.lookup hash) with
    | some n => .ok (createNode n)
    | none =>
      -- the entry of the meta root has no node to expand
      if hash = zeros 32 then .error .explicit
      else
        match db.dirties.lookup hash with
        | some dirty => .ok (dirty.obj hash)
        | none =>
          match db.disk.lookup hash with
          | some enc => mustDecodeNode hash enc
          | none => .ok .nil

/-- The lookup of encoded nodes; `none` is the error "not found". -/
def encodedNode (db : Database) (hash : Hash) : Option Bytes :=
  if hash = zeros 32 then none
  else
    match db.cleans.bind (·.lookup hash) with
    | some enc => some enc
    | none =>
      match db.flushedHashCache.bind (·.lookup hash) with
      | some n => some (encode (simplifyNode n).item)
      | none =>
        match db.dirties.lookup hash with
        | some dirty => some dirty.rlp
        | none =>
          match db.disk.lookup hash with
          | some enc => if enc.length ≠ 0 then some enc else none
          | none => none

def inMemory (db : Database) (hash : Hash) : Bool :=
  (db.cleans.bind (·.lookup hash)).isSome || (db.flushedHashCache.bind (·.lookup hash)).isSome ||
    (db.dirties.lookup hash).isSome

def remember (db : Database) (hash : Hash) : Database :=
  if db.inMemory hash then db
  else
    match db.disk.lookup hash with
    | some enc => { db with cleans := db.cleans.map (·.insert hash enc) }
    | none => db

/-- The clean cache is bounded and may drop an entry at any time. -/
def evict (db : Database) (hash : Hash) : Database :=
  { db with cleans := db.cleans.map (·.erase hash) }

def flushHashCache (db : Database) : Database :=
  { db with flushedHashCache := some db.dirtyHashCache, dirtyHashCache := ∅ }

def childrenCost (n : CachedNode) : ℤ :=
  if n.children = [] then 0 else cachedNodeChildrenSize + n.children.length * 34

/-- The entries that are written until the size is below the limit. -/
def flushList (limit : ℤ) : ℤ → List (Hash × CachedNode) → List (Hash × CachedNode)
  | _, [] => []
  | size, e :: rest =>
    if limit < size then
      e :: flushList limit (size - (32 + e.2.size + cachedNodeSize) - childrenCost e.2) rest
    else []

def write (disk : AList fun _ : Hash => Bytes) (batch : List (Hash × Bytes)) :
    AList fun _ : Hash => Bytes :=
  batch.foldl (fun d e => d.insert e.1 e.2) disk

def cap (db : Database) (limit : ℤ) : Database :=
  let size := db.dirtiesSize + db.dirties.length * cachedNodeSize + (db.childrenSize - db.roots.length * 34)
  let flushed := flushList limit size db.dirties
  { db with
    disk := write db.disk (flushed.map fun e => (e.1, e.2.rlp))
    dirties := db.dirties.drop flushed.length
    dirtiesSize := flushed.foldl (fun s e => s - (32 + e.2.size)) db.dirtiesSize
    childrenSize := flushed.foldl (fun s e => s - childrenCost e.2) db.childrenSize }

/-- The nodes below a hash that are still in memory, children first. No path
through them is longer than there are entries; the fuel bounds its length. -/
def commitFrom (db : Database) : ℕ → Hash → Option (List (Hash × Bytes))
  | 0, _ => none
  | fuel + 1, hash =>
    match db.dirties.lookup hash with
    | none => some []
    | some n => do
      let below ← n.forChilds.mapM (commitFrom db fuel)
      return below.flatten ++ [(hash, n.rlp)]

def uncache (db : Database) (hash : Hash) (rlp : Bytes) : Database :=
  match db.dirties.lookup hash with
  | none => db
  | some n =>
    { db with
      dirties := db.dirties.filter fun e => e.1 ≠ hash
      dirtiesSize := db.dirtiesSize - (32 + n.size) - childrenCost n
      cleans := db.cleans.map (·.insert hash rlp) }

/-- `none` if the references form a cycle, which the recursion never leaves. -/
def commit (db : Database) (root : Hash) : Option Database := do
  let batch ← db.commitFrom (db.dirties.length + 1) root
  return batch.foldl (fun d e => d.uncache e.1 e.2) { db with disk := write db.disk batch }

end Database

end Geth.Trie.NodeStore
