import Geth.Lib.Overlay
import Geth.Lib.Descent
import Geth.Common.Basic

namespace Geth.Snapshot.LayerTree

open Lib.BigEndian Lib.Overlay Lib.Descent Common.Basic

/-- The accounts and slots of a state. What is absent has no bytes. -/
abbrev World := Contents Hash Hash Bytes

abbrev Changes := Diff Hash Hash Bytes

inductive BloomItem where
  | destruct (hash : Hash)
  | account (hash : Hash)
  | storage (accountHash storageHash : Hash)

/-- A bloom filter. It may answer yes for what was never added. -/
structure BloomFilter where
  Filter : Type
  new : Filter
  add : Filter → BloomItem → Filter
  contains : Filter → BloomItem → Bool
  contains_add : ∀ f x, contains (add f x) x = true
  contains_mono : ∀ f x y, contains f y = true → contains (add f x) y = true

/-- `genAbort` says whether there is a channel to a generator, which stays after the generator is done. -/
structure DiskLayer where
  root : Hash
  stale : Bool
  genAbort : Bool

/-- Layers refer to each other by the numbers of their objects. -/
structure DiffLayer (B : BloomFilter) where
  origin : ℕ
  parent : ℕ
  memory : UInt64
  root : Hash
  stale : Bool
  data : Changes
  diffed : B.Filter

inductive Layer (B : BloomFilter) where
  | disk (dl : DiskLayer)
  | diff (dl : DiffLayer B)

def Layer.root {B : BloomFilter} : Layer B → Hash
  | .disk dl => dl.root
  | .diff dl => dl.root

def Layer.stale {B : BloomFilter} : Layer B → Bool
  | .disk dl => dl.stale
  | .diff dl => dl.stale

/-- The layers, with the key-value store and the cache that all disk layers
share. -/
structure Tree (B : BloomFilter) where
  objects : ℕ → Option (Layer B)
  next : ℕ
  layers : AList fun _ : Hash => ℕ
  diskdb : World
  snapshotRoot : Hash
  accountCache : Hash → Option Bytes
  storageCache : Hash → Hash → Option Bytes

inductive SnapshotError where
  | stale
  | cycle
  | missing
  | isDiskLayer
  | panic (p : Panic)
  | noReturn
  deriving DecidableEq

/-- A tree with nothing but a disk layer, which is fully generated. -/
def newTree (B : BloomFilter) (root : Hash) (diskdb : World) (genAbort : Bool) : Tree B where
  objects i := if i = 0 then some (.disk ⟨root, false, genAbort⟩) else none
  next := 1
  layers := (∅ : AList fun _ : Hash => ℕ).insert root 0
  diskdb := diskdb
  snapshotRoot := root
  accountCache _ := none
  storageCache _ _ := none

variable {B : BloomFilter}

namespace Tree

def diffLayer (t : Tree B) (i : ℕ) : Option (DiffLayer B) :=
  match t.objects i with
  | some (.diff dl) => some dl
  | _ => none

def diskLayer (t : Tree B) (i : ℕ) : Option DiskLayer :=
  match t.objects i with
  | some (.disk dl) => some dl
  | _ => none

def genAbort (t : Tree B) (i : ℕ) : Bool := ((t.diskLayer i).map DiskLayer.genAbort).getD false

def set (t : Tree B) (i : ℕ) (l : Layer B) : Tree B :=
  { t with objects := Function.update t.objects i (some l) }

def alloc (t : Tree B) (l : Layer B) : ℕ × Tree B := (t.next, { t.set t.next l with next := t.next + 1 })

def readDisk (t : Tree B) (i : ℕ) (cached : Option Bytes) (stored : Bytes) : Except SnapshotError Bytes :=
  match t.diskLayer i with
  | none => .error (.panic .nilPointer)
  | some dl => if dl.stale then .error .stale else .ok (cached.getD stored)

def readFrom (t : Tree B) (own : Changes → Option Bytes) (destructed : Hash)
    (cached : Option Bytes) (stored : Bytes) : ℕ → ℕ → Except SnapshotError Bytes
  | 0, _ => .error .noReturn
  | fuel + 1, i =>
    match t.diffLayer i with
    | none => t.readDisk i cached stored
    | some dl =>
      if dl.stale then .error .stale
      else
        match own dl.data with
        | some data => .ok data
        | none =>
          if destructed ∈ dl.data.destructs then .ok []
          else t.readFrom own destructed cached stored fuel dl.parent

/-- A read at any layer. If the bloom filter misses, the disk is asked. -/
def read (t : Tree B) (own : Changes → Option Bytes) (item : BloomItem) (destructed : Hash)
    (cached : Option Bytes) (stored : Bytes) (i : ℕ) : Except SnapshotError Bytes :=
  match t.diffLayer i with
  | none => t.readDisk i cached stored
  | some dl =>
    if B.contains dl.diffed item || B.contains dl.diffed (.destruct destructed) then
      t.readFrom own destructed cached stored t.next i
    else t.readDisk dl.origin cached stored

def accountRLP (t : Tree B) (i : ℕ) (hash : Hash) : Except SnapshotError Bytes :=
  t.read (fun d => d.accounts.lookup hash) (.account hash) hash (t.accountCache hash)
    (t.diskdb.account hash) i

def storage (t : Tree B) (i : ℕ) (accountHash storageHash : Hash) : Except SnapshotError Bytes :=
  t.read (fun d => d.slot accountHash storageHash) (.storage accountHash storageHash) accountHash
    (t.storageCache accountHash storageHash) (t.diskdb.storage accountHash storageHash) i

/-- What the cache may do at any time: a read of the disk leaves an account
there, or the entry is dropped. -/
def cacheAccount (t : Tree B) (hash : Hash) (present : Bool) : Tree B :=
  { t with
    accountCache := Function.update t.accountCache hash
      (if present then some ((t.accountCache hash).getD (t.diskdb.account hash)) else none) }

def cacheStorage (t : Tree B) (accountHash storageHash : Hash) (present : Bool) : Tree B :=
  { t with
    storageCache := Function.update t.storageCache accountHash
      (Function.update (t.storageCache accountHash) storageHash
        (if present then
          some ((t.storageCache accountHash storageHash).getD
            (t.diskdb.storage accountHash storageHash))
        else none)) }

end Tree

def itemsOf (data : Changes) : List BloomItem :=
  data.destructs.keys.map .destruct ++ data.accounts.keys.map .account ++
    data.storage.entries.flatMap fun e => e.2.keys.map (.storage e.1)

def memoryOf (data : Changes) : UInt64 :=
  let m := data.accounts.entries.foldl (fun m e => m + UInt64.ofNat (32 + e.2.length)) 0
  let m := data.storage.entries.foldl (fun m e =>
    e.2.entries.foldl (fun m s => m + UInt64.ofNat (32 + s.2.length)) m) m
  m + UInt64.ofNat (data.destructs.keys.length * 32)

namespace Tree

def bloomOver (t : Tree B) (parent : ℕ) (data : Changes) : B.Filter :=
  (itemsOf data).foldl B.add
    (match t.diffLayer parent with
    | some p => p.diffed
    | none => B.new)

def rebloom (t : Tree B) (i origin : ℕ) : Tree B :=
  match t.diffLayer i with
  | some dl => t.set i (.diff { dl with origin, diffed := t.bloomOver dl.parent dl.data })
  | none => t

def newDiffLayer (t : Tree B) (parent : ℕ) (root : Hash) (data : Changes) : DiffLayer B where
  origin :=
    match t.diffLayer parent with
    | some p => p.origin
    | none => parent
  parent := parent
  memory := memoryOf data
  root := root
  stale := false
  data := data
  diffed := t.bloomOver parent data

def update (t : Tree B) (blockRoot parentRoot : Hash) (data : Changes) :
    Except SnapshotError (Tree B) :=
  if blockRoot = parentRoot then .error .cycle
  else
    match t.layers.lookup parentRoot with
    | none => .error .missing
    | some parent =>
      let (i, t) := t.alloc (.diff (t.newDiffLayer parent blockRoot data))
      .ok { t with layers := t.layers.insert blockRoot i }

/-- One step of `flatten`: the data goes into the flattened parent, which
becomes stale, and a new layer takes both places. -/
def mergeInto (t : Tree B) (j : ℕ) (parent dl : DiffLayer B) : ℕ × Tree B :=
  (t.set j (.diff { parent with stale := true, data := parent.data.merge dl.data })).alloc
    (.diff
      { origin := parent.origin
        parent := parent.parent
        memory := parent.memory + dl.memory
        root := dl.root
        stale := false
        data := parent.data.merge dl.data
        diffed := dl.diffed })

def flatten (t : Tree B) : ℕ → ℕ → Except SnapshotError (ℕ × Tree B)
  | 0, _ => .error .noReturn
  | fuel + 1, i =>
    match t.diffLayer i with
    | none => .error (.panic .nilPointer)
    | some dl =>
      if (t.diffLayer dl.parent).isNone then .ok (i, t)
      else
        match t.flatten fuel dl.parent with
        | .error e => .error e
        | .ok (j, t) =>
          match t.diffLayer j with
          | none => .error (.panic .nilPointer)
          | some parent =>
            if parent.stale then .error (.panic .explicit) else .ok (t.mergeInto j parent dl)

def destroy (t : Tree B) (hash : Hash) : Tree B :=
  { t with
    diskdb :=
      { account := Function.update t.diskdb.account hash []
        storage := Function.update t.diskdb.storage hash fun _ => [] }
    accountCache := Function.update t.accountCache hash (some [])
    storageCache := Function.update t.storageCache hash fun k =>
      if t.diskdb.storage hash k ≠ [] then none else t.storageCache hash k }

def writeAccount (t : Tree B) (hash : Hash) (data : Bytes) : Tree B :=
  { t with
    diskdb := { t.diskdb with account := Function.update t.diskdb.account hash data }
    accountCache := Function.update t.accountCache hash (some data) }

/-- A slot without data is deleted. -/
def writeSlot (t : Tree B) (accountHash storageHash : Hash) (data : Bytes) : Tree B :=
  { t with
    diskdb :=
      { t.diskdb with
        storage := Function.update t.diskdb.storage accountHash
          (Function.update (t.diskdb.storage accountHash) storageHash data) }
    storageCache := Function.update t.storageCache accountHash
      (Function.update (t.storageCache accountHash) storageHash (some data)) }

def writeChanges (t : Tree B) (data : Changes) : Tree B :=
  let t := data.destructs.keys.foldl destroy t
  let t := data.accounts.entries.foldl (fun t e => t.writeAccount e.1 e.2) t
  data.storage.entries.foldl (fun t e =>
    e.2.entries.foldl (fun t s => t.writeSlot e.1 s.1 s.2) t) t

def diffToDisk (t : Tree B) (i : ℕ) : Except SnapshotError (ℕ × Tree B) :=
  match t.diffLayer i with
  | none => .error (.panic .nilPointer)
  | some bottom =>
    match t.diskLayer bottom.parent with
    | none => .error (.panic .nilPointer)
    | some base =>
      if base.stale then .error (.panic .explicit)
      else
        let t := t.set bottom.parent (.disk { base with stale := true })
        let t := { t.writeChanges bottom.data with snapshotRoot := bottom.root }
        -- the state is fully generated, so that no generator is started again
        .ok (t.alloc (.disk ⟨bottom.root, false, false⟩))

/-- The layer that many steps below, if all on the way are diff layers. -/
def dive (t : Tree B) : ℕ → ℕ → Option ℕ
  | 0, i => some i
  | n + 1, i =>
    match t.diffLayer i with
    | none => none
    | some dl => if (t.diffLayer dl.parent).isSome then t.dive n dl.parent else none

def register (t : Tree B) (root : Hash) (i : ℕ) : Tree B := { t with layers := t.layers.insert root i }

def setParent (t : Tree B) (i parent : ℕ) : Tree B :=
  match t.diffLayer i with
  | some dl => t.set i (.diff { dl with parent })
  | none => t

def writeDown (t : Tree B) (j f : ℕ) (root : Hash) : Except SnapshotError (Option ℕ × Tree B) :=
  match t.diffToDisk f with
  | .error e => .error e
  | .ok (b, t) => .ok (some b, (t.register root b).setParent j b)

/-- The second half of `Tree.cap`: a flattened layer that has grown over the
limit is written to disk, and every one over a disk layer with a generator. -/
def persist (limit : UInt64) (t : Tree B) (j f : ℕ) (flattened : DiffLayer B) :
    Except SnapshotError (Option ℕ × Tree B) :=
  if flattened.memory < limit then
    match t.diskLayer flattened.parent with
    | none => .error (.panic .nilPointer)
    | some base => if base.genAbort then t.writeDown j f flattened.root else .ok (none, t)
  else t.writeDown j f flattened.root

/-- `Tree.cap`, with the disk layer that was written, if any. -/
def capFrom (limit : UInt64) (t : Tree B) (i layers : ℕ) :
    Except SnapshotError (Option ℕ × Tree B) :=
  match t.dive (layers - 1) i with
  | none => .ok (none, t)
  | some j =>
    match t.diffLayer j with
    | none => .error (.panic .nilPointer)
    | some dl =>
      if (t.diffLayer dl.parent).isNone then .ok (none, t)
      else
        match t.flatten t.next dl.parent with
        | .error e => .error e
        | .ok (f, t) =>
          match t.diffLayer f with
          | none => .error (.panic .nilPointer)
          | some flattened =>
            ((t.register flattened.root f).setParent j f).persist limit j f flattened

def rootOf (t : Tree B) (i : ℕ) : Option Hash := (t.objects i).map Layer.root

def isStale (t : Tree B) (i : ℕ) : Bool := ((t.objects i).map Layer.stale).getD false

def parentRoot (t : Tree B) (i : ℕ) : Option Hash := (t.diffLayer i).bind fun dl => t.rootOf dl.parent

def childrenOf (t : Tree B) (root : Hash) : List Hash :=
  (t.layers.entries.filter fun e => t.parentRoot e.2 = some root).map Sigma.fst

/-- The registered layers without those that are stale or have a stale one
below them. -/
def removeStale (t : Tree B) : Option (AList fun _ : Hash => ℕ) := do
  let stale := (t.layers.entries.filter fun e => t.isStale e.2).map Sigma.fst
  let gone ← stale.mapM (visit t.childrenOf t.next)
  return without t.layers gone.flatten

def rebloomAll (origin : ℕ) (t : Tree B) (roots : List Hash) : Tree B :=
  roots.foldl (fun t r => ((t.layers.lookup r).map fun i => t.rebloom i origin).getD t) t

/-- The end of `Tree.Cap`: stale layers go, and the filters are made anew if
the disk changed. -/
def cleanUp (t : Tree B) (persisted : Option ℕ) : Except SnapshotError (Tree B) :=
  match t.removeStale with
  | none => .error .noReturn
  | some kept =>
    match persisted with
    | none => .ok { t with layers := kept }
    | some b =>
      match (t.rootOf b).bind (visit t.childrenOf t.next) with
      | none => .error .noReturn
      | some roots => .ok (rebloomAll b { t with layers := kept } roots)

/-- Everything up to a layer goes to disk and nothing else is left. -/
def capAll (t : Tree B) (i : ℕ) : Except SnapshotError (Tree B) :=
  match t.flatten t.next i with
  | .error e => .error e
  | .ok (f, t) =>
    match t.diffToDisk f with
    | .error e => .error e
    | .ok (b, t) =>
      match t.diskLayer b with
      | none => .error (.panic .nilPointer)
      | some base => .ok { t with layers := (∅ : AList fun _ : Hash => ℕ).insert base.root b }

def cap (limit : UInt64) (t : Tree B) (root : Hash) (layers : ℕ) : Except SnapshotError (Tree B) :=
  match t.layers.lookup root with
  | none => .error .missing
  | some i =>
    if (t.diffLayer i).isNone then .error .isDiskLayer
    else if layers = 0 then t.capAll i
    else
      match t.capFrom limit i layers with
      | .error e => .error e
      | .ok (persisted, t) => t.cleanUp persisted

end Tree

end Geth.Snapshot.LayerTree
