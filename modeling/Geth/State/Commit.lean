import Geth.State.Journal

namespace Geth.State.Commit

open Lib.BigEndian Common.Basic Rlp.Encode Account Journal Function

/-- The roots of tries, which are determined by what they hold. -/
structure Roots where
  storage : StorageTrie → Hash
  accounts : AccountTrie → Hash
  storage_empty : storage emptyTrie = emptyRoot

def tryUpdate {κ β : Type} [DecidableEq κ] (t : κ → Option β) (key : κ) (value : β) : κ → Option β :=
  if (t key).isSome then update t key (some value) else t

def encodeSlot (value : Hash) : Bytes :=
  if value = zeros 32 then [] else encodeString (value.toList.dropWhile (· == 0))

def slim (C : Crypto) (data : StateAccount) : SlimAccount where
  nonce := data.nonce
  balance := data.balance
  root := if data.root = emptyRoot then none else some data.root
  codeHash := if data.codeHash = emptyCodeHash C then none else some data.codeHash

section

variable (C : Crypto) (B : Backend) (R : Roots)

def finaliseObject (o : StateObject) : StateObject :=
  { o with pendingStorage := o.dirtyStorage ∪ o.pendingStorage, dirtyStorage := ∅ }

/-- Write a pending slot unless it has its original value. The second part is
the storage map for the snapshot. -/
def writeSlot (acc : StateObject × (Hash → Option Bytes)) (slot : (_ : Hash) × Hash) :
    StateObject × (Hash → Option Bytes) :=
  if slot.2 = (acc.1.originStorage.lookup slot.1).getD (zeros 32) then acc
  else
    let t := acc.1.trie.getD emptyTrie
    ({ acc.1 with
      originStorage := acc.1.originStorage.insert slot.1 slot.2
      trie := some (tryUpdate t slot.1 (encodeSlot slot.2))
      dbErr := acc.1.dbErr || (t slot.1).isNone },
      if B.snap.isSome then update acc.2 (slotHash C slot.1) (some (encodeSlot slot.2)) else acc.2)

def updateTrieConcurrencySafe (o : StateObject) (storage : Hash → Option Bytes) :
    StateObject × (Hash → Option Bytes) :=
  if o.pendingStorage.entries = [] then (o, storage)
  else
    let (o', storage) := o.pendingStorage.entries.foldl (writeSlot C B) ((o.getTrie C B).2, storage)
    ({ o' with pendingStorage := ∅ }, storage)

def hashRoot (o : StateObject) : StateObject :=
  match o.trie with
  | none => o
  | some t => { o with data := { o.data with root := R.storage t } }

end

section

variable (C : Crypto) (B : Backend) (deleteEmptyObjects : Bool) (s : StateDB)

def markDeleted (obj : StateObject) : StateDB :=
  let s := s.setStateObject { obj with deleted := true }
  if B.snap.isSome then
    { s with
      snapDestructs := update s.snapDestructs (addrHash C obj.address) true
      snapAccounts := update s.snapAccounts (addrHash C obj.address) none
      snapStorage := update s.snapStorage (addrHash C obj.address) fun _ => none }
  else s

def finaliseAddress (a : Address) : StateDB :=
  match s.stateObjects a with
  | none => s
  | some obj =>
    let s := if obj.suicided || (deleteEmptyObjects && obj.empty C) then markDeleted C B s obj
      else s.setStateObject (finaliseObject obj)
    { s with
      stateObjectsPending := s.stateObjectsPending.insert a
      stateObjectsDirty := s.stateObjectsDirty.insert a }

def clearJournalAndRefund : StateDB :=
  let s := if s.entries.length > 0 then { s with entries := [], dirties := ∅, refund := 0 } else s
  { s with revisions := s.revisions.take 0 }

def finalise : StateDB :=
  clearJournalAndRefund (s.dirties.keys.foldl (finaliseAddress C B deleteEmptyObjects) s)

end

section

variable (C : Crypto) (B : Backend) (R : Roots) (deleteEmptyObjects : Bool) (s : StateDB)

def writeAccount (a : Address) (acc : Option StateAccount) : StateDB :=
  { s with trie := tryUpdate s.trie a acc, dbErr := s.dbErr || (s.trie a).isNone }

def setSnapStorage (a : Address) (storage : Hash → Option Bytes) : StateDB :=
  { s with
    snapStorage := if B.snap.isSome then update s.snapStorage (addrHash C a) storage
      else s.snapStorage }

def setSnapAccount (a : Address) (data : StateAccount) : StateDB :=
  { s with
    snapAccounts := if B.snap.isSome then
        update s.snapAccounts (addrHash C a) (some (slim C data))
      else s.snapAccounts }

/-- `preUpdateStateObject` and `updateStateObject`. Negative balances cannot be
encoded. -/
def updateStateObject (obj : StateObject) : Except Panic StateDB :=
  let (obj, storage) := updateTrieConcurrencySafe C B (finaliseObject obj) (s.snapStorage (addrHash C obj.address))
  let obj := hashRoot R obj
  if obj.data.balance < 0 then .error .explicit
  else
    .ok (setSnapAccount C B (writeAccount (setSnapStorage C B (s.setStateObject obj) obj.address storage)
      obj.address (some obj.data)) obj.address obj.data)

def updateAddress (a : Address) : Except Panic StateDB :=
  match s.stateObjects a with
  | none => .error .nilPointer
  | some obj =>
    if obj.deleted then .ok (writeAccount s a none) else updateStateObject C B R s obj

def intermediateRoot : Except Panic (Hash × StateDB) := do
  let s := finalise C B deleteEmptyObjects s
  let s ← s.stateObjectsPending.foldlM (updateAddress C B R) s
  return (R.accounts s.trie, { s with stateObjectsPending := [] })

end

section

structure Committed where
  root : Hash
  accounts : AccountTrie
  codes : List (Hash × Bytes)
  tries : List (Hash × StorageTrie)
  layer : Option Snapshot

inductive CommitError where
  | panic (p : Panic)
  | earlier

variable (C : Crypto) (B : Backend) (R : Roots) (deleteEmptyObjects : Bool) (s : StateDB)

/-- The objects with their codes and tries that were written. -/
structure Progress where
  state : StateDB
  codes : List (Hash × Bytes)
  tries : List (Hash × StorageTrie)

def commitTrie (obj : StateObject) : Except CommitError (StateDB × Option (Hash × StorageTrie)) :=
  let (obj, storage) := updateTrieConcurrencySafe C B (finaliseObject obj) (s.snapStorage (addrHash C obj.address))
  let s := setSnapStorage C B (s.setStateObject obj) obj.address storage
  match obj.trie with
  | none => .ok (s, none)
  | some t =>
    if obj.dbErr then .error .earlier
    else .ok (s.setStateObject (hashRoot R obj), some (R.storage t, t))

def dirtyCodeOf (obj : StateObject) : List (Hash × Bytes) :=
  match obj.code with
  | none => []
  | some code => if obj.dirtyCode then [(obj.data.codeHash, code)] else []

def commitAddress (progress : Progress) (a : Address) : Except CommitError Progress :=
  match progress.state.stateObjects a with
  | none => .error (.panic .nilPointer)
  | some obj =>
    if obj.deleted then .ok progress
    else do
      let (s, t) ← commitTrie C B R progress.state
        { obj with dirtyCode := obj.dirtyCode && obj.code.isNone }
      return ⟨s, dirtyCodeOf obj ++ progress.codes, t.toList ++ progress.tries⟩

/-- `newDiffLayer`: a layer on top of its parent. -/
def diffLayer (parent : Snapshot) (root : Hash) : Snapshot where
  root := root
  account h := match s.snapAccounts h with
    | some acc => some (some acc)
    | none => if s.snapDestructs h then some none else parent.account h
  storage h slot := match s.snapStorage h slot with
    | some enc => some enc
    | none => if s.snapDestructs h then some [] else parent.storage h slot

def layerOf (root : Hash) : Option Snapshot :=
  B.snap.map fun parent => if parent.root ≠ root then diffLayer s parent root else parent

def commit : Except CommitError Committed :=
  if s.dbErr then .error .earlier
  else do
    let (_, s) ← (intermediateRoot C B R deleteEmptyObjects s).mapError .panic
    let progress ← s.stateObjectsDirty.foldlM (commitAddress C B R) ⟨s, [], []⟩
    let s := progress.state
    let root := R.accounts s.trie
    return ⟨root, s.trie, progress.codes, progress.tries, layerOf B s root⟩

def openWritten (r : Committed) (addrHash root : Hash) : Option StorageTrie :=
  if root = emptyRoot then some emptyTrie
  else (r.tries.lookup root).or (B.openStorageTrie addrHash root)

/-- What a state is opened on after a commit, with the snapshot or without. -/
def reopened (r : Committed) (snapshots : Bool) : Backend where
  snap := if snapshots then r.layer else none
  openStorageTrie := openWritten B r
  openEmpty _ := if_pos rfl
  contractCode addrHash codeHash := (r.codes.lookup codeHash).or (B.contractCode addrHash codeHash)

end

end Geth.State.Commit
