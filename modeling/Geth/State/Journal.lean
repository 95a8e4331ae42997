import Geth.Lib.UndoLog
import Geth.State.Access
import Geth.State.Account
import Geth.Types.Receipts

namespace Geth.State.Journal

open Lib.BigEndian Lib.UndoLog Common.Basic Types.Receipts Access Account Function

/-- The changes that can be reverted, with what they replaced. -/
inductive JournalEntry where
  | createObject (account : Address)
  | resetObject (prev : StateObject) (prevdestruct : Bool)
  | suicide (account : Address) (prev : Bool) (prevbalance : Int)
  | balance (account : Address) (prev : Int)
  | nonce (account : Address) (prev : UInt64)
  | storage (account : Address) (key prevalue : Hash)
  | code (account : Address) (prevcode : Option Bytes) (prevhash : Hash)
  | refund (prev : UInt64)
  | addLog (txhash : Hash)
  | addPreimage (hash : Hash)
  | touch (account : Address)
  | accessListAddAccount (address : Address)
  | accessListAddSlot (address : Address) (slot : Hash)
  | erase (account : Address) (prevcode : Option Bytes) (prevhash prevroot : Hash)

def JournalEntry.dirtied : JournalEntry → Option Address
  | .createObject account => some account
  | .resetObject _ _ => none
  | .suicide account _ _ => some account
  | .balance account _ => some account
  | .nonce account _ => some account
  | .storage account _ _ => some account
  | .code account _ _ => some account
  | .refund _ => none
  | .addLog _ => none
  | .addPreimage _ => none
  | .touch account => some account
  | .accessListAddAccount _ => none
  | .accessListAddSlot _ _ => none
  | .erase account _ _ _ => some account

structure Revision where
  id : ℕ
  journalIndex : ℕ

/-- The revisions that can be reverted to. Their ids grow. -/
structure Revisions where
  valid : List Revision
  next : ℕ
  sorted : valid.Pairwise fun r r' => r.id < r'.id
  lt_next : ∀ r ∈ valid, r.id < next

variable (revisions : Revisions)

theorem sorted_push (index : ℕ) :
    (revisions.valid ++ [Revision.mk revisions.next index]).Pairwise fun r r' => r.id < r'.id := by
  rw [List.pairwise_append]
  refine ⟨revisions.sorted, List.pairwise_singleton _ _, fun r hr r' hr' => ?_⟩
  rw [List.mem_singleton.mp hr']
  exact revisions.lt_next r hr

theorem lt_next_push (index : ℕ) :
    ∀ r ∈ revisions.valid ++ [Revision.mk revisions.next index], r.id < revisions.next + 1 := by
  intro r hr
  rcases List.mem_append.mp hr with hr | hr
  · exact Nat.lt_succ_of_lt (revisions.lt_next r hr)
  rw [List.mem_singleton.mp hr]
  exact Nat.lt_succ_self _

def Revisions.push (revisions : Revisions) (index : ℕ) : Revisions where
  valid := revisions.valid ++ [⟨revisions.next, index⟩]
  next := revisions.next + 1
  sorted := sorted_push revisions index
  lt_next := lt_next_push revisions index

def Revisions.take (revisions : Revisions) (n : ℕ) : Revisions where
  valid := revisions.valid.take n
  next := revisions.next
  sorted := revisions.sorted.sublist (List.take_sublist n _)
  lt_next r hr := revisions.lt_next r (List.mem_of_mem_take hr)

/-- The number of entries for each address that has some. -/
abbrev Dirties := AList fun _ : Address => Int

def Dirties.count (dirties : Dirties) (a : Address) : Int := (dirties.lookup a).getD 0

/-- What the account trie answers. `none` is a missing node. -/
abbrev AccountTrie := Address → Option (Option StateAccount)

/-- A state. The entries of the journal are listed from the latest one on. -/
structure StateDB where
  trie : AccountTrie
  snapDestructs : Hash → Bool
  snapAccounts : Hash → Option SlimAccount
  snapStorage : Hash → Hash → Option Bytes
  stateObjects : Address → Option StateObject
  keyed : ∀ a o, stateObjects a = some o → o.address = a
  stateObjectsPending : List Address
  stateObjectsDirty : List Address
  dbErr : Bool
  refund : UInt64
  thash : Hash
  txIndex : ℕ
  logs : Hash → List Log
  logSize : ℕ
  preimages : Hash → Option Bytes
  accessList : AccessList
  entries : List JournalEntry
  dirties : Dirties
  revisions : Revisions

def noRevisions : Revisions where
  valid := []
  next := 0
  sorted := .nil
  lt_next _ hr := (List.not_mem_nil hr).elim

namespace StateDB

/-- `New` on an account trie that was opened. -/
def new (trie : AccountTrie) : StateDB where
  trie := trie
  snapDestructs _ := false
  snapAccounts _ := none
  snapStorage _ _ := none
  stateObjects _ := none
  keyed _ _ h := (Option.some_ne_none _ h.symm).elim
  stateObjectsPending := []
  stateObjectsDirty := []
  dbErr := false
  refund := 0
  thash := zeros 32
  txIndex := 0
  logs _ := []
  logSize := 0
  preimages _ := none
  accessList := .new
  entries := []
  dirties := ∅
  revisions := noRevisions

theorem keyed_update (s : StateDB) (o : StateObject) : ∀ a o',
    update s.stateObjects o.address (some o) a = some o' → o'.address = a := by
  intro a o' h
  by_cases ha : a = o.address
  · subst ha
    rw [update_self] at h
    cases h
    rfl
  rw [update_of_ne ha] at h
  exact s.keyed a o' h

theorem keyed_erase (s : StateDB) (address : Address) : ∀ a o,
    update s.stateObjects address none a = some o → o.address = a := by
  intro a o h
  by_cases ha : a = address
  · subst ha
    rw [update_self] at h
    cases h
  rw [update_of_ne ha] at h
  exact s.keyed a o h

variable (C : Crypto) (B : Backend) (s : StateDB)

def setStateObject (object : StateObject) : StateDB :=
  { s with
    stateObjects := update s.stateObjects object.address (some object)
    keyed := s.keyed_update object }

def removeStateObject (address : Address) : StateDB :=
  { s with
    stateObjects := update s.stateObjects address none
    keyed := s.keyed_erase address }

def append (entry : JournalEntry) : StateDB :=
  { s with
    entries := entry :: s.entries
    dirties := match entry.dirtied with
      | none => s.dirties
      | some a => s.dirties.insert a (s.dirties.count a + 1) }

def markDirty (a : Address) : StateDB :=
  { s with dirties := s.dirties.insert a (s.dirties.count a + 1) }

def ripemd : Address := hexToAddress 3

def expandSlim (slim : SlimAccount) : StateAccount :=
  ⟨slim.nonce, slim.balance, slim.root.getD emptyRoot, slim.codeHash.getD (emptyCodeHash C)⟩

/-- The stored account, and whether reading it failed. The trie is asked when
the snapshot cannot answer. -/
def readAccount (a : Address) : Option StateAccount × Bool :=
  match B.snap.bind fun snap => snap.account (addrHash C a) with
  | some acc => (acc.map (expandSlim C), false)
  | none =>
    match s.trie a with
    | some acc => (acc, false)
    | none => (none, true)

def getDeletedStateObject (a : Address) : Option StateObject × StateDB :=
  match s.stateObjects a with
  | some object => (some object, s)
  | none =>
    match s.readAccount C B a with
    | (some data, _) => (some (newObject a data), s.setStateObject (newObject a data))
    | (none, err) => (none, { s with dbErr := s.dbErr || err })

def getStateObject (a : Address) : Option StateObject × StateDB :=
  let (object, s) := s.getDeletedStateObject C B a
  (object.filter (!·.deleted), s)

def isDestructed (a : Address) : Bool := s.snapDestructs (addrHash C a)

/-- Overwrite the account, or make a new one. The previous one is returned even
if it was deleted. -/
def createObject (a : Address) : StateObject × Option StateObject × StateDB :=
  let newobj := newObject a (zeroAccount C)
  let (prev, s) := s.getDeletedStateObject C B a
  match prev with
  | none => (newobj, none, (s.append (.createObject a)).setStateObject newobj)
  | some object =>
    let prevdestruct := B.snap.isSome && s.isDestructed C a
    let s := { s with
      snapDestructs := if B.snap.isSome then update s.snapDestructs (addrHash C a) true
        else s.snapDestructs }
    (newobj, some object, (s.append (.resetObject object prevdestruct)).setStateObject newobj)

def getOrNewStateObject (a : Address) : StateObject × StateDB :=
  match s.getStateObject C B a with
  | (some object, s) => (object, s)
  | (none, s) => let (newobj, _, s) := s.createObject C B a; (newobj, s)

section

variable (a : Address) (key : Hash)

def exist : Bool := (s.getStateObject C B a).1.isSome

def isEmpty : Bool := (s.getStateObject C B a).1.all (·.empty C)

def getBalance : Int := ((s.getStateObject C B a).1.map (·.data.balance)).getD 0

def getNonce : UInt64 := ((s.getStateObject C B a).1.map (·.data.nonce)).getD 0

def getCodeHash : Hash := ((s.getStateObject C B a).1.map (·.data.codeHash)).getD (zeros 32)

def hasSuicided : Bool := (s.getStateObject C B a).1.any (·.suicided)

def getCode : Bytes × StateDB :=
  match s.getStateObject C B a with
  | (some object, s) =>
    let (code, object) := object.getCode C B
    (code.getD [], s.setStateObject object)
  | (none, s) => ([], s)

def getState : Hash × StateDB :=
  match s.getStateObject C B a with
  | (some object, s) =>
    let (value, object) := object.getState C B (s.isDestructed C a) key
    (value, s.setStateObject object)
  | (none, s) => (zeros 32, s)

def getCommittedState : Hash × StateDB :=
  match s.getStateObject C B a with
  | (some object, s) =>
    let (value, object) := object.getCommittedState C B (s.isDestructed C a) key
    (value, s.setStateObject object)
  | (none, s) => (zeros 32, s)

end

section

variable (a : Address)

def touch : StateDB :=
  let s := s.append (.touch a)
  if a = ripemd then s.markDirty a else s

def objectSetBalance (object : StateObject) (amount : Int) : StateDB :=
  (s.append (.balance object.address object.data.balance)).setStateObject (object.setBalance amount)

/-- Zero amounts only touch empty accounts. -/
def objectAddBalance (object : StateObject) (amount : Int) : StateDB :=
  if amount = 0 then
    if object.empty C then s.touch object.address else s
  else s.objectSetBalance object (object.data.balance + amount)

def addBalance (amount : Int) : StateDB :=
  let (object, s) := s.getOrNewStateObject C B a
  s.objectAddBalance C object amount

def subBalance (amount : Int) : StateDB :=
  let (object, s) := s.getOrNewStateObject C B a
  s.objectAddBalance C object (-amount)

def setBalance (amount : Int) : StateDB :=
  let (object, s) := s.getOrNewStateObject C B a
  s.objectSetBalance object amount

def setNonce (nonce : UInt64) : StateDB :=
  let (object, s) := s.getOrNewStateObject C B a
  (s.append (.nonce object.address object.data.nonce)).setStateObject (object.setNonce nonce)

def setCode (code : Bytes) : StateDB :=
  let (object, s) := s.getOrNewStateObject C B a
  let (prevcode, object) := object.getCode C B
  (s.append (.code object.address prevcode object.data.codeHash)).setStateObject
    (object.setCode (C.keccak256 code) (some code))

/-- A write of the present value is only a read. -/
def setState (key value : Hash) : StateDB :=
  let (object, s) := s.getOrNewStateObject C B a
  let (prev, object) := object.getState C B (s.isDestructed C a) key
  if prev = value then s.setStateObject object
  else (s.append (.storage object.address key prev)).setStateObject (object.setState key value)

def createAccount : StateDB :=
  match s.createObject C B a with
  | (newobj, some prev, s) =>
    if prev.deleted then s else s.setStateObject (newobj.setBalance prev.data.balance)
  | (_, none, s) => s

def suicide : Bool × StateDB :=
  match s.getStateObject C B a with
  | (none, s) => (false, s)
  | (some object, s) =>
    (true, (s.append (.suicide a object.suicided object.data.balance)).setStateObject
      ((object.setSuicided true).setBalance 0))

def erase : Bool × StateDB :=
  match s.getStateObject C B a with
  | (none, s) => (false, s)
  | (some object, s) =>
    let (prevcode, object) := object.getCode C B
    (true, (s.append (.erase object.address prevcode object.data.codeHash object.data.root)).setStateObject
      { object with
        code := some []
        data := { object.data with codeHash := emptyCodeHash C, root := emptyRoot }
        trie := none
        dirtyCode := true })

def addLog (log : Log) : StateDB :=
  let s := s.append (.addLog s.thash)
  { s with
    logs := update s.logs s.thash
      (s.logs s.thash ++ [{ log with txHash := s.thash, txIndex := s.txIndex, index := s.logSize }])
    logSize := s.logSize + 1 }

def addPreimage (hash : Hash) (preimage : Bytes) : StateDB :=
  if (s.preimages hash).isSome then s
  else { s.append (.addPreimage hash) with
    preimages := update s.preimages hash (some preimage) }

def addRefund (gas : UInt64) : StateDB :=
  { s.append (.refund s.refund) with refund := s.refund + gas }

def subRefund (gas : UInt64) : Except Panic StateDB :=
  if s.refund < gas then .error .explicit
  else .ok { s.append (.refund s.refund) with refund := s.refund - gas }

def addAddressToAccessList : StateDB :=
  let (added, al) := s.accessList.addAddress a
  let s := { s with accessList := al }
  if added then s.append (.accessListAddAccount a) else s

def addSlotToAccessList (slot : Hash) : Except Panic StateDB := do
  let ((addrMod, slotMod), al) ← s.accessList.addSlot a slot
  let s := { s with accessList := al }
  let s := if addrMod then s.append (.accessListAddAccount a) else s
  return if slotMod then s.append (.accessListAddSlot a slot) else s

end

def modifyObject (a : Address) (f : StateObject → StateObject) : Except Panic StateDB :=
  match s.getStateObject C B a with
  | (some object, s) => .ok (s.setStateObject (f object))
  | (none, _) => .error .nilPointer

def restoreErased (prevcode : Option Bytes) (prevhash prevroot : Hash) (object : StateObject) : StateObject :=
  (({ object with
      code := prevcode
      data := { object.data with codeHash := prevhash, root := prevroot } } : StateObject).getTrie C B).2

def revertEntry : JournalEntry → StateDB → Except Panic StateDB
  | .createObject account, s => .ok { s.removeStateObject account with
      stateObjectsDirty := s.stateObjectsDirty.filter (· ≠ account) }
  | .resetObject prev prevdestruct, s =>
    let s := s.setStateObject prev
    .ok { s with
      snapDestructs := if !prevdestruct && B.snap.isSome then
          update s.snapDestructs (addrHash C prev.address) false
        else s.snapDestructs }
  | .suicide account prev prevbalance, s =>
    match s.getStateObject C B account with
    | (some object, s) => .ok (s.setStateObject ((object.setSuicided prev).setBalance prevbalance))
    | (none, s) => .ok s
  | .balance account prev, s => s.modifyObject C B account (·.setBalance prev)
  | .nonce account prev, s => s.modifyObject C B account (·.setNonce prev)
  | .storage account key prevalue, s => s.modifyObject C B account (·.setState key prevalue)
  | .code account prevcode prevhash, s => s.modifyObject C B account (·.setCode prevhash prevcode)
  | .refund prev, s => .ok { s with refund := prev }
  | .addLog txhash, s =>
    if (s.logs txhash).length = 0 then .error .sliceBounds
    else .ok { s with
      logs := update s.logs txhash (s.logs txhash).dropLast
      logSize := s.logSize - 1 }
  | .addPreimage hash, s => .ok { s with preimages := update s.preimages hash none }
  | .touch _, s => .ok s
  | .accessListAddAccount address, s => .ok { s with accessList := s.accessList.deleteAddress address }
  | .accessListAddSlot address slot, s => do
    let al ← s.accessList.deleteSlot address slot
    return { s with accessList := al }
  | .erase account prevcode prevhash prevroot, s =>
    s.modifyObject C B account fun object =>
      ({ restoreErased C B prevcode prevhash prevroot object with dirtyCode := true })

def undoEntry (entry : JournalEntry) (s : StateDB) : Except Panic StateDB := do
  let s ← revertEntry C B entry s
  return { s with
    dirties := match entry.dirtied with
      | none => s.dirties
      | some a =>
        if s.dirties.count a - 1 = 0 then s.dirties.erase a
        else s.dirties.insert a (s.dirties.count a - 1) }

def revertJournal (snapshot : ℕ) : Except Panic StateDB := do
  let n := s.entries.length - snapshot
  let s' ← undoAll (undoEntry C B) (s.entries.take n) s
  return { s' with entries := s.entries.drop n }

def snapshot : ℕ × StateDB :=
  (s.revisions.next, { s with revisions := s.revisions.push s.entries.length })

/-- Find the revision in the sorted list of valid ones, and undo what came
after it. -/
def revertToSnapshot (revid : ℕ) : Except Panic StateDB := do
  let idx := s.revisions.valid.findIdx fun r => decide (revid ≤ r.id)
  match s.revisions.valid[idx]? with
  | none => .error .explicit
  | some r =>
    if r.id ≠ revid then .error .explicit
    else do
      let s' ← s.revertJournal C B r.journalIndex
      return { s' with revisions := s'.revisions.take idx }

end StateDB

end Geth.State.Journal
