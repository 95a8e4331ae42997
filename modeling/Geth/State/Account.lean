import Geth.Rlp.Raw
import Mathlib.Data.List.AList

namespace Geth.State.Account

open Lib.BigEndian Common.Basic Rlp AList Bool

def emptyRoot : Hash := hexToHash 0x56e81f171bcc55a6ff8345e692c0f86e5b48e01b996cadc001622fb5e363b421

def emptyCodeHash (C : Crypto) : Hash := C.keccak256 []

/-- `SetBytes` and `BytesToHash`: the last 32 bytes, aligned to the right. -/
def bytesToHash (b : Bytes) : Hash :=
  ⟨List.replicate (32 - b.length) 0 ++ b.drop (b.length - 32), by simp; omega⟩

/-- An account of the state trie. Code hashes are written with 32 bytes. -/
structure StateAccount where
  nonce : UInt64
  balance : Int
  root : Hash
  codeHash : Hash
  deriving DecidableEq

/-- An account of a snapshot, which leaves out the hashes of what is empty. -/
structure SlimAccount where
  nonce : UInt64
  balance : Int
  root : Option Hash
  codeHash : Option Hash
  deriving DecidableEq

abbrev Storage := AList fun _ : Hash => Hash

/-- What an open storage trie answers. `none` is a missing node. -/
abbrev StorageTrie := Hash → Option Bytes

def emptyTrie : StorageTrie := fun _ => some []

/-- A layer of the snapshot tree. `none` is an error of the layer. -/
structure Snapshot where
  root : Hash
  account : Hash → Option (Option SlimAccount)
  storage : Hash → Hash → Option Bytes

/-- What a state is opened on: a layer of the snapshot tree, if there is one,
and the database, which needs no node to open the empty trie. -/
structure Backend where
  snap : Option Snapshot
  openStorageTrie : (addrHash root : Hash) → Option StorageTrie
  openEmpty : ∀ addrHash, openStorageTrie addrHash emptyRoot = some emptyTrie
  contractCode : (addrHash codeHash : Hash) → Option Bytes

/-- An account in use, with its write caches. -/
structure StateObject where
  address : Address
  data : StateAccount
  dbErr : Bool
  trie : Option StorageTrie
  code : Option Bytes
  originStorage : Storage
  pendingStorage : Storage
  dirtyStorage : Storage
  dirtyCode : Bool
  suicided : Bool
  deleted : Bool

def newObject (address : Address) (data : StateAccount) : StateObject where
  address := address
  data := { data with root := if data.root = zeros 32 then emptyRoot else data.root }
  dbErr := false
  trie := none
  code := none
  originStorage := ∅
  pendingStorage := ∅
  dirtyStorage := ∅
  dirtyCode := false
  suicided := false
  deleted := false

/-- The account that `types.StateAccount{}` becomes. -/
def zeroAccount (C : Crypto) : StateAccount := ⟨0, 0, zeros 32, emptyCodeHash C⟩

def addrHash (C : Crypto) (address : Address) : Hash := C.keccak256 address.toList
def slotHash (C : Crypto) (key : Hash) : Hash := C.keccak256 key.toList

def slotValue (enc : Bytes) : Hash × Bool :=
  if enc = [] then (zeros 32, true)
  else match Raw.split enc with
    | .ok (_, content, _) => (bytesToHash content, true)
    | .error _ => (zeros 32, false)

namespace StateObject

variable (C : Crypto) (B : Backend) (o : StateObject)

def empty : Bool :=
  decide (o.data.nonce = 0 ∧ o.data.balance = 0 ∧ o.data.codeHash = emptyCodeHash C)

/-- A trie that cannot be opened is replaced by the empty one. -/
def getTrie : StorageTrie × StateObject :=
  match o.trie with
  | some t => (t, o)
  | none =>
    match B.openStorageTrie (addrHash C o.address) o.data.root with
    | some t => (t, { o with trie := some t })
    | none => (emptyTrie, { o with trie := some emptyTrie, dbErr := true })

def cacheSlot (key : Hash) (enc : Bytes) : Hash × StateObject :=
  ((slotValue enc).1, { o with
    originStorage := o.originStorage.insert key (slotValue enc).1
    dbErr := o.dbErr || !(slotValue enc).2 })

def readTrie (key : Hash) : Hash × StateObject :=
  match (o.getTrie C B).1 key with
  | none => (zeros 32, { (o.getTrie C B).2 with dbErr := true })
  | some enc => (o.getTrie C B).2.cacheSlot key enc

/-- Read a slot from the snapshot or from the trie. An account that was
destructed in this block has no slots in the snapshot. -/
def readSlot (destructed : Bool) (key : Hash) : Hash × StateObject :=
  match B.snap with
  | none => o.readTrie C B key
  | some snap =>
    if destructed then (zeros 32, o)
    else match snap.storage (addrHash C o.address) (slotHash C key) with
      | some enc => o.cacheSlot key enc
      | none => o.readTrie C B key

def getCommittedState (destructed : Bool) (key : Hash) : Hash × StateObject :=
  match o.pendingStorage.lookup key with
  | some value => (value, o)
  | none =>
    match o.originStorage.lookup key with
    | some value => (value, o)
    | none => o.readSlot C B destructed key

def getState (destructed : Bool) (key : Hash) : Hash × StateObject :=
  match o.dirtyStorage.lookup key with
  | some value => (value, o)
  | none => o.getCommittedState C B destructed key

/-- The code, where `none` is the nil slice. It is loaded unless the hash is
that of empty code. -/
def getCode : Option Bytes × StateObject :=
  if o.code.isSome ∨ o.data.codeHash = emptyCodeHash C then (o.code, o)
  else
    let code := B.contractCode (addrHash C o.address) o.data.codeHash
    (code, { o with code := code, dbErr := o.dbErr || code.isNone })

def setBalance (amount : Int) : StateObject := { o with data := { o.data with balance := amount } }

def setNonce (nonce : UInt64) : StateObject := { o with data := { o.data with nonce := nonce } }

def setCode (codeHash : Hash) (code : Option Bytes) : StateObject :=
  { o with code := code, data := { o.data with codeHash := codeHash }, dirtyCode := true }

def setSuicided (suicided : Bool) : StateObject := { o with suicided := suicided }

def setState (key value : Hash) : StateObject :=
  { o with dirtyStorage := o.dirtyStorage.insert key value }

structure Alike (destructed : Bool) (o o' : StateObject) : Prop where
  address : o.address = o'.address
  nonce : o.data.nonce = o'.data.nonce
  balance : o.data.balance = o'.data.balance
  codeHash : o.data.codeHash = o'.data.codeHash
  suicided : o.suicided = o'.suicided
  deleted : o.deleted = o'.deleted
  code : (o.getCode C B).1 = (o'.getCode C B).1
  committed : ∀ key, (o.getCommittedState C B destructed key).1 = (o'.getCommittedState C B destructed key).1
  state : ∀ key, (o.getState C B destructed key).1 = (o'.getState C B destructed key).1

variable {C B o} {o' o₂ : StateObject} {destructed : Bool} {key value : Hash}

theorem getCommittedState_fst : (o.getCommittedState C B destructed key).1 =
    (o.pendingStorage.lookup key).getD ((o.originStorage.lookup key).getD (o.readSlot C B destructed key).1) := by
  rw [getCommittedState]
  cases o.pendingStorage.lookup key with
  | some v => rfl
  | none =>
    cases o.originStorage.lookup key with
    | some v => rfl
    | none => rfl

theorem getState_fst : (o.getState C B destructed key).1 =
    (o.dirtyStorage.lookup key).getD (o.getCommittedState C B destructed key).1 := by
  rw [getState]
  cases o.dirtyStorage.lookup key with
  | some v => rfl
  | none => rfl

theorem readTrie_fst : (o.readTrie C B key).1 =
    ((o.getTrie C B).1 key).elim (zeros 32) fun enc => (slotValue enc).1 := by
  rw [readTrie]
  cases (o.getTrie C B).1 key with
  | none => rfl
  | some enc => rfl

theorem getTrie_snd : ∃ err, (o.getTrie C B).2 =
    { o with trie := some (o.getTrie C B).1, dbErr := err } := by
  rw [getTrie]
  cases ht : o.trie with
  | some t =>
    refine ⟨o.dbErr, ?_⟩
    cases o
    cases ht
    rfl
  | none =>
    cases B.openStorageTrie (addrHash C o.address) o.data.root with
    | some t => exact ⟨_, rfl⟩
    | none => exact ⟨_, rfl⟩

section

variable (ha : o'.address = o.address)
include ha

theorem getTrie_fst_congr (hr : o'.data.root = o.data.root)
    (ht : o'.trie = o.trie) : (o'.getTrie C B).1 = (o.getTrie C B).1 := by
  rw [getTrie, getTrie, ha, hr, ht]
  cases o.trie with
  | some t => rfl
  | none =>
    cases B.openStorageTrie (addrHash C o.address) o.data.root with
    | some t => rfl
    | none => rfl

theorem readSlot_congr (ht : (o'.getTrie C B).1 = (o.getTrie C B).1) :
    (o'.readSlot C B destructed key).1 = (o.readSlot C B destructed key).1 := by
  have htrie : (o'.readTrie C B key).1 = (o.readTrie C B key).1 := by
    rw [readTrie_fst, readTrie_fst, ht]
  rw [readSlot, readSlot, ha]
  cases B.snap with
  | none => exact htrie
  | some snap =>
    cases destructed with
    | true => rfl
    | false =>
      simp only [false_eq_true, if_false]
      cases snap.storage (addrHash C o.address) (slotHash C key) with
      | some enc => rfl
      | none => exact htrie

theorem committed_congr (hr : o'.data.root = o.data.root)
    (ht : o'.trie = o.trie) (horigin : o'.originStorage = o.originStorage)
    (hpending : o'.pendingStorage = o.pendingStorage) (key : Hash) :
    (o'.getCommittedState C B destructed key).1 = (o.getCommittedState C B destructed key).1 := by
  rw [getCommittedState_fst, getCommittedState_fst, hpending, horigin,
    readSlot_congr ha (getTrie_fst_congr ha hr ht)]

end

theorem state_congr (hdirty : o'.dirtyStorage = o.dirtyStorage)
    (hcommitted : (o'.getCommittedState C B destructed key).1 = (o.getCommittedState C B destructed key).1) :
    (o'.getState C B destructed key).1 = (o.getState C B destructed key).1 := by
  rw [getState_fst, getState_fst, hdirty, hcommitted]

theorem getCommittedState_setState (o : StateObject) (destructed : Bool) (k v k' : Hash) :
    ((o.setState k v).getCommittedState C B destructed k').1 = (o.getCommittedState C B destructed k').1 := by
  apply committed_congr <;> rfl

theorem getState_setState (k v k' : Hash) : ((o.setState k v).getState C B destructed k').1 =
    if k' = k then v else (o.getState C B destructed k').1 := by
  rw [getState_fst, getState_fst, getCommittedState_setState]
  change ((o.dirtyStorage.insert k v).lookup k').getD _ = _
  by_cases hk : k' = k
  · rw [if_pos hk, hk, lookup_insert]
    rfl
  · rw [if_neg hk, lookup_insert_ne hk]

theorem getCode_congr (ha : o'.address = o.address) (hcode : o'.code = o.code)
    (hhash : o'.data.codeHash = o.data.codeHash) : (o'.getCode C B).1 = (o.getCode C B).1 := by
  rw [getCode, getCode, ha, hcode, hhash]
  split
  · rfl
  · rfl

namespace Alike

theorem refl (o : StateObject) : Alike C B destructed o o :=
  ⟨rfl, rfl, rfl, rfl, rfl, rfl, rfl, fun _ => rfl, fun _ => rfl⟩

theorem symm (h : Alike C B destructed o o') : Alike C B destructed o' o :=
  ⟨h.address.symm, h.nonce.symm, h.balance.symm, h.codeHash.symm, h.suicided.symm, h.deleted.symm,
    h.code.symm, fun key => (h.committed key).symm, fun key => (h.state key).symm⟩

theorem trans (h : Alike C B destructed o o') (h' : Alike C B destructed o' o₂) :
    Alike C B destructed o o₂ :=
  ⟨h.address.trans h'.address, h.nonce.trans h'.nonce, h.balance.trans h'.balance,
    h.codeHash.trans h'.codeHash, h.suicided.trans h'.suicided, h.deleted.trans h'.deleted,
    h.code.trans h'.code, fun key => (h.committed key).trans (h'.committed key),
    fun key => (h.state key).trans (h'.state key)⟩

/-- Caching what was read changes nothing for a getter. -/
theorem of_reads (hfix : o' = { o with
      trie := o'.trie, originStorage := o'.originStorage, dbErr := o'.dbErr })
    (htrie : (o'.getTrie C B).1 = (o.getTrie C B).1)
    (horigin : ∀ key, (o'.originStorage.lookup key).getD (o.readSlot C B destructed key).1 =
      (o.originStorage.lookup key).getD (o.readSlot C B destructed key).1) :
    Alike C B destructed o' o := by
  have haddr : o'.address = o.address := by rw [hfix]
  have hcommitted : ∀ key, (o'.getCommittedState C B destructed key).1 =
      (o.getCommittedState C B destructed key).1 := by
    intro key
    have hpending : o'.pendingStorage = o.pendingStorage := by rw [hfix]
    rw [getCommittedState_fst, getCommittedState_fst, hpending, readSlot_congr haddr htrie, horigin]
  refine ⟨haddr, by rw [hfix], by rw [hfix], by rw [hfix], by rw [hfix], by rw [hfix], ?_, hcommitted, ?_⟩
  · exact getCode_congr haddr (by rw [hfix]) (by rw [hfix])
  · exact fun key => state_congr (by rw [hfix]) (hcommitted key)

theorem getTrie : Alike C B destructed (o.getTrie C B).2 o := by
  obtain ⟨err, hsnd⟩ := getTrie_snd
  rw [hsnd]
  exact of_reads rfl rfl fun _ => rfl

theorem dbErr (err : Bool) : Alike C B destructed { o with dbErr := err } o :=
  of_reads rfl (getTrie_fst_congr rfl rfl rfl) fun _ => rfl

section

variable (hnone : o.originStorage.lookup key = none)
include hnone

theorem cacheSlot {enc} (hread : (o.readSlot C B destructed key).1 = (slotValue enc).1) :
    Alike C B destructed (o.cacheSlot key enc).2 o := by
  refine of_reads rfl (getTrie_fst_congr rfl rfl rfl) fun key' => ?_
  have horigin : (o.cacheSlot key enc).2.originStorage = o.originStorage.insert key (slotValue enc).1 := rfl
  rw [horigin]
  by_cases hkey : key' = key
  · subst hkey
    rw [lookup_insert, hnone, Option.getD_some, Option.getD_none, hread]
  · rw [lookup_insert_ne hkey]

theorem readTrie (hread : (o.readSlot C B destructed key).1 = (o.readTrie C B key).1) :
    Alike C B destructed (o.readTrie C B key).2 o := by
  have halike : Alike C B destructed (o.getTrie C B).2 o := getTrie
  rw [readTrie_fst] at hread
  rw [StateObject.readTrie]
  cases henc : (o.getTrie C B).1 key with
  | none => exact (dbErr true).trans halike
  | some enc =>
    rw [henc] at hread
    refine (cacheSlot ?_ ?_).trans halike
    · obtain ⟨err, hsnd⟩ := getTrie_snd
      rw [hsnd]
      exact hnone
    obtain ⟨err, hsnd⟩ := getTrie_snd
    rw [readSlot_congr halike.address, hread]
    · rfl
    rw [hsnd]
    rfl

theorem readSlot : Alike C B destructed (o.readSlot C B destructed key).2 o := by
  rw [StateObject.readSlot]
  cases hs : B.snap with
  | none =>
    refine readTrie hnone ?_
    rw [StateObject.readSlot, hs]
  | some snap =>
    cases destructed with
    | true => exact refl o
    | false =>
      simp only [false_eq_true, if_false]
      cases hstorage : snap.storage (addrHash C o.address) (slotHash C key) with
      | some enc =>
        refine cacheSlot hnone ?_
        rw [StateObject.readSlot, hs]
        simp only [false_eq_true, if_false, hstorage]
        rfl
      | none =>
        refine readTrie hnone ?_
        rw [StateObject.readSlot, hs]
        simp only [false_eq_true, if_false, hstorage]

end

theorem getCommittedState : Alike C B destructed (o.getCommittedState C B destructed key).2 o := by
  rw [StateObject.getCommittedState]
  cases o.pendingStorage.lookup key with
  | some v => exact refl o
  | none =>
    cases horigin : o.originStorage.lookup key with
    | some v => exact refl o
    | none => exact readSlot horigin

theorem getState : Alike C B destructed (o.getState C B destructed key).2 o := by
  rw [StateObject.getState]
  cases o.dirtyStorage.lookup key with
  | some v => exact refl o
  | none => exact getCommittedState

theorem getCode : Alike C B destructed (o.getCode C B).2 o := by
  rw [StateObject.getCode]
  split
  · exact refl o
  rename_i hload
  refine ⟨rfl, rfl, rfl, rfl, rfl, rfl, ?_, committed_congr rfl rfl rfl rfl rfl, fun key => ?_⟩
  · rw [StateObject.getCode, StateObject.getCode, if_neg hload]
    split
    · rfl
    · rfl
  refine state_congr ?_ ?_
  · rfl
  · apply committed_congr <;> rfl

structure KeepsSlots (f : StateObject → StateObject) : Prop where
  address : ∀ o, (f o).address = o.address
  root : ∀ o, (f o).data.root = o.data.root
  trie : ∀ o, (f o).trie = o.trie
  origin : ∀ o, (f o).originStorage = o.originStorage
  pending : ∀ o, (f o).pendingStorage = o.pendingStorage
  dirty : ∀ o, (f o).dirtyStorage = o.dirtyStorage

section

variable {f : StateObject → StateObject}

theorem KeepsSlots.committed_eq (hf : KeepsSlots f) (o : StateObject) (key : Hash) :
    ((f o).getCommittedState C B destructed key).1 = (o.getCommittedState C B destructed key).1 :=
  committed_congr (hf.address o) (hf.root o) (hf.trie o) (hf.origin o) (hf.pending o) key

theorem KeepsSlots.state_eq (hf : KeepsSlots f) (o : StateObject) (key : Hash) :
    ((f o).getState C B destructed key).1 = (o.getState C B destructed key).1 :=
  state_congr (hf.dirty o) (hf.committed_eq o key)

variable (h : Alike C B destructed o o')
include h

theorem KeepsSlots.committed (hf : KeepsSlots f) (key : Hash) :
    ((f o).getCommittedState C B destructed key).1 = ((f o').getCommittedState C B destructed key).1 := by
  rw [hf.committed_eq, hf.committed_eq, h.committed]

theorem KeepsSlots.state (hf : KeepsSlots f) (key : Hash) :
    ((f o).getState C B destructed key).1 = ((f o').getState C B destructed key).1 := by
  rw [hf.state_eq, hf.state_eq, h.state]

theorem code_keeps (ha : ∀ o, (f o).address = o.address) (hcode : ∀ o, (f o).code = o.code)
    (hhash : ∀ o, (f o).data.codeHash = o.data.codeHash) :
    ((f o).getCode C B).1 = ((f o').getCode C B).1 := by
  rw [getCode_congr (ha o) (hcode o) (hhash o), getCode_congr (ha o') (hcode o') (hhash o'), h.code]

theorem setBalance (amount : Int) : Alike C B destructed (o.setBalance amount) (o'.setBalance amount) := by
  have hf : KeepsSlots (StateObject.setBalance · amount) :=
    ⟨fun _ => rfl, fun _ => rfl, fun _ => rfl, fun _ => rfl, fun _ => rfl, fun _ => rfl⟩
  refine ⟨h.address, h.nonce, rfl, h.codeHash, h.suicided, h.deleted, ?_, hf.committed h, hf.state h⟩
  exact h.code_keeps hf.address (fun _ => rfl) fun _ => rfl

theorem setNonce (nonce : UInt64) : Alike C B destructed (o.setNonce nonce) (o'.setNonce nonce) := by
  have hf : KeepsSlots (StateObject.setNonce · nonce) :=
    ⟨fun _ => rfl, fun _ => rfl, fun _ => rfl, fun _ => rfl, fun _ => rfl, fun _ => rfl⟩
  refine ⟨h.address, rfl, h.balance, h.codeHash, h.suicided, h.deleted, ?_, hf.committed h, hf.state h⟩
  exact h.code_keeps hf.address (fun _ => rfl) fun _ => rfl

theorem setSuicided (suicided : Bool) :
    Alike C B destructed (o.setSuicided suicided) (o'.setSuicided suicided) := by
  have hf : KeepsSlots (StateObject.setSuicided · suicided) :=
    ⟨fun _ => rfl, fun _ => rfl, fun _ => rfl, fun _ => rfl, fun _ => rfl, fun _ => rfl⟩
  refine ⟨h.address, h.nonce, h.balance, h.codeHash, rfl, h.deleted, ?_, hf.committed h, hf.state h⟩
  exact h.code_keeps hf.address (fun _ => rfl) fun _ => rfl

theorem setCode (codeHash : Hash) (code : Option Bytes) :
    Alike C B destructed (o.setCode codeHash code) (o'.setCode codeHash code) := by
  have hf : KeepsSlots (StateObject.setCode · codeHash code) :=
    ⟨fun _ => rfl, fun _ => rfl, fun _ => rfl, fun _ => rfl, fun _ => rfl, fun _ => rfl⟩
  exact ⟨h.address, h.nonce, h.balance, rfl, h.suicided, h.deleted, getCode_congr h.address rfl rfl,
    hf.committed h, hf.state h⟩

theorem setState (key value : Hash) :
    Alike C B destructed (o.setState key value) (o'.setState key value) := by
  refine ⟨h.address, h.nonce, h.balance, h.codeHash, h.suicided, h.deleted, ?_, fun key' => ?_,
    fun key' => ?_⟩
  · exact h.code_keeps (f := (StateObject.setState · key value)) (fun _ => rfl) (fun _ => rfl) fun _ => rfl
  · rw [getCommittedState_setState, getCommittedState_setState, h.committed]
  · rw [getState_setState, getState_setState, h.state]

end

theorem setCode_back (h : Alike C B destructed o' o) (codeHash : Hash) (code : Option Bytes) :
    Alike C B destructed ((o'.setCode codeHash code).setCode o.data.codeHash (o.getCode C B).1) o := by
  refine ((h.setCode codeHash code).setCode _ _).trans ?_
  refine ⟨rfl, rfl, rfl, rfl, rfl, rfl, ?_, committed_congr rfl rfl rfl rfl rfl, fun key => ?_⟩
  · have hload : o.getCode C B = if o.code.isSome ∨ o.data.codeHash = emptyCodeHash C then (o.code, o)
        else (B.contractCode (addrHash C o.address) o.data.codeHash, { o with
          code := B.contractCode (addrHash C o.address) o.data.codeHash
          dbErr := o.dbErr || (B.contractCode (addrHash C o.address) o.data.codeHash).isNone }) := rfl
    by_cases hkept : o.code.isSome ∨ o.data.codeHash = emptyCodeHash C
    · have hkept' : (o.getCode C B).1 = o.code := by rw [hload, if_pos hkept]
      rw [hkept']
      refine Eq.trans ?_ hkept'
      apply getCode_congr <;> rfl
    rw [hload, if_neg hkept]
    -- what was loaded is kept, or it is loaded once more
    rw [StateObject.getCode]
    split
    · rfl
    · rfl
  refine state_congr rfl ?_
  apply committed_congr <;> rfl

theorem setState_back (h : Alike C B destructed o' o) (key value : Hash) :
    Alike C B destructed ((o'.setState key value).setState key (o.getState C B destructed key).1) o := by
  refine ((h.setState key value).setState key _).trans ?_
  refine ⟨rfl, rfl, rfl, rfl, rfl, rfl, getCode_congr rfl rfl rfl, fun key' => ?_, fun key' => ?_⟩
  · rw [getCommittedState_setState, getCommittedState_setState]
  rw [getState_setState, getState_setState]
  by_cases hkey : key' = key
  · rw [if_pos hkey, hkey]
  · rw [if_neg hkey, if_neg hkey]

end Alike

end StateObject

end Geth.State.Account
