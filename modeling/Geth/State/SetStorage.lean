import Geth.State.Snapshots

namespace Geth.State.SetStorage

open Lib.BigEndian Common.Basic Account Journal Revert Snapshots Function List Option

/-- A state with the map that `SetStorage` marks, where `none` is the nil map. Nothing reads it. -/
structure MarkedState where
  db : StateDB
  stateObjectsDestruct : Option (Address → Bool)

/-- `New` does not make the map. -/
def MarkedState.new (trie : AccountTrie) : MarkedState := ⟨.new trie, none⟩

def objectSetState (C : Crypto) (B : Backend) (key value : Hash) (object : StateObject) (s : StateDB) :
    StateObject × StateDB :=
  let (prev, object) := object.getState C B (s.isDestructed C object.address) key
  if prev = value then (object, s.setStateObject object)
  else
    let written := object.setState key value
    (written, (s.append (.storage object.address key prev)).setStateObject written)

def writeSlots (C : Crypto) (B : Backend) (slots : List (Sigma fun _ : Hash => Hash))
    (r : StateObject × StateDB) : StateObject × StateDB :=
  slots.foldl (fun r slot => objectSetState C B slot.1 slot.2 r.1 r.2) r

/-- `none` is the panic of a write to a nil map. The entries are in the order of the traversal. -/
def MarkedState.setStorage (C : Crypto) (B : Backend) (m : MarkedState) (a : Address)
    (storage : Storage) : Option MarkedState :=
  m.stateObjectsDestruct.map fun marks =>
    ⟨(writeSlots C B storage.entries (m.db.getOrNewStateObject C B a)).2,
      some (update marks a true)⟩

variable {C : Crypto} {B : Backend} {s s' : StateDB} {a : Address} {o o' : StateObject}
    {slots : Hash → Hash}

structure InUse (C : Crypto) (B : Backend) (s : StateDB) (a : Address) (o : StateObject)
    (slots : Hash → Hash) : Prop where
  lookup : lookup C B s a = some o
  live : o.deleted = false
  slots : ∀ key, (o.getState C B (s.isDestructed C a) key).1 = slots key

section

variable (h : InUse C B s a o slots)
include h

theorem InUse.getState (key : Hash) : (s.getState C B a key).1 = slots key := by
  rw [getState_fst, live_of_lookup h.lookup h.live]
  exact h.slots key

theorem InUse.objectSetState (key value : Hash) :
    InUse C B (objectSetState C B key value o s).2 a (objectSetState C B key value o s).1
      (update slots key value) := by
  have haddr := lookup_address h.lookup
  have hval := h.slots key
  have halike : StateObject.Alike C B (s.isDestructed C a) (o.getState C B (s.isDestructed C a) key).2 o :=
    .getState
  rw [SetStorage.objectSetState, haddr]
  generalize o.getState C B (s.isDestructed C a) key = r at hval halike ⊢
  have hkey : r.2.address = a := halike.address.trans haddr
  dsimp only
  split
  next hsame =>
    refine ⟨hkey ▸ lookup_set_self, halike.deleted.trans h.live, fun key' => ?_⟩
    refine (halike.state key').trans ((h.slots key').trans ?_)
    rw [← hsame, hval, update_eq_self]
  next hsame =>
    refine ⟨?_, halike.deleted.trans h.live, fun key' => ?_⟩
    · have hself := lookup_set_self (C := C) (B := B) (o := r.2.setState key value)
        (s := s.append (.storage r.2.address key r.1))
      rwa [show (r.2.setState key value).address = a from hkey] at hself
    refine (StateObject.getState_setState key value key').trans ?_
    rw [update_apply, ← h.slots key', ← halike.state]
    rfl

theorem InUse.writeSlots {entries} (hnodup : entries.NodupKeys) :
    InUse C B (writeSlots C B entries (o, s)).2 a (writeSlots C B entries (o, s)).1
      fun key => (entries.dlookup key).getD (slots key) := by
  induction entries generalizing o s slots with
  | nil => exact h
  | cons e entries ih =>
    obtain ⟨hnew, hrest⟩ := nodupKeys_cons.mp hnodup
    have hlater := ih (h.objectSetState e.1 e.2) hrest
    refine ⟨hlater.lookup, hlater.live, fun key => (hlater.slots key).trans ?_⟩
    by_cases hkey : key = e.1
    · subst hkey
      rw [dlookup_eq_none.mpr hnew, dlookup_cons_eq, update_self]
      rfl
    · rw [dlookup_cons_ne _ _ hkey, update_of_ne hkey]

end

/-- What `SetStorage` replaces the storage of an account with is the given one exactly when the map
of marks was made and the other slots of the account were zero before. -/
theorem setStorage_replaces_iff (C : Crypto) (B : Backend) (m : MarkedState) (a : Address)
    (storage : Storage) :
    (∃ m', m.setStorage C B a storage = some m' ∧
      ∀ key, (m'.db.getState C B a key).1 = (storage.lookup key).getD (zeros 32)) ↔
    m.stateObjectsDestruct.isSome ∧ ∀ key ∉ storage,
      ((m.db.getOrNewStateObject C B a).2.getState C B a key).1 = zeros 32 := by
  obtain ⟨hl, hlive⟩ := getOrNew_lookup (C := C) (B := B) m.db a
  have hstart : InUse C B (m.db.getOrNewStateObject C B a).2 a (m.db.getOrNewStateObject C B a).1
      fun key => ((m.db.getOrNewStateObject C B a).2.getState C B a key).1 :=
    ⟨hl, hlive, fun key => by rw [getState_fst, live_of_lookup hl hlive]; rfl⟩
  have hafter := (hstart.writeSlots storage.nodupKeys).getState
  cases hmarks : m.stateObjectsDestruct with
  | none => simp [MarkedState.setStorage, hmarks]
  | some marks =>
    simp only [MarkedState.setStorage, hmarks, map_some, some.injEq, exists_eq_left', isSome_some, true_and]
    refine forall_congr' fun key => ?_
    rw [hafter key, ← AList.lookup_eq_none]
    change (storage.lookup key).getD _ = _ ↔ _
    cases storage.lookup key with
    | none => simp
    | some v => simp

/-- Every account has a storage trie, and every slot of it is one. -/
def filledBackend : Backend where
  snap := none
  openStorageTrie _ root := some fun _ => if root = emptyRoot then some [] else some [1]
  openEmpty _ := rfl
  contractCode _ _ := none

def filledTrie : AccountTrie := fun _ => some (some ⟨0, 0, hexToHash 1, zeros 32⟩)

theorem setStorage_keeps_slots :
    (MarkedState.new filledTrie).setStorage ⟨fun _ => zeros 32, fun _ _ => none⟩ filledBackend
      (zeros 20) ∅ = none ∧
    ∃ m', MarkedState.setStorage ⟨fun _ => zeros 32, fun _ _ => none⟩ filledBackend
      ⟨.new filledTrie, some fun _ => false⟩ (zeros 20) ∅ = some m' ∧
      (m'.db.getState ⟨fun _ => zeros 32, fun _ _ => none⟩ filledBackend (zeros 20) (zeros 32)).1 =
        hexToHash 1 :=
  ⟨rfl, _, rfl, by decide +kernel⟩

end Geth.State.SetStorage
