import Geth.Common.Basic

namespace Geth.State.Access

open Common.Basic Function List Finset

abbrev SlotSet := { slots : Finset Hash // slots.Nonempty }

structure AccessList where
  addresses : Address → Option (Option ℕ)
  slots : List SlotSet

namespace AccessList

def new : AccessList := ⟨fun _ => none, []⟩

variable (al : AccessList)

def containsAddress (address : Address) : Bool := (al.addresses address).isSome

def contains (address : Address) (slot : Hash) : Bool × Bool :=
  match al.addresses address with
  | none => (false, false)
  | some none => (true, false)
  | some (some idx) => (true, (al.slots[idx]?).any fun slots => decide (slot ∈ slots.1))

def addAddress (address : Address) : Bool × AccessList :=
  match al.addresses address with
  | some _ => (false, al)
  | none => (true, { al with addresses := update al.addresses address (some none) })

def appendSlot (address : Address) (slot : Hash) : AccessList where
  addresses := update al.addresses address (some (some al.slots.length))
  slots := al.slots ++ [⟨{slot}, Finset.singleton_nonempty slot⟩]

def insertSlot (idx : ℕ) (slots : SlotSet) (slot : Hash) : AccessList :=
  { al with slots := al.slots.set idx ⟨insert slot slots.1, Finset.insert_nonempty slot slots.1⟩ }

def addSlot (address : Address) (slot : Hash) : Except Panic ((Bool × Bool) × AccessList) :=
  match al.addresses address with
  | none => .ok ((true, true), al.appendSlot address slot)
  | some none => .ok ((false, true), al.appendSlot address slot)
  | some (some idx) =>
    match al.slots[idx]? with
    | none => .error .indexRange
    | some slots =>
      if slot ∈ slots.1 then .ok ((false, false), al)
      else .ok ((false, true), al.insertSlot idx slots slot)

def deleteSlot (address : Address) (slot : Hash) : Except Panic AccessList :=
  match al.addresses address with
  | none => .error .explicit
  | some none => .error .indexRange
  | some (some idx) =>
    match al.slots[idx]? with
    | none => .error .indexRange
    | some slots =>
      if h : (slots.1.erase slot).Nonempty then
        .ok { al with slots := al.slots.set idx ⟨slots.1.erase slot, h⟩ }
      else .ok {
        addresses := update al.addresses address (some none)
        slots := al.slots.take idx }

def deleteAddress (address : Address) : AccessList :=
  { al with addresses := update al.addresses address none }

variable {al} {address : Address} {slot : Hash}

theorem deleteAddress_addAddress (h : al.addresses address = none) :
    (al.addAddress address).2.deleteAddress address = al := by
  have hadd : (al.addAddress address).2 =
      { al with addresses := update al.addresses address (some none) } := by
    rw [addAddress, h]
  rw [hadd, deleteAddress, update_idem, ← h, update_eq_self]

theorem deleteSlot_appendSlot : (al.appendSlot address slot).deleteSlot address slot =
      .ok { al with addresses := update al.addresses address (some none) } := by
  have haddr : (al.appendSlot address slot).addresses address = some (some al.slots.length) :=
    update_self ..
  have hslots : (al.appendSlot address slot).slots[al.slots.length]? =
      some ⟨{slot}, singleton_nonempty slot⟩ := by
    rw [appendSlot, getElem?_append_right (Nat.le_refl _), Nat.sub_self, getElem?_cons_zero]
  rw [deleteSlot, haddr]
  dsimp only
  rw [hslots]
  dsimp only
  rw [dif_neg (by simp), appendSlot, update_idem, take_left]

theorem deleteSlot_insertSlot {idx : ℕ} {slots} (ha : al.addresses address = some (some idx))
    (hs : al.slots[idx]? = some slots) (hnew : slot ∉ slots.1) :
    (al.insertSlot idx slots slot).deleteSlot address slot = .ok al := by
  obtain ⟨hlt, hget⟩ := List.getElem?_eq_some_iff.mp hs
  have herase := erase_insert hnew
  have haddr : (al.insertSlot idx slots slot).addresses address = some (some idx) := ha
  have hslots : (al.insertSlot idx slots slot).slots[idx]? =
      some ⟨insert slot slots.1, insert_nonempty slot slots.1⟩ := getElem?_set_self hlt
  have hset : al.slots.set idx slots = al.slots := by rw [← hget, set_getElem_self]
  rw [deleteSlot, haddr]
  dsimp only
  rw [hslots]
  dsimp only
  rw [dif_pos (by rw [herase]; exact slots.2), insertSlot, set_set]
  congr 2
  rw [show (⟨(insert slot slots.1).erase slot, _⟩ : SlotSet) = slots from Subtype.ext herase, hset]

end AccessList

end Geth.State.Access
