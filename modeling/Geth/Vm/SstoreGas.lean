import Geth.State.Snapshots

namespace Geth.Vm.SstoreGas

open Lib.BigEndian Common.Basic State.Access State.Account State.Journal State.Revert
open State.Snapshots Function Option

def sstoreSentryGasEIP2200 : UInt64 := 2300
def sstoreSetGasEIP2200 : UInt64 := 20000
def sstoreResetGasEIP2200 : UInt64 := 5000
def sstoreClearsScheduleRefundEIP2200 : UInt64 := 15000
def sloadGasEIP2200 : UInt64 := 800
def coldSloadCostEIP2929 : UInt64 := 2100
def warmStorageReadCostEIP2929 : UInt64 := 100
def txAccessListStorageKeyGas : UInt64 := 1900

def sstoreClearsScheduleRefundEIP3529 : UInt64 :=
  sstoreResetGasEIP2200 - coldSloadCostEIP2929 + txAccessListStorageKeyGas

/-- The constants of a version of the metering. `cold` is what a slot costs
that is not on the access list, in the versions that have one. -/
structure Schedule where
  read : UInt64
  set : UInt64
  reset : UInt64
  clearing : UInt64
  cold : Option UInt64

inductive RefundCall where
  | addRefund (gas : UInt64)
  | subRefund (gas : UInt64)

def RefundCall.apply (s : StateDB) : RefundCall → Except Panic StateDB
  | .addRefund gas => .ok (s.addRefund gas)
  | .subRefund gas => s.subRefund gas

def sstoreCost (R : Schedule) (original current value : Hash) : UInt64 × List RefundCall :=
  if current = value then (R.read, [])
  else if original = current then
    if original = zeros 32 then (R.set, [])
    else (R.reset, if value = zeros 32 then [.addRefund R.clearing] else [])
  else (R.read,
    (if original ≠ zeros 32 then
      if current = zeros 32 then [.subRefund R.clearing]
      else if value = zeros 32 then [.addRefund R.clearing] else []
    else []) ++
    if original = value then
      if original = zeros 32 then [.addRefund (R.set - R.read)] else [.addRefund (R.reset - R.read)]
    else [])

inductive SstoreError where
  | sentry
  | addressNotPresent
  | outOfGas
  | panic (p : Panic)
  deriving DecidableEq

/-- A slot that is not on the access list is put there. The canary for an
address that is not there comes after. -/
def accessSlot (R : Schedule) (address : Address) (slot : Hash) (s : StateDB) :
    Except SstoreError (UInt64 × StateDB) :=
  match R.cold with
  | none => .ok (0, s)
  | some cold =>
    if (s.accessList.contains address slot).2 then .ok (0, s)
    else do
      let s' ← (s.addSlotToAccessList address slot).mapError .panic
      if (s.accessList.contains address slot).1 then .ok (cold, s') else .error .addressNotPresent

/-- The gas of a write of `value` with `gas` left in the contract. The
committed value is not read for a write of the present one. -/
def gasSStore (R : Schedule) (C : Crypto) (B : Backend) (gas : UInt64) (address : Address)
    (slot value : Hash) (s : StateDB) : Except SstoreError (UInt64 × List RefundCall × StateDB) :=
  if gas ≤ sstoreSentryGasEIP2200 then .error .sentry
  else do
    let (current, s) := s.getState C B address slot
    let (cost, s) ← accessSlot R address slot s
    let (original, s) := if current = value then (current, s) else s.getCommittedState C B address slot
    let (charge, calls) := sstoreCost R original current value
    let s ← (calls.foldlM RefundCall.apply s).mapError .panic
    return (cost + charge, calls, s)

def eip2200 : Schedule where
  read := sloadGasEIP2200
  set := sstoreSetGasEIP2200
  reset := sstoreResetGasEIP2200
  clearing := sstoreClearsScheduleRefundEIP2200
  cold := none

def gasSStoreEIP2200 := gasSStore eip2200

def withAccessList (clearingRefund : UInt64) : Schedule where
  read := warmStorageReadCostEIP2929
  set := sstoreSetGasEIP2200
  reset := sstoreResetGasEIP2200 - coldSloadCostEIP2929
  clearing := clearingRefund
  cold := some coldSloadCostEIP2929

def makeGasSStoreFunc (clearingRefund : UInt64) := gasSStore (withAccessList clearingRefund)

def gasSStoreEIP2929 := makeGasSStoreFunc sstoreClearsScheduleRefundEIP2200

def gasSStoreEIP3529 := makeGasSStoreFunc sstoreClearsScheduleRefundEIP3529

def schedules : List Schedule :=
  [eip2200, withAccessList sstoreClearsScheduleRefundEIP2200, withAccessList sstoreClearsScheduleRefundEIP3529]

def sstore (R : Schedule) (C : Crypto) (B : Backend) (gas : UInt64) (address : Address)
    (slot value : Hash) (s : StateDB) : Except SstoreError (UInt64 × List RefundCall × StateDB) := do
  let (cost, calls, s) ← gasSStore R C B gas address slot value s
  if gas < cost then .error .outOfGas
  else return (cost, calls, s.setState C B address slot value)

variable {C : Crypto} {B : Backend} {s s' : StateDB} {a : Address} {k : Hash} {s₂ : StateDB} {R : Schedule}

def value (C : Crypto) (B : Backend) (s : StateDB) (a : Address) (k : Hash) : Hash := (s.getState C B a k).1

/-- The value of a slot at the start of the transaction. -/
def committed (C : Crypto) (B : Backend) (s : StateDB) (a : Address) (k : Hash) : Hash :=
  (s.getCommittedState C B a k).1

structure SameSlots (C : Crypto) (B : Backend) (s s' : StateDB) : Prop where
  value : ∀ a k, value C B s a k = value C B s' a k
  committed : ∀ a k, committed C B s a k = committed C B s' a k
  trie : s.trie = s'.trie

theorem SameSlots.refl (s : StateDB) : SameSlots C B s s := ⟨fun _ _ => rfl, fun _ _ => rfl, rfl⟩

theorem SameSlots.trans (h : SameSlots C B s s') (h' : SameSlots C B s' s₂) : SameSlots C B s s₂ :=
  ⟨fun a k => (h.value a k).trans (h'.value a k), fun a k => (h.committed a k).trans (h'.committed a k),
    h.trie.trans h'.trie⟩

theorem sameSlots_of_same (h : Same C B s s') : SameSlots C B s s' :=
  ⟨(Same.getters h).state, (Same.getters h).committedState, h.trie⟩

theorem sameSlots_of_fields (hobjects : s'.stateObjects = s.stateObjects) (htrie : s'.trie = s.trie)
    (hdestructs : s'.snapDestructs = s.snapDestructs) : SameSlots C B s' s := by
  have hlookup (a : Address) : lookup C B s' a = lookup C B s a := lookup_congr (by rw [hobjects]) htrie
  have hlive (a : Address) : (s'.getStateObject C B a).1 = (s.getStateObject C B a).1 := by
    rw [getStateObject_eq, getStateObject_eq, hlookup]
  have hd (a : Address) : s'.isDestructed C a = s.isDestructed C a := by
    rw [StateDB.isDestructed, StateDB.isDestructed, hdestructs]
  refine ⟨fun a k => ?_, fun a k => ?_, htrie⟩
  · rw [value, value, getState_fst, getState_fst, hlive, hd]
  · rw [committed, committed, getCommittedState_fst, getCommittedState_fst, hlive, hd]

/-- A snapshot holds no slots of an account that is absent. -/
def Coherent (C : Crypto) (B : Backend) (trie : AccountTrie) : Prop :=
  ∀ snap, B.snap = some snap → ∀ a, ((StateDB.new trie).readAccount C B a).1 = none →
    ∀ k enc, snap.storage (addrHash C a) (slotHash C k) = some enc → (slotValue enc).1 = zeros 32

section

variable {o : StateObject}

section

variable (hl : lookup C B s a = some o) (hd : o.deleted = false)
include hl hd

theorem value_of_lookup (k : Hash) : value C B s a k = (o.getState C B (s.isDestructed C a) k).1 := by
  rw [value, getState_fst, live_of_lookup hl hd]
  rfl

theorem committed_of_lookup
    (k : Hash) : committed C B s a k = (o.getCommittedState C B (s.isDestructed C a) k).1 := by
  rw [committed, getCommittedState_fst, live_of_lookup hl hd]
  rfl

end

theorem newObject_slots {destructed : Bool} (h : ∀ snap, B.snap = some snap → destructed = false → ∀ enc,
      snap.storage (addrHash C a) (slotHash C k) = some enc → (slotValue enc).1 = zeros 32) :
    ((newObject a (zeroAccount C)).getState C B destructed k).1 = zeros 32 ∧
      ((newObject a (zeroAccount C)).getCommittedState C B destructed k).1 = zeros 32 := by
  have htrie : ((newObject a (zeroAccount C)).readTrie C B k).1 = zeros 32 := by
    rw [StateObject.readTrie_fst, StateObject.getTrie]
    simp only [newObject, zeroAccount, if_true, B.openEmpty]
    rfl
  have hread : ((newObject a (zeroAccount C)).readSlot C B destructed k).1 = zeros 32 := by
    rw [StateObject.readSlot]
    cases hsnap : B.snap with
    | none => exact htrie
    | some snap =>
      cases hd : destructed with
      | true => rfl
      | false =>
        simp only [Bool.false_eq_true, if_false]
        cases henc : snap.storage (addrHash C (newObject a (zeroAccount C)).address) (slotHash C k) with
        | none => exact htrie
        | some enc => exact h snap hsnap hd enc henc
  exact ⟨hread, hread⟩

theorem readAccount_congr {trie} (h : s.trie = trie) (a : Address) :
    s.readAccount C B a = (StateDB.new trie).readAccount C B a := by
  rw [StateDB.readAccount, StateDB.readAccount, h]
  rfl

theorem replaced_frame (s : StateDB) (a : Address) :
    (replaced C B s a).stateObjects = s.stateObjects ∧ (replaced C B s a).trie = s.trie ∧
      (replaced C B s a).refund = s.refund ∧ (replaced C B s a).accessList = s.accessList := by
  rw [replaced]
  cases lookup C B s a <;> exact ⟨rfl, rfl, rfl, rfl⟩

theorem replaced_destructs (s : StateDB) (a : Address) :
    (replaced C B s a).snapDestructs = if (lookup C B s a).isSome && B.snap.isSome then
      update s.snapDestructs (addrHash C a) true else s.snapDestructs := by
  rw [replaced]
  cases lookup C B s a with
  | none => rfl
  | some o => rfl

section

variable (hC : AddressesDistinct C) (hB : Coherent C B s.trie)
include hC hB

/-- The account that is put in the place of one that is absent or deleted has
no slots either. -/
theorem sameSlots_replaced (hnone : (s.getStateObject C B a).1 = none) :
    SameSlots C B ((replaced C B s a).setStateObject (newObject a (zeroAccount C))) s := by
  obtain ⟨hobjects, htrie, _, _⟩ := replaced_frame s a
  have hmarks := replaced_destructs (C := C) (B := B) s a
  set s₃ := (replaced C B s a).setStateObject (newObject a (zeroAccount C)) with hs₃
  have hself : lookup C B s₃ a = some (newObject a (zeroAccount C)) := lookup_set_self
  have hother (a' : Address) (ha : a' ≠ a) : lookup C B s₃ a' = lookup C B s a' := by
    rw [hs₃, lookup_set_of_ne ha]
    exact lookup_congr (by rw [hobjects]) htrie
  have hdestructs (a' : Address) (ha : a' ≠ a) : s₃.isDestructed C a' = s.isDestructed C a' := by
    change (replaced C B s a).snapDestructs (addrHash C a') = _
    rw [hmarks]
    split
    · exact update_of_ne (fun h => ha (hC h)) _ _
    · rfl
  have hfresh (k : Hash) : ∀ snap, B.snap = some snap → s₃.isDestructed C a = false → ∀ enc,
      snap.storage (addrHash C a) (slotHash C k) = some enc → (slotValue enc).1 = zeros 32 := by
    intro snap hsnap hd enc henc
    cases hlook : lookup C B s a with
    | none =>
      refine hB snap hsnap a ?_ k enc henc
      rw [← readAccount_congr rfl]
      rw [lookup, or_eq_none_iff, map_eq_none_iff] at hlook
      exact hlook.2
    | some o =>
      have hmark : s₃.isDestructed C a = true := by
        change (replaced C B s a).snapDestructs (addrHash C a) = true
        rw [hmarks, hlook, hsnap]
        exact update_self _ _ _
      rw [hmark] at hd
      cases hd
  refine ⟨fun a' k => ?_, fun a' k => ?_, htrie⟩
  · by_cases ha : a' = a
    · subst a'
      rw [value_of_lookup hself rfl, (newObject_slots (hfresh k)).1, value, getState_fst, hnone]
      rfl
    rw [value, value, getState_fst, getState_fst, getStateObject_eq, getStateObject_eq, hother a' ha,
      hdestructs a' ha]
  by_cases ha : a' = a
  · subst a'
    rw [committed_of_lookup hself rfl, (newObject_slots (hfresh k)).2, committed, getCommittedState_fst,
      hnone]
    rfl
  rw [committed, committed, getCommittedState_fst, getCommittedState_fst, getStateObject_eq,
    getStateObject_eq, hother a' ha, hdestructs a' ha]

theorem sameSlots_getOrNew (a : Address) :
    SameSlots C B (s.getOrNewStateObject C B a).2 s ∧ (s.getOrNewStateObject C B a).2.refund = s.refund ∧
      (s.getOrNewStateObject C B a).2.accessList = s.accessList := by
  refine getOrNew_rule (P := fun s₁ => SameSlots C B s₁ s ∧ s₁.refund = s.refund ∧
    s₁.accessList = s.accessList) s a (fun s₁ h => ⟨sameSlots_of_same h, h.refund, h.accessList⟩) ?_
  intro s₁ hsame hnone
  have hslots := sameSlots_of_same hsame
  obtain ⟨_, _, hrefund, haccess⟩ := replaced_frame s₁ a
  refine ⟨(sameSlots_replaced hC ?_ hnone).trans hslots, hrefund.trans hsame.refund,
    haccess.trans hsame.accessList⟩
  rw [hslots.trie]
  exact hB

theorem setState_slots (a : Address) (k v : Hash) :
    (∀ a' k', value C B (s.setState C B a k v) a' k' = if a' = a ∧ k' = k then v else value C B s a' k') ∧
      (∀ a' k', committed C B (s.setState C B a k v) a' k' = committed C B s a' k') ∧
      (s.setState C B a k v).trie = s.trie ∧ (s.setState C B a k v).refund = s.refund ∧
      (s.setState C B a k v).accessList = s.accessList := by
  obtain ⟨hslots, hrefund, haccess⟩ := sameSlots_getOrNew hC hB a
  obtain ⟨_, hl, hdeleted⟩ := getOrNew_spec hC s a
  have hset : s.setState C B a k v =
      let s₁ := (s.getOrNewStateObject C B a).2
      let r := (s.getOrNewStateObject C B a).1.getState C B (s₁.isDestructed C a) k
      if r.1 = v then s₁.setStateObject r.2
      else (s₁.append (.storage r.2.address k r.1)).setStateObject (r.2.setState k v) := rfl
  rw [hset]
  generalize (s.getOrNewStateObject C B a).2 = s₁ at hslots hrefund haccess hl ⊢
  generalize (s.getOrNewStateObject C B a).1 = o at hl hdeleted ⊢
  have halike : StateObject.Alike C B (s₁.isDestructed C a) (o.getState C B (s₁.isDestructed C a) k).2 o :=
    .getState
  have hval := value_of_lookup hl hdeleted k
  dsimp only
  generalize hr : o.getState C B (s₁.isDestructed C a) k = r at halike hval ⊢
  by_cases hsame : r.1 = v
  · have hcached := sameSlots_of_same (Same.set hl halike)
    rw [if_pos hsame]
    refine ⟨fun a' k' => ?_, fun a' k' => ?_, ?_, hrefund, haccess⟩
    · rw [hcached.value, hslots.value]
      split
      · next h =>
        rw [h.1, h.2, ← hslots.value, hval, hsame]
      · rfl
    · rw [hcached.committed, hslots.committed]
    · exact hcached.trie.trans hslots.trie
  have haddr : (r.2.setState k v).address = a := halike.address.trans (lookup_address hl)
  have hdel := halike.deleted.trans hdeleted
  rw [if_neg hsame]
  set s₂ := (s₁.append (.storage r.2.address k r.1)).setStateObject (r.2.setState k v) with hs₂
  have hself : lookup C B s₂ a = some (r.2.setState k v) := by
    rw [← haddr]
    exact lookup_set_self
  have hother (a' : Address) (ha : a' ≠ a) : lookup C B s₂ a' = lookup C B s₁ a' := by
    rw [hs₂, lookup_set_of_ne (by rw [haddr]; exact ha)]
    rfl
  have hdestr (a' : Address) : s₂.isDestructed C a' = s₁.isDestructed C a' := rfl
  refine ⟨fun a' k' => ?_, fun a' k' => ?_, hslots.trie, hrefund, haccess⟩
  · rw [← hslots.value]
    by_cases ha : a' = a
    · subst a'
      rw [value_of_lookup hself hdel, value_of_lookup hl hdeleted, StateObject.getState_setState,
        hdestr, halike.state]
      simp
    rw [if_neg fun h => ha h.1, value, value, getState_fst, getState_fst, getStateObject_eq,
      getStateObject_eq, hother a' ha, hdestr]
  rw [← hslots.committed]
  by_cases ha : a' = a
  · subst a'
    rw [committed_of_lookup hself hdel, committed_of_lookup hl hdeleted, hdestr, ← halike.committed]
    exact StateObject.getCommittedState_setState r.2 _ k v k'
  rw [committed, committed, getCommittedState_fst, getCommittedState_fst, getStateObject_eq,
    getStateObject_eq, hother a' ha, hdestr]

end

end

section

def Placed (al : AccessList) : Prop :=
  ∀ a idx, al.addresses a = some (some idx) → idx < al.slots.length

theorem placed_new : Placed .new := by
  intro a idx h
  cases h

theorem addSlot_spec {al} (hal : Placed al) (a : Address) (k : Hash) :
    ∃ flags al', al.addSlot a k = .ok (flags, al') ∧ Placed al' ∧ al'.contains a k = (true, true) := by
  have happend : Placed (al.appendSlot a k) ∧ (al.appendSlot a k).contains a k = (true, true) := by
    constructor
    · intro a' idx h
      change update al.addresses a (some (some al.slots.length)) a' = _ at h
      change idx < (al.slots ++ [_]).length
      rw [List.length_append, List.length_singleton]
      by_cases ha : a' = a
      · subst a'
        rw [update_self] at h
        cases h
        exact Nat.lt_succ_self _
      rw [update_of_ne ha] at h
      exact Nat.lt_succ_of_lt (hal a' idx h)
    have haddr : (al.appendSlot a k).addresses a = some (some al.slots.length) := update_self ..
    rw [AccessList.contains, haddr]
    simp [AccessList.appendSlot]
  rw [AccessList.addSlot]
  cases ha : al.addresses a with
  | none => exact ⟨_, _, rfl, happend⟩
  | some place =>
    cases place with
    | none => exact ⟨_, _, rfl, happend⟩
    | some idx =>
      have hlt := hal a idx ha
      obtain ⟨slots, hslots⟩ : ∃ slots, al.slots[idx]? = some slots := ⟨_, List.getElem?_eq_getElem hlt⟩
      simp only [hslots]
      by_cases hk : k ∈ slots.1
      · rw [if_pos hk]
        refine ⟨_, al, rfl, hal, ?_⟩
        rw [AccessList.contains, ha]
        simp [hslots, hk]
      rw [if_neg hk]
      refine ⟨_, _, rfl, fun a' idx' h => ?_, ?_⟩
      · have hold := hal a' idx' h
        simpa [AccessList.insertSlot] using hold
      have haddr : (al.insertSlot idx slots k).addresses a = some (some idx) := ha
      rw [AccessList.contains, haddr]
      simp [AccessList.insertSlot, hlt]

theorem listed_addSlot {al al' : AccessList} {flags} (h : al.addSlot a k = .ok (flags, al')) (a' : Address)
    (ha : al.containsAddress a' = true) : al'.containsAddress a' = true := by
  have happend : (al.appendSlot a k).containsAddress a' = true := by
    change (update al.addresses a _ a').isSome = true
    by_cases heq : a' = a
    · rw [heq, update_self]
      rfl
    · rw [update_of_ne heq]
      exact ha
  rw [AccessList.addSlot] at h
  split at h
  · cases h
    exact happend
  · cases h
    exact happend
  split at h
  · cases h
  · split at h <;> cases h <;> exact ha

theorem contains_fst (al : AccessList) (a : Address) (k : Hash) : (al.contains a k).1 = al.containsAddress a := by
  rw [AccessList.contains, AccessList.containsAddress]
  split <;> next h => rw [h]; rfl

def coldCost (R : Schedule) (s : StateDB) (a : Address) (k : Hash) : UInt64 :=
  match R.cold with
  | none => 0
  | some cold => if (s.accessList.contains a k).2 then 0 else cold

/-- What the steps of a write leave alone, and that they can be reverted. -/
structure Prepared (C : Crypto) (B : Backend) (s s' : StateDB) : Prop where
  slots : SameSlots C B s' s
  reversible : Reversible C B s s'
  placed : Placed s'.accessList
  listed : ∀ a, s.accessList.containsAddress a = true → s'.accessList.containsAddress a = true

theorem accessSlot_spec (hC : AddressesDistinct C) (R : Schedule) (hal : Placed s.accessList) (a : Address)
    (k : Hash) :
    (s.accessList.containsAddress a = false ∧ R.cold ≠ none ∧
        accessSlot R a k s = .error .addressNotPresent) ∨
      ∃ s', accessSlot R a k s = .ok (coldCost R s a k, s') ∧ Prepared C B s s' ∧ s'.refund = s.refund ∧
        coldCost R s' a k = 0 := by
  have hkeep : Prepared C B s s := ⟨.refl s, .of_same (.refl s) rfl rfl, hal, fun _ h => h⟩
  rw [accessSlot, coldCost]
  cases hcold : R.cold with
  | none => exact .inr ⟨s, rfl, hkeep, rfl, by rw [coldCost, hcold]⟩
  | some cold =>
    dsimp only
    by_cases hin : (s.accessList.contains a k).2 = true
    · rw [if_pos hin, if_pos hin]
      exact .inr ⟨s, rfl, hkeep, rfl, by rw [coldCost, hcold]; exact if_pos hin⟩
    obtain ⟨⟨addrMod, slotMod⟩, al, hadd, hplaced, hthere⟩ := addSlot_spec hal a k
    have hs : ∃ s', s.addSlotToAccessList a k = .ok s' ∧ s'.accessList = al ∧ s'.refund = s.refund ∧
        s'.stateObjects = s.stateObjects ∧ s'.trie = s.trie ∧ s'.snapDestructs = s.snapDestructs := by
      rw [StateDB.addSlotToAccessList, hadd]
      cases addrMod <;> cases slotMod <;> exact ⟨_, rfl, rfl, rfl, rfl, rfl, rfl⟩
    obtain ⟨s', hs', haccess, hrefund, hobjects, htrie, hdestructs⟩ := hs
    rw [if_neg hin, if_neg hin, hs']
    by_cases hpresent : (s.accessList.contains a k).1 = true
    · refine .inr ⟨s', if_pos hpresent, ⟨sameSlots_of_fields hobjects htrie hdestructs,
        reversible_addSlotToAccessList s hC k hs', by rw [haccess]; exact hplaced,
        by rw [haccess]; exact listed_addSlot hadd⟩, hrefund, ?_⟩
      rw [coldCost, hcold, haccess, hthere]
      rfl
    · rw [contains_fst, Bool.not_eq_true] at hpresent
      exact .inl ⟨hpresent, some_ne_none cold, if_neg (by rw [contains_fst, hpresent]; exact Bool.false_ne_true)⟩

end

section

def refundAfter (r : UInt64) : List RefundCall → Option UInt64
  | [] => some r
  | .addRefund gas :: calls => refundAfter (r + gas) calls
  | .subRefund gas :: calls => if r < gas then none else refundAfter (r - gas) calls

theorem applyCalls_spec (hC : AddressesDistinct C) (calls : List RefundCall) (s : StateDB) :
    (refundAfter s.refund calls = none ∧ calls.foldlM RefundCall.apply s = .error .explicit) ∨
      ∃ s', calls.foldlM RefundCall.apply s = .ok s' ∧ refundAfter s.refund calls = some s'.refund ∧
        SameSlots C B s' s ∧ Reversible C B s s' ∧ s'.accessList = s.accessList := by
  induction calls generalizing s with
  | nil => exact .inr ⟨s, rfl, rfl, .refl s, .of_same (.refl s) rfl rfl, rfl⟩
  | cons call calls ih =>
    -- one call that goes through, and the others after it
    have hstep (s₁ : StateDB) (h₁ : call.apply s = .ok s₁)
        (hr : refundAfter s.refund (call :: calls) = refundAfter s₁.refund calls)
        (hslots : SameSlots C B s₁ s) (hrev : Reversible C B s s₁) (hal : s₁.accessList = s.accessList) :
        (refundAfter s.refund (call :: calls) = none ∧
          (call :: calls).foldlM RefundCall.apply s = .error .explicit) ∨
        ∃ s', (call :: calls).foldlM RefundCall.apply s = .ok s' ∧
          refundAfter s.refund (call :: calls) = some s'.refund ∧ SameSlots C B s' s ∧
          Reversible C B s s' ∧ s'.accessList = s.accessList := by
      rw [hr, List.foldlM_cons, h₁]
      obtain ⟨hnone, herr⟩ | ⟨s', hs', hr', hslots', hrev', hal'⟩ := ih s₁
      · exact .inl ⟨hnone, herr⟩
      · exact .inr ⟨s', hs', hr', hslots'.trans hslots, hrev.trans hC hrev', hal'.trans hal⟩
    cases call with
    | addRefund gas =>
      exact hstep _ rfl rfl (sameSlots_of_fields rfl rfl rfl) (reversible_addRefund s gas) rfl
    | subRefund gas =>
      by_cases hlt : s.refund < gas
      · refine .inl ⟨if_pos hlt, ?_⟩
        rw [List.foldlM_cons, RefundCall.apply, StateDB.subRefund, if_pos hlt]
        rfl
      have hsub : s.subRefund gas = .ok { s.append (.refund s.refund) with refund := s.refund - gas } :=
        if_neg hlt
      exact hstep _ hsub (if_neg hlt) (sameSlots_of_fields rfl rfl rfl) (reversible_subRefund s gas hsub) rfl

end

section

theorem same_read {read : StateDB → StateObject → StateObject}
    (hread : ∀ s o, StateObject.Alike C B (s.isDestructed C a) (read s o) o) {o : StateObject}
    (hl : (lookup C B s a).filter (!·.deleted) = some o) :
    Same C B ((s.getDeletedStateObject C B a).2.setStateObject (read (s.getDeletedStateObject C B a).2 o)) s := by
  refine (Same.set ?_ (hread _ _)).trans (same_getDeleted s a)
  rw [lookup_getDeleted]
  exact (filter_eq_some_iff.mp hl).1

theorem same_getState (s : StateDB) (a : Address) (k : Hash) : Same C B (s.getState C B a k).2 s := by
  rw [StateDB.getState, getStateObject_eq]
  cases hl : (lookup C B s a).filter (!·.deleted) with
  | none => exact same_getDeleted s a
  | some o => exact same_read (fun _ _ => .getState) hl

theorem same_getCommittedState (s : StateDB) (a : Address) (k : Hash) :
    Same C B (s.getCommittedState C B a k).2 s := by
  rw [StateDB.getCommittedState, getStateObject_eq]
  cases hl : (lookup C B s a).filter (!·.deleted) with
  | none => exact same_getDeleted s a
  | some o => exact same_read (fun _ _ => .getCommittedState) hl

section

variable (hC : AddressesDistinct C) (hal : Placed s.accessList)
include hC hal

theorem prepared_getState (a : Address) (k : Hash) : Prepared C B s (s.getState C B a k).2 := by
  have hsame := same_getState (C := C) (B := B) s a k
  refine ⟨sameSlots_of_same hsame, reversible_getState hC s a k, ?_, fun _ h => ?_⟩
  · rw [hsame.accessList]
    exact hal
  · rw [hsame.accessList]
    exact h

theorem prepared_getCommittedState (a : Address)
    (k : Hash) : Prepared C B s (s.getCommittedState C B a k).2 := by
  have hsame := same_getCommittedState (C := C) (B := B) s a k
  refine ⟨sameSlots_of_same hsame, reversible_getCommittedState hC s a k, ?_, fun _ h => ?_⟩
  · rw [hsame.accessList]
    exact hal
  · rw [hsame.accessList]
    exact h

end

end

/-- What an `SSTORE` does to the state. -/
structure Wrote (C : Crypto) (B : Backend) (a : Address) (k v : Hash) (s s' : StateDB) : Prop where
  value : ∀ a' k', value C B s' a' k' = if a' = a ∧ k' = k then v else value C B s a' k'
  committed : ∀ a' k', committed C B s' a' k' = committed C B s a' k'
  trie : s'.trie = s.trie
  reversible : Reversible C B s s'
  placed : Placed s'.accessList

theorem Prepared.trans (hC : AddressesDistinct C) (h : Prepared C B s s')
    (h' : Prepared C B s' s₂) : Prepared C B s s₂ :=
  ⟨h'.slots.trans h.slots, h.reversible.trans hC h'.reversible, h'.placed,
    fun a ha => h'.listed a (h.listed a ha)⟩

theorem coldCost_congr (h : s'.accessList = s.accessList) : coldCost R s' a k = coldCost R s a k := by
  rw [coldCost, coldCost, h]

theorem wrote_setState (hC : AddressesDistinct C) (hB : Coherent C B s.trie) (h : Prepared C B s s')
    (a : Address) (k v : Hash) : Wrote C B a k v s (s'.setState C B a k v) := by
  obtain ⟨hvalue, hcommitted, htrie, _, haccess⟩ :=
    setState_slots hC (by rw [h.slots.trie]; exact hB) a k v
  refine ⟨fun a' k' => ?_, fun a' k' => ?_, htrie.trans h.slots.trie,
    h.reversible.trans hC (reversible_setState hC s' a k v), ?_⟩
  · rw [hvalue, h.slots.value]
  · rw [hcommitted, h.slots.committed]
  rw [haccess]
  exact h.placed

theorem readOriginal_spec (hC : AddressesDistinct C) (hal : Placed s.accessList) (a : Address) (k v : Hash) :
    ∃ s', (if value C B s a k = v then (value C B s a k, s) else s.getCommittedState C B a k) =
        (if value C B s a k = v then value C B s a k else committed C B s a k, s') ∧
      Prepared C B s s' ∧ s'.refund = s.refund ∧ s'.accessList = s.accessList := by
  by_cases hv : value C B s a k = v
  · rw [if_pos hv, if_pos hv]
    exact ⟨s, rfl, ⟨.refl s, .of_same (.refl s) rfl rfl, hal, fun _ h => h⟩, rfl, rfl⟩
  have hsame := same_getCommittedState (C := C) (B := B) s a k
  rw [if_neg hv, if_neg hv]
  exact ⟨_, rfl, prepared_getCommittedState hC hal a k, hsame.refund, hsame.accessList⟩

theorem sstoreCost_noop (R : Schedule) (o o' v : Hash) : sstoreCost R o v v = sstoreCost R o' v v := by
  rw [sstoreCost, sstoreCost, if_pos rfl, if_pos rfl]

/-- Why a write is refused: it has too little gas, or the canary of the access
list. -/
inductive Refused (R : Schedule) (listed : Bool) (gas cost : UInt64) : SstoreError → Prop where
  | sentry (h : gas ≤ sstoreSentryGasEIP2200) : Refused R listed gas cost .sentry
  | addressNotPresent (hlisted : listed = false) (h : R.cold ≠ none) : Refused R listed gas cost .addressNotPresent
  | outOfGas (h : gas < cost) : Refused R listed gas cost .outOfGas

theorem Refused.ne_panic {listed} {gas cost} {e} (h : Refused R listed gas cost e) (p : Panic) : e ≠ .panic p := by
  cases h <;> exact fun h => (by cases h)

/-- The gas of a write: it fails for want of gas or the canary, or panics just
when the refund counter would go below zero. -/
theorem gasSStore_spec (hC : AddressesDistinct C) (hal : Placed s.accessList) (R : Schedule) (gas : UInt64)
    (a : Address) (k v : Hash) :
    (∃ e, Refused R (s.accessList.containsAddress a) gas
          (coldCost R s a k + (sstoreCost R (committed C B s a k) (value C B s a k) v).1) e ∧
        e ≠ .outOfGas ∧ gasSStore R C B gas a k v s = .error e) ∨
      (refundAfter s.refund (sstoreCost R (committed C B s a k) (value C B s a k) v).2 = none ∧
        gasSStore R C B gas a k v s = .error (.panic .explicit)) ∨
      ∃ s', gasSStore R C B gas a k v s =
          .ok (coldCost R s a k + (sstoreCost R (committed C B s a k) (value C B s a k) v).1,
            (sstoreCost R (committed C B s a k) (value C B s a k) v).2, s') ∧
        refundAfter s.refund (sstoreCost R (committed C B s a k) (value C B s a k) v).2 = some s'.refund ∧
        Prepared C B s s' ∧ coldCost R s' a k = 0 := by
  rw [gasSStore]
  by_cases hsentry : gas ≤ sstoreSentryGasEIP2200
  · exact .inl ⟨.sentry, .sentry hsentry, by decide, if_pos hsentry⟩
  rw [if_neg hsentry]
  have hread := prepared_getState (B := B) hC hal a k
  have hsame := same_getState (C := C) (B := B) s a k
  have hpair : s.getState C B a k = (value C B s a k, (s.getState C B a k).2) := rfl
  rw [hpair]
  generalize (s.getState C B a k).2 = s₁ at hread hsame
  dsimp only
  obtain ⟨hnone, hcanary, herr⟩ | ⟨s₂, hs₂, hprep₂, hr₂, hcold₂⟩ := accessSlot_spec hC R hread.placed a k
  · rw [herr]
    rw [hsame.accessList] at hnone
    exact .inl ⟨.addressNotPresent, .addressNotPresent hnone hcanary, by decide, rfl⟩
  have hprep := hread.trans hC hprep₂
  obtain ⟨s₃, hs₃, hprep₃, hr₃, hal₃⟩ := readOriginal_spec hC hprep₂.placed a k v
  rw [hprep.slots.value, hprep.slots.committed] at hs₃
  rw [hs₂, coldCost_congr hsame.accessList]
  simp only [bind, Except.bind, hs₃]
  -- the committed value matters only for a write of another value
  have hcost : sstoreCost R (if value C B s a k = v then value C B s a k else committed C B s a k)
      (value C B s a k) v = sstoreCost R (committed C B s a k) (value C B s a k) v := by
    split
    · next h =>
      rw [h]
      exact sstoreCost_noop R _ _ v
    · rfl
  rw [hcost]
  have hrefund : s₃.refund = s.refund := by rw [hr₃, hr₂, hsame.refund]
  obtain ⟨hnone, herr⟩ | ⟨s₄, hs₄, hr₄, hslots₄, hrev₄, hal₄⟩ := applyCalls_spec hC
    (sstoreCost R (committed C B s a k) (value C B s a k) v).2 s₃
  · rw [hrefund] at hnone
    rw [herr]
    exact .inr (.inl ⟨hnone, rfl⟩)
  rw [hrefund] at hr₄
  rw [hs₄]
  refine .inr (.inr ⟨s₄, rfl, hr₄, (hprep.trans hC hprep₃).trans hC ⟨hslots₄, hrev₄, ?_, fun _ h => ?_⟩, ?_⟩)
  · rw [hal₄]
    exact hprep₃.placed
  · rw [hal₄]
    exact h
  rw [coldCost_congr (hal₄.trans hal₃)]
  exact hcold₂

/-- An `SSTORE` fails for its gas, or panics just when the refund counter would
go below zero, or writes the slot. -/
theorem sstore_spec (hC : AddressesDistinct C) (hB : Coherent C B s.trie) (hal : Placed s.accessList)
    (R : Schedule) (gas : UInt64) (a : Address) (k v : Hash) :
    (∃ e, Refused R (s.accessList.containsAddress a) gas
          (coldCost R s a k + (sstoreCost R (committed C B s a k) (value C B s a k) v).1) e ∧
        sstore R C B gas a k v s = .error e) ∨
      (refundAfter s.refund (sstoreCost R (committed C B s a k) (value C B s a k) v).2 = none ∧
        sstore R C B gas a k v s = .error (.panic .explicit)) ∨
      ∃ s', sstore R C B gas a k v s =
          .ok (coldCost R s a k + (sstoreCost R (committed C B s a k) (value C B s a k) v).1,
            (sstoreCost R (committed C B s a k) (value C B s a k) v).2, s') ∧
        refundAfter s.refund (sstoreCost R (committed C B s a k) (value C B s a k) v).2 = some s'.refund ∧
        Wrote C B a k v s s' ∧ coldCost R s' a k = 0 := by
  rw [sstore]
  obtain ⟨e, he, _, herr⟩ | ⟨hnone, herr⟩ | ⟨s', hs', hr, hprep, hcold⟩ :=
    gasSStore_spec hC hal R gas a k v
  · rw [herr]
    exact .inl ⟨e, he, rfl⟩
  · rw [herr]
    exact .inr (.inl ⟨hnone, rfl⟩)
  rw [hs']
  by_cases hgas : gas < coldCost R s a k + (sstoreCost R (committed C B s a k) (value C B s a k) v).1
  · exact .inl ⟨.outOfGas, .outOfGas hgas, if_pos hgas⟩
  obtain ⟨_, _, _, hrefund, haccess⟩ :=
    setState_slots hC (by rw [hprep.slots.trie]; exact hB) a k v
  refine .inr (.inr ⟨_, if_neg hgas, ?_, wrote_setState hC hB hprep a k v, ?_⟩)
  · rw [hrefund]
    exact hr
  rw [coldCost_congr haccess]
  exact hcold

end Geth.Vm.SstoreGas
