import Geth.Vm.Interpreter

namespace Geth.Vm.Effects

open Lib.BigEndian Common.Basic State.Access State.Account State.Journal State.Revert
open State.Snapshots Machine Function Option
open SstoreGas (SameSlots Coherent Placed sameSlots_of_same sameSlots_of_fields sameSlots_replaced
  same_read same_getState addSlot_spec listed_addSlot replaced_frame)

variable {C : Crypto} {B : Backend} {s s' s₂ : StateDB} {a : Address}

/-- Every snapshot that could be reverted to still can. -/
structure Extends (C : Crypto) (B : Backend) (s s' : StateDB) : Prop where
  after : ∀ s₀, After C B s₀ s → After C B s₀ s'
  placed : Placed s.accessList → Placed s'.accessList
  trie : s'.trie = s.trie
  listed : ∀ a, s.accessList.containsAddress a = true → s'.accessList.containsAddress a = true

namespace Extends

theorem refl (s : StateDB) : Extends C B s s := ⟨fun _ h => h, fun h => h, rfl, fun _ h => h⟩

theorem trans (h : Extends C B s s') (h' : Extends C B s' s₂) : Extends C B s s₂ :=
  ⟨fun s₀ h₀ => h'.after s₀ (h.after s₀ h₀), fun hp => h'.placed (h.placed hp), h'.trie.trans h.trie,
    fun a ha => h'.listed a (h.listed a ha)⟩

theorem of_reversible (hC : AddressesDistinct C) (h : Reversible C B s s')
    (hframe : s'.trie = s.trie ∧ s'.accessList = s.accessList) : Extends C B s s' :=
  ⟨fun _ h₀ => h₀.reversible hC h, fun hp => by rw [hframe.2]; exact hp, hframe.1,
    fun _ ha => by rw [hframe.2]; exact ha⟩

theorem snapshot (hC : AddressesDistinct C) (s : StateDB) : Extends C B s s.snapshot.2 :=
  ⟨fun _ h₀ => h₀.snapshot hC, fun hp => hp, rfl, fun _ h => h⟩

end Extends

/-- What the state is made of is the same, apart from caches, the access list
and accounts that are empty. -/
structure Unmoved (C : Crypto) (B : Backend) (s s' : StateDB) : Prop where
  balance : ∀ a, s'.getBalance C B a = s.getBalance C B a
  nonce : ∀ a, s'.getNonce C B a = s.getNonce C B a
  code : ∀ a, (s'.getCode C B a).1 = (s.getCode C B a).1
  slots : ∀ a key, (s'.getState C B a key).1 = (s.getState C B a key).1
  suicided : ∀ a, s'.hasSuicided C B a = s.hasSuicided C B a
  logs : s'.logs = s.logs

namespace Unmoved

theorem refl (s : StateDB) : Unmoved C B s s :=
  ⟨fun _ => rfl, fun _ => rfl, fun _ => rfl, fun _ _ => rfl, fun _ => rfl, rfl⟩

theorem trans (h : Unmoved C B s s') (h' : Unmoved C B s' s₂) : Unmoved C B s s₂ :=
  ⟨fun a => (h'.balance a).trans (h.balance a), fun a => (h'.nonce a).trans (h.nonce a),
    fun a => (h'.code a).trans (h.code a), fun a key => (h'.slots a key).trans (h.slots a key),
    fun a => (h'.suicided a).trans (h.suicided a), h'.logs.trans h.logs⟩

theorem of_same (h : Same C B s' s) : Unmoved C B s s' :=
  have hg := Same.getters h
  ⟨hg.balance, hg.nonce, hg.code, hg.state, hg.suicided, hg.logs⟩

theorem of_fields (hobjects : s'.stateObjects = s.stateObjects) (htrie : s'.trie = s.trie)
    (hdestructs : s'.snapDestructs = s.snapDestructs) (hlogs : s'.logs = s.logs) : Unmoved C B s s' := by
  have hlive (a : Address) : (s'.getStateObject C B a).1 = (s.getStateObject C B a).1 := by
    rw [getStateObject_eq, getStateObject_eq, lookup_congr (by rw [hobjects]) htrie]
  refine ⟨fun a => ?_, fun a => ?_, fun a => ?_,
    (sameSlots_of_fields hobjects htrie hdestructs).value, fun a => ?_, hlogs⟩
  · rw [StateDB.getBalance, StateDB.getBalance, hlive]
  · rw [StateDB.getNonce, StateDB.getNonce, hlive]
  · rw [getCode_fst, getCode_fst, hlive]
  · rw [StateDB.hasSuicided, StateDB.hasSuicided, hlive]

end Unmoved

theorem replaced_logs (s : StateDB) (a : Address) : (replaced C B s a).logs = s.logs := by
  rw [replaced]
  cases lookup C B s a <;> rfl

theorem unmoved_replaced (hC : AddressesDistinct C) (hB : Coherent C B s.trie)
    (hnone : (s.getStateObject C B a).1 = none) :
    Unmoved C B s ((replaced C B s a).setStateObject (newObject a (zeroAccount C))) := by
  obtain ⟨hobjects, htrie, _, _⟩ := replaced_frame s a
  have hslots := sameSlots_replaced hC hB hnone
  have hlogs := replaced_logs (C := C) (B := B) s a
  set s₃ := (replaced C B s a).setStateObject (newObject a (zeroAccount C)) with hs₃
  have hself : (s₃.getStateObject C B a).1 = some (newObject a (zeroAccount C)) :=
    live_of_lookup lookup_set_self rfl
  have hother (a' : Address) (ha : a' ≠ a) : (s₃.getStateObject C B a').1 = (s.getStateObject C B a').1 := by
    rw [getStateObject_eq, getStateObject_eq, hs₃, lookup_set_of_ne ha,
      lookup_congr (by rw [hobjects]) htrie]
  -- a getter of the new account returns what it returns for an absent one
  have hget {β : Type} (f : StateObject → β) (d : β) (hf : f (newObject a (zeroAccount C)) = d) (a' : Address) :
      ((s₃.getStateObject C B a').1.map f).getD d = ((s.getStateObject C B a').1.map f).getD d := by
    by_cases ha : a' = a
    · subst a'
      rw [hself, hnone, map_some, hf]
      rfl
    · rw [hother a' ha]
  have hcode : ((newObject a (zeroAccount C)).getCode C B).1 = none := by
    have hempty : (newObject a (zeroAccount C)).data.codeHash = emptyCodeHash C := rfl
    rw [StateObject.getCode, if_pos (Or.inr hempty)]
    rfl
  refine ⟨hget _ 0 rfl, hget _ 0 rfl, fun a' => ?_, hslots.value, fun a' => ?_, hlogs⟩
  · rw [getCode_fst, getCode_fst, hget _ none hcode a']
  rw [StateDB.hasSuicided, StateDB.hasSuicided]
  by_cases ha : a' = a
  · subst a'
    rw [hself, hnone]
    rfl
  · rw [hother a' ha]

section

variable (s)

theorem getOrNew_frame (a : Address) : (s.getOrNewStateObject C B a).2.trie = s.trie ∧
    (s.getOrNewStateObject C B a).2.accessList = s.accessList := by
  refine getOrNew_rule (P := fun s₁ => s₁.trie = s.trie ∧ s₁.accessList = s.accessList) s a
    (fun s₁ h => ⟨h.trie, h.accessList⟩) fun s₁ hsame _ => ?_
  obtain ⟨_, htrie, _, haccess⟩ := replaced_frame s₁ a
  exact ⟨htrie.trans hsame.trie, haccess.trans hsame.accessList⟩

theorem unmoved_getOrNew (hC : AddressesDistinct C) (hB : Coherent C B s.trie) (a : Address) :
    Unmoved C B s (s.getOrNewStateObject C B a).2 := by
  refine getOrNew_rule s a (fun s₁ h => .of_same h) fun s₁ hsame hnone => ?_
  refine (Unmoved.of_same hsame).trans (unmoved_replaced hC ?_ hnone)
  rw [hsame.trie]
  exact hB

theorem same_getCode (a : Address) : Same C B (s.getCode C B a).2 s := by
  rw [StateDB.getCode, getStateObject_eq]
  cases hl : (lookup C B s a).filter (!·.deleted) with
  | none => exact same_getDeleted s a
  | some o => exact same_read (fun _ _ => .getCode) hl

end

section

theorem touch_frame (s : StateDB) (a : Address) : (s.touch a).trie = s.trie ∧
    (s.touch a).accessList = s.accessList := by
  rw [StateDB.touch]
  split <;> exact ⟨rfl, rfl⟩

theorem unmoved_touch (s : StateDB) (a : Address) : Unmoved C B s (s.touch a) := by
  rw [StateDB.touch]
  split <;> exact .of_fields rfl rfl rfl rfl

theorem objectAddBalance_frame (s : StateDB) (o : StateObject) (amount : ℤ) :
    (s.objectAddBalance C o amount).trie = s.trie ∧
      (s.objectAddBalance C o amount).accessList = s.accessList := by
  rw [StateDB.objectAddBalance]
  split
  · split
    · exact touch_frame s o.address
    · exact ⟨rfl, rfl⟩
  · exact ⟨rfl, rfl⟩

theorem unmoved_objectAddBalance (s : StateDB) (o : StateObject) :
    Unmoved C B s (s.objectAddBalance C o 0) := by
  rw [StateDB.objectAddBalance, if_pos rfl]
  split
  · exact unmoved_touch s o.address
  · exact .refl s

end

section

variable (hC : AddressesDistinct C) (amount : ℤ)
include hC

theorem extends_read (h : Reversible C B s s') (hsame : Same C B s' s) : Extends C B s s' :=
  .of_reversible hC h ⟨hsame.trie, hsame.accessList⟩

theorem extends_update (h : Reversible C B s s') (hframe : s'.trie = (s.getOrNewStateObject C B a).2.trie ∧
      s'.accessList = (s.getOrNewStateObject C B a).2.accessList) : Extends C B s s' :=
  .of_reversible hC h ⟨hframe.1.trans (getOrNew_frame s a).1, hframe.2.trans (getOrNew_frame s a).2⟩

theorem extends_addBalance : Extends C B s (s.addBalance C B a amount) :=
  extends_update hC (reversible_addBalance hC s a amount) (objectAddBalance_frame _ _ _)

theorem extends_subBalance : Extends C B s (s.subBalance C B a amount) :=
  extends_update hC (reversible_subBalance hC s a amount) (objectAddBalance_frame _ _ _)

theorem unmoved_addBalance (hB : Coherent C B s.trie) : Unmoved C B s (s.addBalance C B a 0) :=
  (unmoved_getOrNew s hC hB a).trans (unmoved_objectAddBalance _ _)

theorem unmoved_subBalance (hB : Coherent C B s.trie) : Unmoved C B s (s.subBalance C B a 0) :=
  (unmoved_getOrNew s hC hB a).trans (unmoved_objectAddBalance _ _)

theorem extends_setNonce (nonce : UInt64) : Extends C B s (s.setNonce C B a nonce) :=
  extends_update hC (reversible_setNonce hC s a nonce) ⟨rfl, rfl⟩

theorem extends_setCode (code : Bytes) : Extends C B s (s.setCode C B a code) :=
  extends_update hC (reversible_setCode hC s a code) ⟨rfl, rfl⟩

theorem extends_setState (key value : Hash) : Extends C B s (s.setState C B a key value) := by
  refine extends_update (a := a) hC (reversible_setState hC s a key value) ?_
  rw [StateDB.setState]
  dsimp only
  split <;> exact ⟨rfl, rfl⟩

theorem extends_createAccount : Extends C B s (s.createAccount C B a) := by
  have hloaded := same_getDeleted (C := C) (B := B) s a
  obtain ⟨_, htrie, _, haccess⟩ := replaced_frame (s.getDeletedStateObject C B a).2 a
  refine .of_reversible hC (reversible_createAccount hC s a) ?_
  have hframe := And.intro (htrie.trans hloaded.trie) (haccess.trans hloaded.accessList)
  rw [StateDB.createAccount, createObject_eq]
  cases lookup C B s a with
  | none => exact hframe
  | some prev =>
    dsimp only
    split <;> exact hframe

theorem unmoved_createAccount (hB : Coherent C B s.trie) (hnone : s.exist C B a = false) :
    Unmoved C B s (s.createAccount C B a) := by
  have hloaded := same_getDeleted (C := C) (B := B) s a
  rw [StateDB.exist, isSome_eq_false_iff, isNone_iff_eq_none] at hnone
  have hnew : Unmoved C B s ((replaced C B (s.getDeletedStateObject C B a).2 a).setStateObject
      (newObject a (zeroAccount C))) := by
    refine (Unmoved.of_same hloaded).trans (unmoved_replaced hC ?_ ?_)
    · rw [hloaded.trie]
      exact hB
    rw [getStateObject_eq] at hnone ⊢
    rw [lookup_getDeleted]
    exact hnone
  rw [getStateObject_eq] at hnone
  rw [StateDB.createAccount, createObject_eq]
  cases hl : lookup C B s a with
  | none => exact hnew
  | some prev =>
    rw [hl] at hnone
    have hdeleted : prev.deleted = true := by
      by_contra hd
      rw [filter_some, Bool.not_eq_true] at *
      rw [hd] at hnone
      cases hnone
    dsimp only
    rw [if_pos hdeleted]
    exact hnew

theorem extends_suicide : Extends C B s (s.suicide C B a).2 := by
  have hloaded := same_getDeleted (C := C) (B := B) s a
  refine .of_reversible hC (reversible_suicide hC s a) ?_
  have hframe := And.intro hloaded.trie hloaded.accessList
  rw [StateDB.suicide, getStateObject_eq]
  cases (lookup C B s a).filter (!·.deleted) with
  | none => exact hframe
  | some o => exact hframe

end

section

theorem placed_addAddress {al} (hal : Placed al) (a : Address) : Placed (al.addAddress a).2 := by
  rw [AccessList.addAddress]
  cases hknown : al.addresses a with
  | some place => exact hal
  | none =>
    intro a' idx h
    change update al.addresses a (some none) a' = _ at h
    by_cases ha : a' = a
    · subst a'
      rw [update_self] at h
      cases h
    rw [update_of_ne ha] at h
    exact hal a' idx h

theorem containsAddress_addAddress (al : AccessList) (a a' : Address) :
    (al.addAddress a).2.containsAddress a' = (decide (a' = a) || al.containsAddress a') := by
  rw [AccessList.addAddress]
  by_cases ha : a' = a
  · subst a'
    cases h : al.addresses a with
    | some place => simp [AccessList.containsAddress, h]
    | none => simp [AccessList.containsAddress]
  · cases h : al.addresses a with
    | some place => simp [ha]
    | none => simp [AccessList.containsAddress, ha]

theorem addAddress_fields (s : StateDB) (a : Address) :
    (s.addAddressToAccessList a).accessList = (s.accessList.addAddress a).2 ∧
      (s.addAddressToAccessList a).stateObjects = s.stateObjects ∧
      (s.addAddressToAccessList a).trie = s.trie ∧
      (s.addAddressToAccessList a).snapDestructs = s.snapDestructs ∧
      (s.addAddressToAccessList a).logs = s.logs := by
  rw [StateDB.addAddressToAccessList]
  dsimp only
  split <;> exact ⟨rfl, rfl, rfl, rfl, rfl⟩

theorem extends_addAddress (hC : AddressesDistinct C) (s : StateDB) (a : Address) :
    Extends C B s (s.addAddressToAccessList a) := by
  obtain ⟨haccess, _, htrie, _, _⟩ := addAddress_fields s a
  refine ⟨fun _ h₀ => h₀.reversible hC (reversible_addAddressToAccessList s a), fun hp => ?_, htrie,
    fun a' ha' => ?_⟩
  · rw [haccess]
    exact placed_addAddress hp a
  · rw [haccess, containsAddress_addAddress, ha', Bool.or_true]

theorem listed_addAddress (s : StateDB) (a : Address) :
    (s.addAddressToAccessList a).accessList.containsAddress a = true := by
  rw [(addAddress_fields s a).1, containsAddress_addAddress, decide_eq_true rfl, Bool.true_or]

theorem unmoved_addAddress (s : StateDB) (a : Address) : Unmoved C B s (s.addAddressToAccessList a) := by
  obtain ⟨_, hobjects, htrie, hdestructs, hlogs⟩ := addAddress_fields s a
  exact .of_fields hobjects htrie hdestructs hlogs

theorem addSlot_ok (hC : AddressesDistinct C) (hal : Placed s.accessList) (a : Address) (slot : Hash) :
    ∃ s', s.addSlotToAccessList a slot = .ok s' ∧ Extends C B s s' ∧ Unmoved C B s s' := by
  obtain ⟨⟨addrMod, slotMod⟩, al, hadd, hplaced, _⟩ := addSlot_spec hal a slot
  have hs : ∃ s', s.addSlotToAccessList a slot = .ok s' ∧ s'.accessList = al ∧
      s'.stateObjects = s.stateObjects ∧ s'.trie = s.trie ∧ s'.snapDestructs = s.snapDestructs ∧
      s'.logs = s.logs := by
    rw [StateDB.addSlotToAccessList, hadd]
    cases addrMod <;> cases slotMod <;> exact ⟨_, rfl, rfl, rfl, rfl, rfl, rfl⟩
  obtain ⟨s', hs', haccess, hobjects, htrie, hdestructs, hlogs⟩ := hs
  refine ⟨s', hs', ⟨fun _ h₀ => ?_, fun _ => ?_, htrie, fun a' ha' => ?_⟩,
    .of_fields hobjects htrie hdestructs hlogs⟩
  · exact h₀.reversible hC (reversible_addSlotToAccessList s hC slot hs')
  · rw [haccess]
    exact hplaced
  · rw [haccess]
    exact listed_addSlot hadd a' ha'

end

/-- The results of a computation that can panic in no other way than `SSTORE` and
the validator can, and not even so if it is quiet. Where it fits, only the refund
counter can make it panic. -/
def Settles {α : Type} (quiet fit : Prop) (P : α → Prop) : Except Stop α → Prop
  | .ok r => P r
  | .error (.sstore e) => ¬ quiet ∧ (fit → e = .panic .explicit)
  | .error (.validator _) => ¬ quiet ∧ ¬ fit
  | .error _ => False

namespace Settles

variable {α β : Type} {quiet quiet' fit fit' : Prop} {P Q : α → Prop} {x : Except Stop α}

theorem mono (h : Settles quiet fit P x) (hPQ : ∀ r, P r → Q r) (hquiet : quiet' → quiet) (hfit : fit' → fit) :
    Settles quiet' fit' Q x := by
  cases x with
  | ok r => exact hPQ r h
  | error e =>
    cases e with
    | sstore e => exact ⟨fun hq => h.1 (hquiet hq), fun hf => h.2 (hfit hf)⟩
    | validator p => exact ⟨fun hq => h.1 (hquiet hq), fun hf => h.2 (hfit hf)⟩
    | noReturn => exact h
    | panic p => exact h

theorem relax (h : Settles quiet fit P x) (hquiet : quiet' → quiet) (hfit : fit' → fit) :
    Settles quiet' fit' P x :=
  h.mono (fun _ hr => hr) hquiet hfit

theorem bind {R : β → Prop} {f : α → Except Stop β} (h : Settles quiet fit P x)
    (hf : ∀ r, P r → Settles quiet fit R (f r)) : Settles quiet fit R (x >>= f) := by
  cases x with
  | ok r => exact hf r h
  | error e => cases e <;> exact h

end Settles

/-- The rules under which `SSTORE` looks at the access list. -/
def usesAccessList (rules : Rules) : Bool := rules.isLondon || rules.isBerlin

def Listed (env : Env) (db : StateDB) (a : Address) : Prop :=
  usesAccessList env.rules = true → db.accessList.containsAddress a = true

/-- Rules that follow each other, and a validator that answers. -/
structure Orderly (env : Env) : Prop where
  berlin : usesAccessList env.rules = true → env.rules.isBerlin = true
  answers : ∀ v, env.extraValidator = some v → ∀ l, ∃ b, v.isLogDenied l = .ok b

def Fit (env : Env) (db : StateDB) (a : Address) : Prop := Orderly env ∧ Listed env db a

theorem Fit.extends {env : Env} (h : Fit env s a) (hext : Extends env.crypto env.backend s s') : Fit env s' a :=
  ⟨h.1, fun huses => hext.listed a (h.2 huses)⟩

/-- A machine in which nothing may be written, as far as one watches it. -/
def Quiet (w : Prop) (env : Env) (readOnly : Bool) (db : StateDB) : Prop :=
  readOnly = true ∧ env.rules.isByzantium = true ∧ Coherent env.crypto env.backend db.trie ∧ w

/-- What a machine that works read-only or not leaves of another one. -/
structure Keeps (w : Prop) (env : Env) (readOnly : Bool) (e e' : Evm) : Prop where
  depth : e'.depth = e.depth
  flag : e'.readOnly = e.readOnly
  extended : Extends env.crypto env.backend e.db e'.db
  unmoved : Quiet w env readOnly e.db → Unmoved env.crypto env.backend e.db e'.db

namespace Keeps

variable {w : Prop} {env : Env} {readOnly : Bool} {e e' e₂ : Evm}

theorem quiet (h : Keeps w env readOnly e e') (hq : Quiet w env readOnly e.db) : Quiet w env readOnly e'.db :=
  ⟨hq.1, hq.2.1, by rw [h.extended.trie]; exact hq.2.2.1, hq.2.2.2⟩

theorem fit {a : Address} (h : Keeps w env readOnly e e') (hfit : Fit env e.db a) : Fit env e'.db a :=
  hfit.extends h.extended

theorem refl (e : Evm) : Keeps w env readOnly e e := ⟨rfl, rfl, .refl _, fun _ => .refl _⟩

theorem trans (h : Keeps w env readOnly e e') (h' : Keeps w env readOnly e' e₂) : Keeps w env readOnly e e₂ :=
  ⟨h'.depth.trans h.depth, h'.flag.trans h.flag, h.extended.trans h'.extended,
    fun hq => (h.unmoved hq).trans (h'.unmoved (h.quiet hq))⟩

theorem db {db} (h : Extends env.crypto env.backend e.db db)
    (h' : Quiet w env readOnly e.db → Unmoved env.crypto env.backend e.db db) :
    Keeps w env readOnly e { e with db } :=
  ⟨rfl, rfl, h, h'⟩

theorem snapshot (hC : AddressesDistinct env.crypto) (e : Evm) :
    Keeps w env readOnly e { e with db := e.db.snapshot.2 } :=
  .db (.snapshot hC e.db) fun _ => .of_fields rfl rfl rfl rfl

theorem placed (h : Keeps w env readOnly e e') (hp : Placed e.db.accessList) : Placed e'.db.accessList :=
  h.extended.placed hp

end Keeps

end Geth.Vm.Effects
