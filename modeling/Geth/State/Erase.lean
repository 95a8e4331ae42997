import Geth.State.Snapshots
import Geth.State.Writeback

namespace Geth.State.Erase

open Lib.BigEndian Common.Basic Account Journal Revert Snapshots Commit Writeback Function Option AList

variable {C : Crypto} {B : Backend} {R : Roots} {s s' : StateDB} {a : Address} {o : StateObject}
variable {F : Fate}

section

/-- An account without code and slots. -/
structure Blank (C : Crypto) (B : Backend) (s : StateDB) (a : Address) : Prop where
  state : ∀ k, (s.getState C B a k).1 = zeros 32
  code : (s.getCode C B a).1 = []

def storageRoot (C : Crypto) (B : Backend) (s : StateDB) (a : Address) : Hash :=
  ((s.getStateObject C B a).1.map (·.data.root)).getD emptyRoot

/-- An account that lost its code and slots, and nothing else. -/
structure Wiped (C : Crypto) (B : Backend) (s : StateDB) (a : Address) (balance : Int) (nonce : UInt64) :
    Prop where
  blank : Blank C B s a
  root : storageRoot C B s a = emptyRoot
  balance : s.getBalance C B a = balance
  nonce : s.getNonce C B a = nonce

inductive Step (C : Crypto) (B : Backend) (R : Roots) (a : Address) : StateDB → StateDB → Prop
  | spare {s s' : StateDB} (h : Spares C a s s') : Step C B R a s s'
  | getState {s : StateDB} (key : Hash) : Step C B R a s (s.getState C B a key).2
  | getCommittedState {s : StateDB} (key : Hash) : Step C B R a s (s.getCommittedState C B a key).2
  | getCode {s : StateDB} : Step C B R a s (s.getCode C B a).2
  | finalise {s : StateDB} (deleteEmptyObjects : Bool) :
      Step C B R a s (finalise C B deleteEmptyObjects s)
  | intermediateRoot {s s' : StateDB} (deleteEmptyObjects : Bool) (root : Hash)
      (h : intermediateRoot C B R deleteEmptyObjects s = .ok (root, s')) : Step C B R a s s'

def Later (C : Crypto) (B : Backend) (R : Roots) (a : Address) : StateDB → StateDB → Prop :=
  Relation.ReflTransGen (Step C B R a)

/-- After an erase the account is blank in this block, and wiped in every state
that is opened on a later commit. -/
structure EraseWipes (C : Crypto) (B : Backend) (R : Roots) (s : StateDB) (a : Address) : Prop where
  inBlock : Blank C B (s.erase C B a).2 a
  committed : ∀ s' d r, Later C B R a (s.erase C B a).2 s' → commit C B R d s' = .ok r →
    ∀ snapshots, Wiped C (reopened B r snapshots) (StateDB.new r.accounts) a (s.getBalance C B a)
      (s.getNonce C B a)

end

section

theorem getCode_fields (o : StateObject) : ∃ code err, (o.getCode C B).2 =
    { o with code := code, dbErr := err } := by
  rw [StateObject.getCode]
  split
  · exact ⟨o.code, o.dbErr, rfl⟩
  · exact ⟨_, _, rfl⟩

theorem readTrie_fields (key : Hash) (hnone : o.originStorage.lookup key = none) :
    ∃ t origin err, (o.readTrie C B key).2 = { o with trie := t, originStorage := origin, dbErr := err } ∧
      (t = o.trie ∨ t = some (o.getTrie C B).1) ∧
      ∀ k v, o.originStorage.lookup k = some v → origin.lookup k = some v := by
  obtain ⟨err, hopen⟩ := StateObject.getTrie_snd
  rw [StateObject.readTrie]
  cases (o.getTrie C B).1 key with
  | none =>
    rw [hopen]
    exact ⟨_, _, _, rfl, .inr rfl, fun _ _ h => h⟩
  | some enc =>
    rw [hopen]
    refine ⟨_, _, _, rfl, .inr rfl, fun k v h => ?_⟩
    by_cases hk : k = key
    · rw [hk, hnone] at h
      cases h
    rw [lookup_insert_ne hk]
    exact h

theorem getCommittedState_fields (destructed : Bool) (key : Hash) :
    ∃ t origin err, (o.getCommittedState C B destructed key).2 =
        { o with trie := t, originStorage := origin, dbErr := err } ∧
      (t = o.trie ∨ t = some (o.getTrie C B).1) ∧
      ∀ k v, o.originStorage.lookup k = some v → origin.lookup k = some v := by
  have hsame : ∃ t origin err, o = { o with trie := t, originStorage := origin, dbErr := err } ∧
      (t = o.trie ∨ t = some (o.getTrie C B).1) ∧
      ∀ k v, o.originStorage.lookup k = some v → origin.lookup k = some v :=
    ⟨o.trie, o.originStorage, o.dbErr, rfl, .inl rfl, fun _ _ h => h⟩
  rw [StateObject.getCommittedState]
  cases o.pendingStorage.lookup key with
  | some v => exact hsame
  | none =>
    cases horigin : o.originStorage.lookup key with
    | some v => exact hsame
    | none =>
      rw [StateObject.readSlot]
      cases B.snap with
      | none => exact readTrie_fields key horigin
      | some snap =>
        dsimp only
        cases destructed with
        | true => exact hsame
        | false =>
          rw [if_neg Bool.false_ne_true]
          cases snap.storage (addrHash C o.address) (slotHash C key) with
          | none => exact readTrie_fields key horigin
          | some enc =>
            refine ⟨_, _, _, rfl, .inl rfl, fun k v h => ?_⟩
            by_cases hk : k = key
            · rw [hk, horigin] at h
              cases h
            rw [lookup_insert_ne hk]
            exact h

theorem getCode_address (o : StateObject) : (o.getCode C B).2.address = o.address := by
  obtain ⟨code, err, hcode⟩ := getCode_fields o
  rw [hcode]

theorem getCommittedState_address (o : StateObject) (destructed : Bool) (key : Hash) :
    (o.getCommittedState C B destructed key).2.address = o.address := by
  obtain ⟨t, origin, err, heq, _⟩ := getCommittedState_fields destructed key
  rw [heq]

theorem getState_address (o : StateObject) (destructed : Bool) (key : Hash) :
    (o.getState C B destructed key).2.address = o.address := by
  rw [StateObject.getState]
  cases o.dirtyStorage.lookup key with
  | none => exact getCommittedState_address o destructed key
  | some v => rfl

end

section

variable {b : Address} {e : JournalEntry}

theorem spares_append (s : StateDB) (e : JournalEntry) (h : e.dirtied ≠ some a) : Spares C a s (s.append e) := by
  refine ⟨rfl, rfl, rfl, rfl, rfl, .rfl, ?_⟩
  dsimp only [StateDB.append]
  cases he : e.dirtied with
  | none => exact .rfl
  | some c =>
    have hne : a ≠ c := fun heq => h (by rw [he, heq])
    rw [mem_insert]
    exact or_iff_right hne

theorem spares_entry (s : StateDB) (e : JournalEntry) (he : e.dirtied = none) : Spares C a s (s.append e) :=
  spares_append s e (he ▸ nofun)

theorem spares_set (s : StateDB) (ho : o.address = b) (h : a ≠ b) : Spares C a s (s.setStateObject o) :=
  Spares.setStateObject s (by rw [ho]; exact h)

theorem spares_getDeleted (s : StateDB) (h : a ≠ b) : Spares C a s (s.getDeletedStateObject C B b).2 := by
  rw [StateDB.getDeletedStateObject]
  cases s.stateObjects b with
  | some object => exact .refl s
  | none =>
    rcases s.readAccount C B b with ⟨data, err⟩
    cases data with
    | some data => exact spares_set s rfl h
    | none => exact ⟨rfl, rfl, rfl, rfl, rfl, .rfl, .rfl⟩

theorem spares_createObject (hC : AddressesDistinct C) (s : StateDB) (h : a ≠ b) :
    Spares C a s (s.createObject C B b).2.2 := by
  rw [createObject_eq]
  refine (spares_getDeleted (B := B) s h).trans (.trans ?_ (spares_set _ rfl h))
  generalize (s.getDeletedStateObject C B b).2 = s₁
  rw [replaced]
  cases lookup C B s₁ b with
  | none => exact spares_append s₁ _ fun heq => h (some.inj heq).symm
  | some object =>
    refine Spares.trans ?_ (spares_entry _ _ rfl)
    refine ⟨rfl, rfl, ?_, rfl, rfl, .rfl, .rfl⟩
    split
    · exact update_of_ne (hC.ne h) ..
    · rfl

theorem spares_getOrNew (hC : AddressesDistinct C) (s : StateDB) (h : a ≠ b) :
    Spares C a s (s.getOrNewStateObject C B b).2 ∧ (s.getOrNewStateObject C B b).1.address = b := by
  have hl := lookup_address (getOrNew_spec (B := B) hC s b).2.1
  refine ⟨?_, hl⟩
  rw [StateDB.getOrNewStateObject, getStateObject_eq]
  cases (lookup C B s b).filter (!·.deleted) with
  | some object => exact spares_getDeleted s h
  | none => exact (spares_getDeleted s h).trans (spares_createObject hC _ h)

theorem spares_modify (s : StateDB) (he : e.dirtied = some b) (ho : o.address = b)
    (h : a ≠ b) : Spares C a s ((s.append e).setStateObject o) :=
  (spares_append s e fun heq => h (some.inj (heq.symm.trans he))).trans (spares_set _ ho h)

theorem spares_update (hC : AddressesDistinct C) (s : StateDB) (h : a ≠ b)
    (he : e.dirtied = some o.address) (ho : o.address = (s.getOrNewStateObject C B b).1.address) :
    Spares C a s (((s.getOrNewStateObject C B b).2.append e).setStateObject o) := by
  obtain ⟨hspares, haddr⟩ := spares_getOrNew hC s h
  exact hspares.trans (spares_modify _ (he.trans (congrArg some (ho.trans haddr))) (ho.trans haddr) h)

theorem spares_addBalance (s : StateDB) (amount : Int) (ho : o.address = b) (h : a ≠ b) :
    Spares C a s (s.objectAddBalance C o amount) := by
  have htouch : Spares C a s (s.append (.touch b)) :=
    spares_append s _ fun heq => h (some.inj heq).symm
  rw [StateDB.objectAddBalance]
  split
  · split
    · rw [StateDB.touch, ho]
      split
      · refine htouch.trans ⟨rfl, rfl, rfl, rfl, rfl, .rfl, ?_⟩
        dsimp only [StateDB.markDirty]
        rw [mem_insert]
        exact or_iff_right h
      · exact htouch
    · exact .refl s
  · exact spares_modify s (congrArg some ho) ho h

/-- The operations on other accounts. -/
def Spared (a : Address) : Op → Prop
  | .addBalance addr _ | .subBalance addr _ | .setBalance addr _ | .setNonce addr _ | .setCode addr _
  | .setState addr _ _ | .createAccount addr | .suicide addr | .getStateObject addr | .getCode addr
  | .getState addr _ | .getCommittedState addr _ => a ≠ addr
  | .revertToSnapshot _ => False
  | _ => True

theorem spares_setState (hC : AddressesDistinct C) (s : StateDB) (key value : Hash) (h : a ≠ b) :
    Spares C a s (s.setState C B b key value) := by
  obtain ⟨hspares, haddr⟩ := spares_getOrNew hC s h
  rw [StateDB.setState]
  generalize s.getOrNewStateObject C B b = r at hspares haddr ⊢
  obtain ⟨o, s₁⟩ := r
  dsimp only at hspares haddr ⊢
  have hread := (getState_address (C := C) (B := B) o (s₁.isDestructed C b) key).trans haddr
  split
  · exact hspares.trans (spares_set _ hread h)
  · exact hspares.trans (spares_modify _ (congrArg some hread) hread h)

theorem spares_read (s : StateDB) (hl : (lookup C B s b).filter (!·.deleted) = some o) (h : a ≠ b)
    {o'} (ho' : o'.address = o.address) :
    Spares C a s ((s.getDeletedStateObject C B b).2.setStateObject o') := by
  have haddr := lookup_address (filter_eq_some_iff.mp hl).1
  exact (spares_getDeleted s h).trans (spares_set _ (ho'.trans haddr) h)

theorem spares_createAccount (hC : AddressesDistinct C) (s : StateDB) (h : a ≠ b) :
    Spares C a s (s.createAccount C B b) := by
  have hcreate := spares_createObject (B := B) hC s h
  rw [createObject_eq] at hcreate
  rw [StateDB.createAccount, createObject_eq]
  cases lookup C B s b with
  | none => exact hcreate
  | some prev =>
    dsimp only
    split
    · exact hcreate
    · exact hcreate.trans (spares_set _ rfl h)

theorem spares_accessList (s : StateDB) (al : Access.AccessList) : Spares C a s { s with accessList := al } :=
  ⟨rfl, rfl, rfl, rfl, rfl, .rfl, .rfl⟩

theorem spares_addSlot (s : StateDB) (slot : Hash) (hs : s.addSlotToAccessList b slot = .ok s') :
    Spares C a s s' := by
  have happend (s : StateDB) (flag : Bool) (e : JournalEntry) (he : e.dirtied = none) :
      Spares C a s (if flag then s.append e else s) := by
    cases flag with
    | true => exact spares_entry s e he
    | false => exact .refl s
  obtain ⟨⟨⟨addrMod, slotMod⟩, al⟩, _, hs⟩ := bind_eq_ok.mp hs
  cases hs
  refine (spares_accessList s al).trans ?_
  exact (happend _ addrMod (.accessListAddAccount b) rfl).trans (happend _ slotMod (.accessListAddSlot b slot) rfl)

theorem spares_op (hC : AddressesDistinct C) {op : Op} (h : Spared a op)
    (hs : applyOp C B s op = .ok s') : Spares C a s s' := by
  cases op with
  | addBalance addr amount =>
    cases hs
    obtain ⟨hspares, haddr⟩ := spares_getOrNew hC s h
    exact hspares.trans (spares_addBalance _ amount haddr h)
  | subBalance addr amount =>
    cases hs
    obtain ⟨hspares, haddr⟩ := spares_getOrNew hC s h
    exact hspares.trans (spares_addBalance _ (-amount) haddr h)
  | setBalance addr amount =>
    cases hs
    exact spares_update hC s h rfl rfl
  | setNonce addr nonce =>
    cases hs
    exact spares_update hC s h rfl rfl
  | setCode addr code =>
    cases hs
    exact spares_update hC s h rfl (getCode_address _)
  | setState addr key value =>
    cases hs
    exact spares_setState hC s key value h
  | createAccount addr =>
    cases hs
    exact spares_createAccount hC s h
  | suicide addr =>
    cases hs
    rw [StateDB.suicide, getStateObject_eq]
    cases hl : (lookup C B s addr).filter (!·.deleted) with
    | none => exact spares_getDeleted s h
    | some o =>
      have haddr := lookup_address (filter_eq_some_iff.mp hl).1
      exact (spares_getDeleted s h).trans (spares_modify _ rfl haddr h)
  | addLog log =>
    cases hs
    exact (spares_entry s (.addLog s.thash) rfl).trans ⟨rfl, rfl, rfl, rfl, rfl, .rfl, .rfl⟩
  | addPreimage hash preimage =>
    cases hs
    rw [StateDB.addPreimage]
    split
    · exact .refl s
    · exact (spares_entry s (.addPreimage hash) rfl).trans ⟨rfl, rfl, rfl, rfl, rfl, .rfl, .rfl⟩
  | addRefund gas =>
    cases hs
    exact (spares_entry s (.refund s.refund) rfl).trans ⟨rfl, rfl, rfl, rfl, rfl, .rfl, .rfl⟩
  | subRefund gas =>
    rw [applyOp, StateDB.subRefund] at hs
    split at hs
    · cases hs
    cases hs
    exact (spares_entry s (.refund s.refund) rfl).trans ⟨rfl, rfl, rfl, rfl, rfl, .rfl, .rfl⟩
  | addAddressToAccessList addr =>
    cases hs
    rw [StateDB.addAddressToAccessList]
    rcases s.accessList.addAddress addr with ⟨added, al⟩
    cases added with
    | true => exact (spares_accessList s al).trans (spares_entry _ _ rfl)
    | false => exact spares_accessList s al
  | addSlotToAccessList addr slot => exact spares_addSlot s slot hs
  | getStateObject addr =>
    cases hs
    exact spares_getDeleted s h
  | getCode addr =>
    cases hs
    rw [StateDB.getCode, getStateObject_eq]
    cases hl : (lookup C B s addr).filter (!·.deleted) with
    | none => exact spares_getDeleted s h
    | some o => exact spares_read s hl h (getCode_address o)
  | getState addr key =>
    cases hs
    rw [StateDB.getState, getStateObject_eq]
    cases hl : (lookup C B s addr).filter (!·.deleted) with
    | none => exact spares_getDeleted s h
    | some o => exact spares_read s hl h (getState_address o _ key)
  | getCommittedState addr key =>
    cases hs
    rw [StateDB.getCommittedState, getStateObject_eq]
    cases hl : (lookup C B s addr).filter (!·.deleted) with
    | none => exact spares_getDeleted s h
    | some o => exact spares_read s hl h (getCommittedState_address o _ key)
  | snapshot =>
    cases hs
    exact ⟨rfl, rfl, rfl, rfl, rfl, .rfl, .rfl⟩
  | revertToSnapshot revid => exact h.elim

/-- All that the getters tell about an account. -/
def readings (C : Crypto) (B : Backend) (s : StateDB) (a : Address) :=
  (s.exist C B a, s.isEmpty C B a, s.getBalance C B a, s.getNonce C B a, s.getCodeHash C B a,
    (s.getCode C B a).1, s.hasSuicided C B a, fun k => (s.getState C B a k).1,
    fun k => (s.getCommittedState C B a k).1)

theorem Spares.readings (h : Spares C a s s') : readings C B s' a = Erase.readings C B s a := by
  have hread : s'.readAccount C B a = s.readAccount C B a := by
    simp only [StateDB.readAccount, h.trie]
  have hobject : (s'.getStateObject C B a).1 = (s.getStateObject C B a).1 := by
    rw [getStateObject_eq, getStateObject_eq, Revert.lookup, Revert.lookup, h.object, hread]
  have hdestructed : s'.isDestructed C a = s.isDestructed C a := by
    simp only [StateDB.isDestructed, h.destructs]
  simp only [Erase.readings, StateDB.exist, StateDB.isEmpty, StateDB.getBalance, StateDB.getNonce,
    StateDB.getCodeHash, StateDB.hasSuicided, getCode_fst, getState_fst, getCommittedState_fst, hobject,
    hdestructed]

theorem run_spares (hC : AddressesDistinct C) (ops : List Op) (hops : ∀ op ∈ ops, Spared a op)
    (hs : run C B s ops = .ok s') : Spares C a s s' := by
  induction ops generalizing s with
  | nil =>
    cases hs
    exact .refl _
  | cons op ops ih =>
    obtain ⟨s₁, hop, hs⟩ := bind_eq_ok.mp hs
    have hfirst := spares_op hC (hops op List.mem_cons_self) hop
    exact hfirst.trans (ih (fun op hop => hops op (List.mem_cons_of_mem _ hop)) hs)

theorem run_readings {C : Crypto} {B : Backend} {s s' : StateDB} (hC : AddressesDistinct C) (a : Address)
    (ops : List Op) (hops : ∀ op ∈ ops, Spared a op) (hs : run C B s ops = .ok s') :
    readings C B s' a = readings C B s a :=
  Spares.readings (run_spares hC ops hops hs)

def otherOps : List Op :=
  [.setState addressTwo (hexToHash 1) (hexToHash 2), .suicide addressTwo, .addRefund 3]

theorem run_readings_funded : ∃ s, run alignedHashes emptyBackend funded otherOps = .ok s ∧
    readings alignedHashes emptyBackend s addressOne = readings alignedHashes emptyBackend funded addressOne := by
  have hne : addressOne ≠ addressTwo := by decide
  refine ⟨_, rfl, run_readings alignedHashes_distinct addressOne otherOps ?_ rfl⟩
  simp [otherOps, Spared, hne]

end

section

theorem Live.cache {t} {origin} {err : Bool} (hnil : ∀ k, F.slots k (some []))
    (hl : Live C B a F s o) (ht : t = o.trie ∨ t = some (o.getTrie C B).1)
    (horigin : ∀ k v, o.originStorage.lookup k = some v → origin.lookup k = some v) :
    Live C B a F (s.setStateObject { o with trie := t, originStorage := origin, dbErr := err })
      { o with trie := t, originStorage := origin, dbErr := err } := by
  have hc := hl.cleared
  have hover : ∀ k, Overwritten o k →
      Overwritten { o with trie := t, originStorage := origin, dbErr := err } k := by
    intro k hk
    refine ⟨hk.1, ?_⟩
    cases hv : o.originStorage.lookup k with
    | none => exact (hk.2 (by rw [hv]; rfl)).elim
    | some v =>
      have hne := hk.2
      rw [hv] at hne
      rw [horigin k v hv]
      exact hne
  refine ⟨?_, hl.deleted, ⟨hc.address, hc.balance, hc.nonce, hc.root, hc.codeHash, hc.code, ?_, hc.zero⟩,
    hl.suicided, fun parent hsnap k => ?_, hl.missing⟩
  · rw [← hc.address]
    exact update_self ..
  · rcases ht with rfl | rfl
    · exact hc.trie
    rw [getTrie_cleared hc]
    exact .inr rfl
  have hslot := hl.slots parent hsnap k
  rw [slotToCome] at hslot ⊢
  split
  · exact hnil k
  rename_i hnot
  rw [if_neg fun hk => hnot (hover k hk)] at hslot
  exact hslot

theorem Staged.replace {o'} (hl : Live C B a F s o → Live C B a F (s.setStateObject o') o')
    (hdata : o'.data = o.data) (hdirty : o'.dirtyStorage = o.dirtyStorage)
    (hpending : o'.pendingStorage = o.pendingStorage) (hobject : s.stateObjects a = some o)
    (hdeleted : o.deleted = false) (h : Staged C B a F s) : Staged C B a F (s.setStateObject o') := by
  rcases h with (⟨o₁, hlive, hflag, hdue⟩ | ⟨hgone, hdue⟩) | ⟨o₁, hlive, hdirties⟩
  · cases hlive.object.symm.trans hobject
    refine .inl (.inl ⟨o', hl hlive, hflag, hdue.imp_right fun hdone => ?_⟩)
    refine ⟨hdirty.trans hdone.dirty, hpending.trans hdone.pending, ?_, ?_⟩
    · rw [hdata]
      exact hdone.trie
    rw [hdata]
    exact hdone.account
  · obtain ⟨o₁, hgone, hdel⟩ := hgone.object
    cases hgone.symm.trans hobject
    rw [hdeleted] at hdel
    cases hdel
  cases hlive.object.symm.trans hobject
  exact .inr ⟨o', hl hlive, hdirties⟩

theorem getStateObject_present (hobject : s.stateObjects a = some o) :
    s.getStateObject C B a = ((some o).filter (!·.deleted), s) := by
  rw [StateDB.getStateObject, StateDB.getDeletedStateObject, hobject]

theorem Staged.object (h : Staged C B a F s) : ∃ o, s.stateObjects a = some o := by
  rcases h with (⟨o, hlive, _⟩ | ⟨hgone, _⟩) | ⟨o, hlive, _⟩
  · exact ⟨o, hlive.object⟩
  · obtain ⟨o, hobject, _⟩ := hgone.object
    exact ⟨o, hobject⟩
  · exact ⟨o, hlive.object⟩

theorem Staged.read (hnil : ∀ k, F.slots k (some [])) (h : Staged C B a F s)
    (hobject : s.stateObjects a = some o) (hdeleted : o.deleted = false) (destructed : Bool) (key : Hash) :
    Staged C B a F (s.setStateObject (o.getCommittedState C B destructed key).2) := by
  obtain ⟨t, origin, err, heq, ht, horigin⟩ :=
    getCommittedState_fields destructed key
  rw [heq]
  exact Staged.replace (fun hl => Live.cache hnil hl ht horigin) rfl rfl rfl hobject hdeleted h

theorem Staged.code (h : Staged C B a F s) (hobject : s.stateObjects a = some o)
    (hdeleted : o.deleted = false) : Staged C B a F (s.setStateObject (o.getCode C B).2) := by
  have hsame : s.setStateObject o = s := by
    have haddr := s.keyed a o hobject
    have hupdate : update s.stateObjects o.address (some o) = s.stateObjects := by
      rw [haddr, ← hobject, update_eq_self]
    simp only [StateDB.setStateObject, hupdate]
  have hkept : ∀ o₁, Live C B a F s o₁ → (o₁.getCode C B).2 = o₁ := by
    intro o₁ hl
    rw [StateObject.getCode, if_pos (.inl (by rw [hl.cleared.code]; rfl))]
  have hcode : (o.getCode C B).2 = o := by
    rcases h with (⟨o₁, hlive, _⟩ | ⟨hgone, _⟩) | ⟨o₁, hlive, _⟩
    · cases hlive.object.symm.trans hobject
      exact hkept _ hlive
    · obtain ⟨o₁, hgone, hdel⟩ := hgone.object
      cases hgone.symm.trans hobject
      rw [hdeleted] at hdel
      cases hdel
    cases hlive.object.symm.trans hobject
    exact hkept _ hlive
  rw [hcode, hsame]
  exact h

section

variable (hC : AddressesDistinct C) (hslots : SlotsDistinct C) (hnil : ∀ k, F.slots k (some []))
    (hgo : ∀ d, MayGo F d) (h : Staged C B a F s)
include hC hslots hnil hgo h

theorem Staged.step (hs : Step C B R a s s') : Staged C B a F s' := by
  obtain ⟨o, hobject⟩ := Staged.object h
  have hpresent := getStateObject_present (C := C) (B := B) hobject
  cases hs with
  | spare hspare => exact h.spared hspare
  | getState key =>
    rw [StateDB.getState, hpresent]
    cases hdeleted : o.deleted with
    | true =>
      rw [filter_some_neg (by simp [hdeleted])]
      exact h
    | false =>
      rw [filter_some_pos (by simp [hdeleted])]
      dsimp only
      rw [StateObject.getState]
      cases o.dirtyStorage.lookup key with
      | none => exact Staged.read hnil h hobject hdeleted _ key
      | some v =>
        exact Staged.replace (fun hl => Live.cache hnil hl (.inl rfl) fun _ _ hv => hv) rfl rfl rfl hobject
          hdeleted h
  | getCommittedState key =>
    rw [StateDB.getCommittedState, hpresent]
    cases hdeleted : o.deleted with
    | true =>
      rw [filter_some_neg (by simp [hdeleted])]
      exact h
    | false =>
      rw [filter_some_pos (by simp [hdeleted])]
      exact Staged.read hnil h hobject hdeleted _ key
  | getCode =>
    rw [StateDB.getCode, hpresent]
    cases hdeleted : o.deleted with
    | true =>
      rw [filter_some_neg (by simp [hdeleted])]
      exact h
    | false =>
      rw [filter_some_pos (by simp [hdeleted])]
      exact Staged.code h hobject hdeleted
  | finalise d => exact .inl (h.finalise hC (hgo d))
  | intermediateRoot d root hroot =>
    exact .inl (h.intermediateRoot hC hslots (hgo d) hroot).queued

theorem Staged.later (hs : Later C B R a s s') : Staged C B a F s' := by
  induction hs with
  | refl => exact h
  | tail _ hstep ih => exact Staged.step hC hslots hnil hgo ih hstep

end

end

section

def erasedObject (C : Crypto) (B : Backend) (o : StateObject) : StateObject :=
  { (o.getCode C B).2 with
    code := some []
    data := { (o.getCode C B).2.data with codeHash := emptyCodeHash C, root := emptyRoot }
    trie := none
    dirtyCode := true }

theorem erase_eq (ho : (s.getStateObject C B a).1 = some o) : s.erase C B a =
    (true, ((s.getDeletedStateObject C B a).2.append (.erase (o.getCode C B).2.address (o.getCode C B).1
      (o.getCode C B).2.data.codeHash (o.getCode C B).2.data.root)).setStateObject (erasedObject C B o)) := by
  rw [getStateObject_eq] at ho
  dsimp only at ho
  rw [StateDB.erase, getStateObject_eq, ho]
  rfl

theorem erasedObject_eq (o : StateObject) : ∃ err, erasedObject C B o = { o with
    code := some []
    data := { o.data with codeHash := emptyCodeHash C, root := emptyRoot }
    trie := none
    dbErr := err
    dirtyCode := true } := by
  obtain ⟨code, err, hcode⟩ := getCode_fields o
  refine ⟨err, ?_⟩
  rw [erasedObject, hcode]

theorem snapStorage_getDeleted (s : StateDB) (a : Address) :
    (s.getDeletedStateObject C B a).2.snapStorage = s.snapStorage := by
  rw [StateDB.getDeletedStateObject]
  cases s.stateObjects a with
  | some object => rfl
  | none =>
    rcases s.readAccount C B a with ⟨data, err⟩
    cases data with
    | some data => rfl
    | none => rfl

variable (ho : (s.getStateObject C B a).1 = some o)
include ho

theorem object_address : o.address = a := by
  rw [getStateObject_eq] at ho
  exact lookup_address (filter_eq_some_iff.mp ho).1

theorem object_deleted : o.deleted = false := by
  rw [getStateObject_eq] at ho
  simpa using (filter_eq_some_iff.mp ho).2

theorem erased_object : (s.erase C B a).2.stateObjects a = some (erasedObject C B o) := by
  obtain ⟨err, herased⟩ := erasedObject_eq o
  have haddr : (erasedObject C B o).address = o.address := by rw [herased]
  rw [erase_eq ho, ← object_address ho, ← haddr]
  exact update_self ..

theorem erased_fields : (s.erase C B a).2.trie = s.trie ∧
    (s.erase C B a).2.snapDestructs = s.snapDestructs ∧
    (s.erase C B a).2.snapStorage = s.snapStorage ∧ a ∈ (s.erase C B a).2.dirties := by
  have hsame := same_getDeleted (C := C) (B := B) s a
  have haddr : (o.getCode C B).2.address = o.address := by
    obtain ⟨code, err, hcode⟩ := getCode_fields o
    rw [hcode]
  rw [erase_eq ho]
  refine ⟨hsame.trie, hsame.destructs, snapStorage_getDeleted s a, ?_⟩
  rw [haddr, object_address ho]
  exact (mem_insert _).mpr (.inl rfl)

theorem staged_erase (hzero : ∀ k v, (o.dirtyStorage ∪ o.pendingStorage).lookup k = some v → v = zeros 32)
    (hbalance : o.data.balance = F.balance) (hnonce : o.data.nonce = F.nonce)
    (hsuicided : o.suicided = F.suicided) (hmissing : s.trie a = none ↔ F.missing)
    (hslots : ∀ parent, B.snap = some parent → ∀ k, F.slots k (slotToCome C parent s a o k)) :
    Staged C B a F (s.erase C B a).2 := by
  obtain ⟨htrie, hdestructs, hstorage, hdirties⟩ := erased_fields ho
  have hobject := erased_object ho
  have haddr := object_address ho
  have hdeleted := object_deleted ho
  generalize (s.erase C B a).2 = s₁ at *
  refine .inr ⟨erasedObject C B o, ?_, hdirties⟩
  obtain ⟨err, herased⟩ := erasedObject_eq o
  rw [herased] at hobject ⊢
  refine ⟨hobject, hdeleted, ⟨haddr, hbalance, hnonce, rfl, rfl, rfl, .inl rfl, hzero⟩, hsuicided,
    fun parent hsnap k => ?_, ?_⟩
  · have hslot := hslots parent hsnap k
    rw [slotToCome] at hslot ⊢
    dsimp only [diffLayer] at hslot ⊢
    rw [hstorage, hdestructs]
    exact hslot
  rw [htrie]
  exact hmissing

end

section

def snapshotSlot (C : Crypto) (B : Backend) (s : StateDB) (a : Address) (k : Hash) : Hash :=
  match B.snap with
  | none => zeros 32
  | some snap =>
    if s.isDestructed C a then zeros 32
    else ((snap.storage (addrHash C a) (slotHash C k)).map fun enc => (slotValue enc).1).getD (zeros 32)

def slotAfterErase (C : Crypto) (B : Backend) (s : StateDB) (a : Address) (o : StateObject) (k : Hash) : Hash :=
  (o.dirtyStorage.lookup k).getD ((o.pendingStorage.lookup k).getD
    ((o.originStorage.lookup k).getD (snapshotSlot C B s a k)))

theorem readTrie_empty (htrie : (o.getTrie C B).1 = emptyTrie) (k : Hash) :
    (o.readTrie C B k).1 = zeros 32 := by
  rw [StateObject.readTrie_fst, htrie]
  rfl

theorem readSlot_empty (htrie : (o.getTrie C B).1 = emptyTrie) (haddr : o.address = a) (k : Hash) :
    (o.readSlot C B (s.isDestructed C a) k).1 = snapshotSlot C B s a k := by
  rw [StateObject.readSlot, snapshotSlot, haddr]
  cases B.snap with
  | none => exact readTrie_empty htrie k
  | some snap =>
    dsimp only
    cases s.isDestructed C a with
    | true => rfl
    | false =>
      rw [if_neg Bool.false_ne_true, if_neg Bool.false_ne_true]
      cases snap.storage (addrHash C a) (slotHash C k) with
      | none => exact readTrie_empty htrie k
      | some enc => rfl

section

variable (ho : (s.getStateObject C B a).1 = some o)
include ho

theorem getState_erased (k : Hash) :
    ((s.erase C B a).2.getState C B a k).1 = slotAfterErase C B s a o k := by
  have hobject := erased_object ho
  have hdestructs : (s.erase C B a).2.isDestructed C a = s.isDestructed C a := by
    rw [StateDB.isDestructed, (erased_fields ho).2.1, StateDB.isDestructed]
  have haddr := object_address ho
  have hdeleted := object_deleted ho
  obtain ⟨err, herased⟩ := erasedObject_eq o
  rw [getState_fst, getStateObject_present hobject, hdestructs]
  have hopen : ((erasedObject C B o).getTrie C B).1 = emptyTrie := by
    rw [herased, StateObject.getTrie]
    rw [B.openEmpty]
  have haddr' : (erasedObject C B o).address = a := by rw [herased]; exact haddr
  have hread := readSlot_empty (s := s) hopen haddr' k
  rw [filter_some_pos (by rw [herased]; simp [hdeleted]), map_some, getD_some,
    StateObject.getState_fst, StateObject.getCommittedState_fst, hread, herased]
  rfl

theorem getCode_erased : ((s.erase C B a).2.getCode C B a).1 = [] := by
  have hobject := erased_object ho
  have hdeleted := object_deleted ho
  obtain ⟨err, herased⟩ := erasedObject_eq o
  have hcodes : (erasedObject C B o).code = some [] ∧ (erasedObject C B o).deleted = o.deleted := by
    rw [herased]
    exact ⟨rfl, rfl⟩
  rw [getCode_fst, getStateObject_present hobject,
    filter_some_pos (by rw [hcodes.2]; simp [hdeleted]), map_some, getD_some,
    StateObject.getCode, if_pos (.inl (by rw [hcodes.1]; rfl)), hcodes.1]
  rfl

theorem blank_erased_iff : Blank C B (s.erase C B a).2 a ↔ ∀ k, slotAfterErase C B s a o k = zeros 32 := by
  refine ⟨fun h k => ?_, fun h => ⟨fun k => ?_, getCode_erased ho⟩⟩
  · rw [← getState_erased ho]
    exact h.state k
  rw [getState_erased ho]
  exact h k

end

end

section

/-- A slot that is zero or cannot be read. -/
def IsZero (x : Option Bytes) : Prop := ∀ enc, x = some enc → (slotValue enc).1 = zeros 32

/-- The layer holds what the account trie of its root holds, as far as it can be
read. No other trie has the root. -/
structure Agrees (C : Crypto) (R : Roots) (accounts : AccountTrie) (layer : Snapshot) : Prop where
  only : ∀ accounts', R.accounts accounts' = layer.root → accounts' = accounts
  account : ∀ a acc, accounts a = some acc → ∀ x, layer.account (addrHash C a) = some x → x = acc.map (slim C)
  storage : ∀ a data, accounts a = some (some data) → data.root = emptyRoot →
    ∀ slot enc, layer.storage (addrHash C a) slot = some enc → enc = []

variable {accounts : AccountTrie} {balance : Int} {nonce : UInt64} {layer : Snapshot}

theorem expandSlim_slim (data : StateAccount) : StateDB.expandSlim C (slim C data) = data := by
  obtain ⟨nonce, balance, root, codeHash⟩ := data
  simp only [StateDB.expandSlim, slim]
  congr 1
  · split
    · exact Eq.symm ‹_›
    · rfl
  split
  · exact Eq.symm ‹_›
  · rfl

theorem getStateObject_new : ((StateDB.new accounts).getStateObject C B a).1 =
    ((StateDB.new accounts).readAccount C B a).1.map (newObject a) := by
  rw [getStateObject_eq]
  have hlookup : lookup C B (StateDB.new accounts) a =
      ((StateDB.new accounts).readAccount C B a).1.map (newObject a) := none_or
  rw [hlookup]
  cases ((StateDB.new accounts).readAccount C B a).1 with
  | none => rfl
  | some data => rfl

theorem emptyRoot_ne : emptyRoot ≠ zeros 32 := by decide +kernel

def writtenAccount (C : Crypto) (balance : Int) (nonce : UInt64) : StateAccount :=
  ⟨nonce, balance, emptyRoot, emptyCodeHash C⟩

theorem newObject_written (a : Address) (balance : Int) (nonce : UInt64) :
    (newObject a (writtenAccount C balance nonce)).data = writtenAccount C balance nonce := by
  simp only [newObject, writtenAccount, emptyRoot_ne, if_false]

section

variable (hread : ((StateDB.new accounts).readAccount C B a).1 = some (writtenAccount C balance nonce))
include hread

theorem getState_written (k : Hash) :
    ((StateDB.new accounts).getState C B a k).1 = snapshotSlot C B (StateDB.new accounts) a k := by
  have hopen : ((newObject a (writtenAccount C balance nonce)).getTrie C B).1 = emptyTrie := by
    have hroot : (newObject a (writtenAccount C balance nonce)).data.root = emptyRoot := by
      rw [newObject_written]
      rfl
    have htrie : (newObject a (writtenAccount C balance nonce)).trie = none := rfl
    rw [StateObject.getTrie, htrie]
    rw [hroot, B.openEmpty]
  rw [getState_fst, getStateObject_new, hread, map_some, map_some, getD_some,
    StateObject.getState_fst, StateObject.getCommittedState_fst, readSlot_empty (a := a) hopen rfl]
  rfl

theorem wiped_of_written (hslot : ∀ k, snapshotSlot C B (StateDB.new accounts) a k = zeros 32) :
    Wiped C B (StateDB.new accounts) a balance nonce := by
  have hobject : ((StateDB.new accounts).getStateObject C B a).1 =
      some (newObject a (writtenAccount C balance nonce)) := by
    rw [getStateObject_new, hread, map_some]
  have hdata := newObject_written (C := C) a balance nonce
  refine ⟨⟨fun k => ?_, ?_⟩, ?_, ?_, ?_⟩
  · rw [getState_written hread]
    exact hslot k
  · have hhash : (newObject a (writtenAccount C balance nonce)).data.codeHash = emptyCodeHash C := by
      rw [hdata]
      rfl
    rw [getCode_fst, hobject, map_some, getD_some, StateObject.getCode, if_pos (.inr hhash)]
    rfl
  · rw [storageRoot, hobject, map_some, getD_some, hdata]
    rfl
  · rw [StateDB.getBalance, hobject, map_some, getD_some, hdata]
    rfl
  rw [StateDB.getNonce, hobject, map_some, getD_some, hdata]
  rfl

end

theorem wiped_of_none (hread : ((StateDB.new accounts).readAccount C B a).1 = none) :
    Wiped C B (StateDB.new accounts) a 0 0 := by
  have hobject : ((StateDB.new accounts).getStateObject C B a).1 = none := by
    rw [getStateObject_new, hread, map_none]
  refine ⟨⟨fun k => ?_, ?_⟩, ?_, ?_, ?_⟩
  · rw [getState_fst, hobject]
    rfl
  · rw [getCode_fst, hobject]
    rfl
  · rw [storageRoot, hobject]
    rfl
  · rw [StateDB.getBalance, hobject]
    rfl
  rw [StateDB.getNonce, hobject]
  rfl

theorem snapshotSlot_new (k : Hash) (h : ∀ snap, B.snap = some snap →
    IsZero (snap.storage (addrHash C a) (slotHash C k))) :
    snapshotSlot C B (StateDB.new accounts) a k = zeros 32 := by
  rw [snapshotSlot]
  cases hsnap : B.snap with
  | none => rfl
  | some snap =>
    have hzero := h snap hsnap
    have hmark : (StateDB.new accounts).isDestructed C a = false := rfl
    dsimp only
    rw [hmark, if_neg Bool.false_ne_true]
    cases henc : snap.storage (addrHash C a) (slotHash C k) with
    | none => rfl
    | some enc => exact hzero enc henc

theorem readAccount_layer {acc} (hsnap : B.snap = some layer)
    (hlayer : ∀ x, layer.account (addrHash C a) = some x → x = acc.map (slim C))
    (htrie : layer.account (addrHash C a) = none → accounts a = some acc) :
    ((StateDB.new accounts).readAccount C B a).1 = acc := by
  rw [StateDB.readAccount, hsnap, bind_some]
  cases hacc : layer.account (addrHash C a) with
  | some x =>
    dsimp only
    rw [hlayer x hacc, map_map]
    cases acc with
    | none => rfl
    | some data => exact congrArg some (expandSlim_slim data)
  | none =>
    have hknown : (StateDB.new accounts).trie a = some acc := htrie hacc
    rw [hknown]

theorem readAccount_trie (hsnap : B.snap = none) :
    ((StateDB.new accounts).readAccount C B a).1 = (accounts a).getD none := by
  have htrie : (StateDB.new accounts).trie a = accounts a := rfl
  rw [StateDB.readAccount, hsnap, bind_none]
  rw [htrie]
  cases accounts a with
  | none => rfl
  | some acc => rfl

variable {t : StateDB} {r : Committed}

theorem not_overwritten (hd : Done C B a t o) (k : Hash) : ¬Overwritten o k := by
  have hempty : (∅ ∪ ∅ : Storage) = ∅ := empty_union
  rw [Overwritten, hd.dirty, hd.pending, hempty]
  exact fun h => notMem_empty k h.1

variable {parent : Snapshot}

theorem diffLayer_slot (hl : Live C B a F t o) (hd : Done C B a t o)
    (hparent : B.snap = some parent) (root k : Hash) :
    F.slots k ((diffLayer t parent root).storage (addrHash C a) (slotHash C k)) := by
  have hslot := hl.slots parent hparent k
  rw [slotToCome, if_neg (not_overwritten hd k)] at hslot
  exact hslot

theorem diffLayer_account (hd : Done C B a t o) (hparent : B.snap = some parent)
    (root : Hash) : (diffLayer t parent root).account (addrHash C a) = some (some (slim C o.data)) := by
  dsimp only [diffLayer]
  rw [hd.account (by rw [hparent]; rfl)]

theorem diffLayer_gone (hg : Gone C B a F t) (hparent : B.snap = some parent)
    (root : Hash) : (diffLayer t parent root).account (addrHash C a) = some none := by
  obtain ⟨hdestruct, haccount, _⟩ := hg.marks (by rw [hparent]; rfl)
  dsimp only [diffLayer]
  rw [haccount, hdestruct]
  rfl

theorem snap_reopened {snapshots : Bool} (hlayer : r.layer = layerOf B t r.root)
    (hsnap : (reopened B r snapshots).snap = some layer) : ∃ parent, B.snap = some parent ∧
      ((parent.root ≠ r.root ∧ layer = diffLayer t parent r.root) ∨
        (parent.root = r.root ∧ layer = parent)) := by
  have hif : (if snapshots then r.layer else none) = some layer := hsnap
  cases snapshots with
  | false => cases hif
  | true =>
    rw [if_pos rfl, hlayer, layerOf, map_eq_some_iff] at hif
    obtain ⟨parent, hparent, hif⟩ := hif
    refine ⟨parent, hparent, ?_⟩
    split at hif
    · exact .inl ⟨‹_›, hif.symm⟩
    · exact .inr ⟨not_not.mp ‹_›, hif.symm⟩

section

variable (hroot : r.root = R.accounts t.trie) (haccounts : r.accounts = t.trie)
  (hlayer : r.layer = layerOf B t r.root)
include hroot haccounts hlayer

theorem wiped_live (hl : Live C B a F t o) (hd : Done C B a t o) (hknown : ¬F.missing)
    (hagrees : ∀ parent, B.snap = some parent → Agrees C R accounts parent)
    (hzero : ∀ k x, F.slots k x → IsZero x) (snapshots : Bool) :
    Wiped C (reopened B r snapshots) (StateDB.new r.accounts) a F.balance F.nonce := by
  have hdata : o.data = writtenAccount C F.balance F.nonce := hl.cleared.data
  have htrie : r.accounts a = some (some (writtenAccount C F.balance F.nonce)) := by
    rw [haccounts, ← hdata]
    exact hd.trie.resolve_right fun hnone => hknown (hl.missing.mp hnone)
  cases hsnap : (reopened B r snapshots).snap with
  | none =>
    refine wiped_of_written ?_ fun k => snapshotSlot_new k fun snap h => ?_
    · rw [readAccount_trie hsnap, htrie]
      rfl
    rw [hsnap] at h
    cases h
  | some layer =>
    obtain ⟨parent, hparent, hcases⟩ := snap_reopened hlayer hsnap
    rcases hcases with ⟨_, rfl⟩ | ⟨hsame, rfl⟩
    · refine wiped_of_written (readAccount_layer hsnap (fun x hx => ?_) fun _ => htrie)
        fun k => snapshotSlot_new k fun snap h => ?_
      · rw [diffLayer_account hd hparent] at hx
        cases hx
        rw [hdata]
        rfl
      cases hsnap.symm.trans h
      exact hzero k _ (diffLayer_slot hl hd hparent r.root k)
    -- the root did not change, and its layer is as good as the trie
    have hagree := hagrees layer hparent
    obtain rfl := hagree.only r.accounts (by rw [hsame, hroot, haccounts])
    refine wiped_of_written (readAccount_layer hsnap
      (hagree.account a _ htrie) fun _ => htrie)
      fun k => snapshotSlot_new k fun snap h enc henc => ?_
    cases hsnap.symm.trans h
    rw [hagree.storage a _ htrie rfl _ enc henc]
    rfl

theorem wiped_gone (hg : Gone C B a F t) (hr : Removed a t) (hknown : ¬F.missing)
    (hagrees : ∀ parent, B.snap = some parent → Agrees C R accounts parent) (snapshots : Bool) :
    Wiped C (reopened B r snapshots) (StateDB.new r.accounts) a 0 0 := by
  have htrie : r.accounts a = some none := by
    rw [haccounts]
    exact hr.resolve_right fun hnone => hknown (hg.missing.mp hnone)
  apply wiped_of_none
  cases hsnap : (reopened B r snapshots).snap with
  | none =>
    rw [readAccount_trie hsnap, htrie]
    rfl
  | some layer =>
    obtain ⟨parent, hparent, hcases⟩ := snap_reopened hlayer hsnap
    rcases hcases with ⟨_, rfl⟩ | ⟨hsame, rfl⟩
    · refine readAccount_layer hsnap (fun x hx => ?_) fun _ => htrie
      rw [diffLayer_gone hg hparent] at hx
      cases hx
      rfl
    have hagree := hagrees layer hparent
    obtain rfl := hagree.only r.accounts (by rw [hsame, hroot, haccounts])
    exact readAccount_layer hsnap (hagree.account a _ htrie) fun _ => htrie

end

end

section

variable (C B s a o)

/-- The states in which an erase wipes everything: no cache and no layer holds a
slot, and the account does not disappear with a balance or a nonce. -/
structure Erasable : Prop where
  cached : ∀ k, slotAfterErase C B s a o k = zeros 32
  layered : o.suicided = false → ∀ parent, B.snap = some parent →
    ∀ k, IsZero (slotToCome C parent s a o k)
  kept : o.suicided = true → o.data.balance = 0 ∧ o.data.nonce = 0
  known : s.trie a ≠ none

def erasedFate (slots : Hash → Option Bytes → Prop) (gone : Prop) : Fate where
  balance := o.data.balance
  nonce := o.data.nonce
  suicided := o.suicided
  missing := s.trie a = none
  slots := slots
  gone := gone

variable {C B s a o}

theorem zero_of_cached (h : ∀ k, slotAfterErase C B s a o k = zeros 32) (k v : Hash)
    (hv : (o.dirtyStorage ∪ o.pendingStorage).lookup k = some v) : v = zeros 32 := by
  have hk := h k
  rw [slotAfterErase] at hk
  by_cases hdirty : k ∈ o.dirtyStorage
  · rw [lookup_union_left hdirty] at hv
    rw [hv] at hk
    exact hk
  rw [lookup_union_right hdirty] at hv
  rw [AList.lookup_eq_none.mpr hdirty, hv] at hk
  exact hk

variable (ho : (s.getStateObject C B a).1 = some o)
include ho

theorem balance_eq : s.getBalance C B a = o.data.balance ∧ s.getNonce C B a = o.data.nonce := by
  rw [StateDB.getBalance, StateDB.getNonce, ho]
  exact ⟨rfl, rfl⟩

variable (hC : AddressesDistinct C) (hslots : SlotsDistinct C)
include hC hslots

theorem wipes_of_erasable (hagrees : ∀ parent, B.snap = some parent → Agrees C R accounts parent)
    (h : Erasable C B s a o) : EraseWipes C B R s a := by
  refine ⟨(blank_erased_iff ho).mpr h.cached, fun s' d r hlater hr snapshots => ?_⟩
  set F := erasedFate s a o (fun _ x => o.suicided = false → IsZero x)
    (o.data.balance = 0 ∧ o.data.nonce = 0) with hF
  have hstaged : Staged C B a F (s.erase C B a).2 :=
    staged_erase ho (zero_of_cached h.cached) rfl rfl rfl Iff.rfl fun parent hparent k hflag =>
      h.layered hflag parent hparent k
  have hnil : ∀ k, F.slots k (some []) := by
    intro k _ enc henc
    cases henc
    rfl
  have hgo : ∀ d, MayGo F d := by
    intro d hd
    exact hd.elim h.kept fun hd => hd.2
  obtain ⟨t, hsettled, haccounts, hroot, hlayer⟩ :=
    (Staged.later hC hslots hnil hgo hstaged hlater).commit hC hslots (hgo d) hr
  rw [(balance_eq ho).1, (balance_eq ho).2]
  rcases hsettled with ⟨o', hlive, hflag, hdone⟩ | ⟨hgone, hremoved⟩
  · exact wiped_live hroot haccounts hlayer hlive hdone h.known hagrees
      (fun k x hx => hx hflag) snapshots
  rw [hgone.allowed.1, hgone.allowed.2]
  exact wiped_gone hroot haccounts hlayer hgone hremoved h.known hagrees snapshots

theorem erasable_of_wipes {r} (hr : commit C B R false (s.erase C B a).2 = .ok r)
    (h : EraseWipes C B R s a) :
    (o.suicided = true ∨ s.trie a = none → o.data.balance = 0 ∧ o.data.nonce = 0) ∧
      (o.suicided = false → ∀ parent, B.snap = some parent → parent.root ≠ r.root →
        ∀ k, IsZero (slotToCome C parent s a o k)) := by
  have hcached := (blank_erased_iff ho).mp h.inBlock
  have hwiped := h.committed _ false r .refl hr
  rw [(balance_eq ho).1, (balance_eq ho).2] at hwiped
  constructor
  · intro hlost
    have hstaged : Staged C B a (erasedFate s a o (fun _ _ => True) True) (s.erase C B a).2 :=
      staged_erase ho (zero_of_cached hcached) rfl rfl rfl Iff.rfl fun _ _ _ => trivial
    obtain ⟨t, hsettled, haccounts, _, _⟩ := hstaged.commit hC hslots (fun _ => trivial) hr
    have hread : ((StateDB.new r.accounts).readAccount C (reopened B r false) a).1 = none := by
      rw [readAccount_trie rfl, haccounts]
      rcases hsettled with ⟨o', hlive, hflag, hdone⟩ | ⟨hgone, hremoved⟩
      · have hmissing : t.trie a = none := by
          apply hlive.missing.mpr
          exact hlost.resolve_left fun hsuicided => Bool.false_ne_true (hflag.symm.trans hsuicided)
        rw [hmissing]
        rfl
      rcases hremoved with hnone | hnone
      · rw [hnone]
        rfl
      rw [hnone]
      rfl
    have hnone := wiped_of_none hread
    exact ⟨(hwiped false).balance.symm.trans hnone.balance, (hwiped false).nonce.symm.trans hnone.nonce⟩
  intro hflag parent hparent hroot k
  have hstaged : Staged C B a (erasedFate s a o (fun k x => x = slotToCome C parent s a o k) False)
      (s.erase C B a).2 := by
    refine staged_erase ho (zero_of_cached hcached) rfl rfl rfl Iff.rfl fun parent' hparent' k => ?_
    cases hparent.symm.trans hparent'
    rfl
  obtain ⟨t, hsettled, haccounts, _, hlayer⟩ := hstaged.commit hC hslots (fun hgo => by
    rcases hgo with hgo | hgo
    · cases hflag.symm.trans hgo
    · cases hgo.1) hr
  rcases hsettled with ⟨o', hlive, _, hdone⟩ | ⟨hgone, _⟩
  · have hdata := hlive.cleared.data
    have hsnap : (reopened B r true).snap = some (diffLayer t parent r.root) := by
      have hif : (reopened B r true).snap = r.layer := rfl
      rw [hif, hlayer, layerOf, hparent, map_some, if_pos hroot]
    have hread : ((StateDB.new r.accounts).readAccount C (reopened B r true) a).1 =
        some (writtenAccount C o.data.balance o.data.nonce) := by
      refine readAccount_layer hsnap (fun x hx => ?_) fun hnone => ?_
      · rw [diffLayer_account hdone hparent] at hx
        cases hx
        rw [hdata]
        rfl
      rw [diffLayer_account hdone hparent] at hnone
      cases hnone
    have hslot := (hwiped true).blank.state k
    have hcome : (diffLayer t parent r.root).storage (addrHash C a) (slotHash C k) =
        slotToCome C parent s a o k := diffLayer_slot hlive hdone hparent r.root k
    rw [getState_written hread, snapshotSlot, hsnap] at hslot
    have hmark : (StateDB.new r.accounts).isDestructed C a = false := rfl
    dsimp only at hslot
    rw [hmark, if_neg Bool.false_ne_true, hcome] at hslot
    intro enc henc
    rw [henc] at hslot
    exact hslot
  · exact hgone.allowed.elim

end

/-- An erase wipes the account in every view if no cache and no layer holds one
of its slots. That the caches hold none is needed for the reads in this block,
and the rest for what a commit leaves behind. -/
theorem erase_wipes_iff (hC : AddressesDistinct C) (hslots : SlotsDistinct C)
    (hagrees : ∀ parent, B.snap = some parent → Agrees C R accounts parent)
    (ho : (s.getStateObject C B a).1 = some o) :
    (Erasable C B s a o → EraseWipes C B R s a) ∧
      (EraseWipes C B R s a → ∀ k, slotAfterErase C B s a o k = zeros 32) ∧
      ∀ r, commit C B R false (s.erase C B a).2 = .ok r → EraseWipes C B R s a →
        (o.suicided = true ∨ s.trie a = none → o.data.balance = 0 ∧ o.data.nonce = 0) ∧
          (o.suicided = false → ∀ parent, B.snap = some parent → parent.root ≠ r.root →
            ∀ k, IsZero (slotToCome C parent s a o k)) :=
  ⟨wipes_of_erasable ho hC hslots hagrees, fun h => (blank_erased_iff ho).mp h.inBlock,
    fun _ hr h => erasable_of_wipes ho hC hslots hr h⟩

theorem alignedHashes_slots : SlotsDistinct alignedHashes := by
  intro k k' h
  have hbytes := congrArg List.Vector.toList h
  apply List.Vector.toList_injective
  simpa [slotHash, alignedHashes, bytesToHash] using hbytes

/-- Roots that tell whether a trie is empty at slot one. -/
def roughRoots : Roots :=
  ⟨fun t => if t (hexToHash 1) = some [] then emptyRoot else zeros 32, fun _ => zeros 32, if_pos rfl⟩

/-- A trie of one account, and roots that tell it from the others. -/
def accountAt (data : StateAccount) : AccountTrie :=
  fun a => some (if a = addressOne then some data else none)

open Classical in
noncomputable def rootsOf (accounts : AccountTrie) : Roots :=
  { roughRoots with accounts := fun t => if t = accounts then hexToHash 9 else zeros 32 }

def storedData : StateAccount := ⟨1, 10, hexToHash 5, hexToHash 6⟩

def plainData : StateAccount := { storedData with root := emptyRoot }

/-- A layer with this account, and with this content of slot one. -/
def layerAt (data : StateAccount) (enc : Bytes) : Snapshot where
  root := hexToHash 9
  account h := some (if h = addrHash alignedHashes addressOne then some (slim alignedHashes data) else none)
  storage h k := some (if h = addrHash alignedHashes addressOne ∧ k = hexToHash 1 then enc else [])

/-- A database with the code of the account, and with a storage trie in which
slot one is two. -/
def storedBackend (layer : Option Snapshot) : Backend where
  snap := layer
  openStorageTrie _ root :=
    some (if root = hexToHash 5 then fun k => some (if k = hexToHash 1 then [2] else []) else emptyTrie)
  openEmpty _ := congrArg some (if_neg (by decide +kernel))
  contractCode _ h := if h = hexToHash 6 then some [6] else none

theorem agrees_layerAt {data : StateAccount} {enc : Bytes} (h : data.root = emptyRoot → enc = []) :
    Agrees alignedHashes (rootsOf (accountAt data)) (accountAt data) (layerAt data enc) := by
  refine ⟨fun t ht => ?_, fun a acc hacc x hx => ?_, fun a data' hdata hroot k enc' henc => ?_⟩
  · by_contra hne
    have hzero : (rootsOf (accountAt data)).accounts t = zeros 32 := by
      simp only [rootsOf, if_neg hne]
    have hroot : zeros 32 ≠ hexToHash 9 := by decide
    exact hroot (hzero.symm.trans ht)
  · cases hacc
    cases hx
    by_cases ha : a = addressOne
    · rw [if_pos ha, if_pos (congrArg _ ha)]
      rfl
    rw [if_neg ha, if_neg fun hhash => ha (alignedHashes_distinct hhash)]
    rfl
  cases henc
  by_cases ha : a = addressOne
  · rw [accountAt, if_pos ha] at hdata
    cases hdata
    rw [h hroot, ite_self]
  exact if_neg fun hslot => ha (alignedHashes_distinct hslot.1)

/-- An account with code and a slot is wiped where there is no snapshot, and one
with code only where there is one. -/
theorem erase_wipes_stored :
    (∃ s o, s = StateDB.new (accountAt storedData) ∧
      (s.getState alignedHashes (storedBackend none) addressOne (hexToHash 1)).1 = hexToHash 2 ∧
      (s.getCode alignedHashes (storedBackend none) addressOne).1 = [6] ∧
      (s.getStateObject alignedHashes (storedBackend none) addressOne).1 = some o ∧
      Erasable alignedHashes (storedBackend none) s addressOne o ∧
      EraseWipes alignedHashes (storedBackend none) roughRoots s addressOne) ∧
    ∃ s o B, s = StateDB.new (accountAt plainData) ∧ B = storedBackend (some (layerAt plainData [])) ∧
      Agrees alignedHashes (rootsOf (accountAt plainData)) (accountAt plainData) (layerAt plainData []) ∧
      (s.getCode alignedHashes B addressOne).1 = [6] ∧
      (s.getStateObject alignedHashes B addressOne).1 = some o ∧ Erasable alignedHashes B s addressOne o ∧
      EraseWipes alignedHashes B (rootsOf (accountAt plainData)) s addressOne := by
  constructor
  · have ho : ((StateDB.new (accountAt storedData)).getStateObject alignedHashes (storedBackend none)
        addressOne).1 = some (newObject addressOne storedData) := by
      rw [getStateObject_new]
      rfl
    have herasable : Erasable alignedHashes (storedBackend none) (StateDB.new (accountAt storedData))
        addressOne (newObject addressOne storedData) := by
      refine ⟨fun k => rfl, fun _ parent hparent => ?_, fun h => ?_, fun h => ?_⟩
      · cases hparent
      · cases h
      · cases h
    refine ⟨_, _, rfl, by decide +kernel, by decide +kernel, ho, herasable, ?_⟩
    have hagrees : ∀ parent, (storedBackend none).snap = some parent →
        Agrees alignedHashes roughRoots (accountAt storedData) parent := by
      intro parent hparent
      cases hparent
    exact (erase_wipes_iff alignedHashes_distinct alignedHashes_slots hagrees ho).1 herasable
  have hagrees := @agrees_layerAt plainData [] fun _ => rfl
  have ho : ((StateDB.new (accountAt plainData)).getStateObject alignedHashes
      (storedBackend (some (layerAt plainData []))) addressOne).1 = some (newObject addressOne plainData) := by
    rw [getStateObject_new]
    rfl
  have herasable : Erasable alignedHashes (storedBackend (some (layerAt plainData [])))
      (StateDB.new (accountAt plainData)) addressOne (newObject addressOne plainData) := by
    have hslot (h k : Hash) : (layerAt plainData []).storage h k = some [] := congrArg some (ite_self _)
    refine ⟨fun k => ?_, fun _ parent hparent k enc henc => ?_, fun h => ?_, fun h => ?_⟩
    · have hcached : slotAfterErase alignedHashes (storedBackend (some (layerAt plainData [])))
          (StateDB.new (accountAt plainData)) addressOne (newObject addressOne plainData) k =
            (slotValue (((layerAt plainData []).storage (addrHash alignedHashes addressOne)
              (slotHash alignedHashes k)).getD [])).1 := rfl
      rw [hcached, hslot]
      rfl
    · cases hparent
      have hcome : slotToCome alignedHashes (layerAt plainData []) (StateDB.new (accountAt plainData))
          addressOne (newObject addressOne plainData) k = (layerAt plainData []).storage _ _ := rfl
      rw [hcome, hslot] at henc
      cases henc
      rfl
    · cases h
    · cases h
  refine ⟨_, _, _, rfl, rfl, hagrees, by decide +kernel, ho, herasable, ?_⟩
  refine (erase_wipes_iff alignedHashes_distinct alignedHashes_slots
    (fun parent hparent => Option.some.inj hparent ▸ hagrees) ho).1 herasable

def layeredBackend : Backend := storedBackend (some (layerAt storedData [2]))

/-- A slot that was written earlier in the block outlives the erase, and so does
one that the snapshot holds. -/
theorem erase_keeps_slots :
    (∃ s, s = funded.setState alignedHashes emptyBackend addressOne (hexToHash 1) (hexToHash 2) ∧
      (s.erase alignedHashes emptyBackend addressOne).1 = true ∧
      ((s.erase alignedHashes emptyBackend addressOne).2.getState alignedHashes emptyBackend addressOne
        (hexToHash 1)).1 = hexToHash 2 ∧
      ¬EraseWipes alignedHashes emptyBackend roughRoots s addressOne) ∧
    ∃ s, s = StateDB.new (accountAt storedData) ∧
      Agrees alignedHashes (rootsOf (accountAt storedData)) (accountAt storedData) (layerAt storedData [2]) ∧
      (s.erase alignedHashes layeredBackend addressOne).1 = true ∧
      ((s.erase alignedHashes layeredBackend addressOne).2.getState alignedHashes layeredBackend addressOne
        (hexToHash 1)).1 = hexToHash 2 ∧
      ¬EraseWipes alignedHashes layeredBackend (rootsOf (accountAt storedData)) s addressOne := by
  have hne : hexToHash 2 ≠ zeros 32 := by decide
  refine ⟨⟨_, rfl, by decide +kernel, ?_⟩, ⟨_, rfl, agrees_layerAt fun h => ?_, by decide +kernel, ?_⟩⟩
  · have hslot : ((((funded.setState alignedHashes emptyBackend addressOne (hexToHash 1)
        (hexToHash 2)).erase alignedHashes emptyBackend addressOne).2.getState alignedHashes
          emptyBackend addressOne (hexToHash 1)).1 = hexToHash 2) := by decide +kernel
    exact ⟨hslot, fun h => hne (hslot.symm.trans (h.inBlock.state _))⟩
  · exact absurd h (by decide)
  have hslot : ((((StateDB.new (accountAt storedData)).erase alignedHashes layeredBackend
      addressOne).2.getState alignedHashes layeredBackend addressOne (hexToHash 1)).1 = hexToHash 2) := by
    decide +kernel
  exact ⟨hslot, fun h => hne (hslot.symm.trans (h.inBlock.state _))⟩

end Geth.State.Erase
