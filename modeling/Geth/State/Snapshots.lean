import Geth.State.Revert

namespace Geth.State.Snapshots

open Lib.BigEndian Lib.UndoLog Common.Basic Types.Receipts Account Journal Revert List Option Nat

variable {C : Crypto} {B : Backend} {s s' s₀ : StateDB}

/-- The journaled operations of a state, and the reads that fill its caches. -/
inductive Op where
  | addBalance (addr : Address) (amount : Int)
  | subBalance (addr : Address) (amount : Int)
  | setBalance (addr : Address) (amount : Int)
  | setNonce (addr : Address) (nonce : UInt64)
  | setCode (addr : Address) (code : Bytes)
  | setState (addr : Address) (key value : Hash)
  | createAccount (addr : Address)
  | suicide (addr : Address)
  | addLog (log : Log)
  | addPreimage (hash : Hash) (preimage : Bytes)
  | addRefund (gas : UInt64)
  | subRefund (gas : UInt64)
  | addAddressToAccessList (addr : Address)
  | addSlotToAccessList (addr : Address) (slot : Hash)
  | getStateObject (addr : Address)
  | getCode (addr : Address)
  | getState (addr : Address) (key : Hash)
  | getCommittedState (addr : Address) (key : Hash)
  | snapshot
  | revertToSnapshot (revid : ℕ)

def applyOp (C : Crypto) (B : Backend) (s : StateDB) : Op → Except Panic StateDB
  | .addBalance addr amount => .ok (s.addBalance C B addr amount)
  | .subBalance addr amount => .ok (s.subBalance C B addr amount)
  | .setBalance addr amount => .ok (s.setBalance C B addr amount)
  | .setNonce addr nonce => .ok (s.setNonce C B addr nonce)
  | .setCode addr code => .ok (s.setCode C B addr code)
  | .setState addr key value => .ok (s.setState C B addr key value)
  | .createAccount addr => .ok (s.createAccount C B addr)
  | .suicide addr => .ok (s.suicide C B addr).2
  | .addLog log => .ok (s.addLog log)
  | .addPreimage hash preimage => .ok (s.addPreimage hash preimage)
  | .addRefund gas => .ok (s.addRefund gas)
  | .subRefund gas => s.subRefund gas
  | .addAddressToAccessList addr => .ok (s.addAddressToAccessList addr)
  | .addSlotToAccessList addr slot => s.addSlotToAccessList addr slot
  | .getStateObject addr => .ok (s.getStateObject C B addr).2
  | .getCode addr => .ok (s.getCode C B addr).2
  | .getState addr key => .ok (s.getState C B addr key).2
  | .getCommittedState addr key => .ok (s.getCommittedState C B addr key).2
  | .snapshot => .ok s.snapshot.2
  | .revertToSnapshot revid => s.revertToSnapshot C B revid

def run (C : Crypto) (B : Backend) (s : StateDB) (ops : List Op) : Except Panic StateDB :=
  ops.foldlM (applyOp C B) s

/-- The operations that only add entries. -/
def Op.forward : Op → Prop
  | .snapshot => False
  | .revertToSnapshot _ => False
  | _ => True

theorem reversible_op (hC : AddressesDistinct C) {op : Op} (hop : op.forward)
    (h : applyOp C B s op = .ok s') : Reversible C B s s' := by
  cases op with
  | addBalance addr amount => cases h; exact reversible_addBalance hC s addr amount
  | subBalance addr amount => cases h; exact reversible_subBalance hC s addr amount
  | setBalance addr amount => cases h; exact reversible_setBalance hC s addr amount
  | setNonce addr nonce => cases h; exact reversible_setNonce hC s addr nonce
  | setCode addr code => cases h; exact reversible_setCode hC s addr code
  | setState addr key value => cases h; exact reversible_setState hC s addr key value
  | createAccount addr => cases h; exact reversible_createAccount hC s addr
  | suicide addr => cases h; exact reversible_suicide hC s addr
  | addLog log => cases h; exact reversible_addLog s log
  | addPreimage hash preimage => cases h; exact reversible_addPreimage s hash preimage
  | addRefund gas => cases h; exact reversible_addRefund s gas
  | subRefund gas => exact reversible_subRefund s gas h
  | addAddressToAccessList addr => cases h; exact reversible_addAddressToAccessList s addr
  | addSlotToAccessList addr slot => exact reversible_addSlotToAccessList s hC slot h
  | getStateObject addr => cases h; exact reversible_getDeleted s addr
  | getCode addr => cases h; exact reversible_getCode hC s addr
  | getState addr key => cases h; exact reversible_getState hC s addr key
  | getCommittedState addr key => cases h; exact reversible_getCommittedState hC s addr key
  | snapshot => exact hop.elim
  | revertToSnapshot revid => exact hop.elim

section

theorem getDeleted_revisions (s : StateDB) (a : Address) :
    (s.getDeletedStateObject C B a).2.revisions = s.revisions := (getDeleted_frame s a).2

theorem modifyObject_revisions {a} {f}
    (h : s.modifyObject C B a f = .ok s') : s'.revisions = s.revisions := by
  obtain ⟨o, _, rfl⟩ := modifyObject_ok.mp h
  exact getDeleted_revisions s a

theorem revertEntry_revisions {e} (h : StateDB.revertEntry C B e s = .ok s') :
    s'.revisions = s.revisions := by
  cases e with
  | createObject account => cases h; rfl
  | resetObject prev prevdestruct => cases h; rfl
  | suicide account prev prevbalance =>
    rw [StateDB.revertEntry, getStateObject_eq] at h
    cases hl : (lookup C B s account).filter (!·.deleted) with
    | none =>
      rw [hl] at h
      cases h
      exact getDeleted_revisions s account
    | some o =>
      rw [hl] at h
      cases h
      exact getDeleted_revisions s account
  | balance account prev => exact modifyObject_revisions h
  | nonce account prev => exact modifyObject_revisions h
  | storage account key prevalue => exact modifyObject_revisions h
  | code account prevcode prevhash => exact modifyObject_revisions h
  | refund prev => cases h; rfl
  | addLog txhash =>
    rw [StateDB.revertEntry] at h
    split at h
    · cases h
    cases h
    rfl
  | addPreimage hash => cases h; rfl
  | touch account => cases h; rfl
  | accessListAddAccount address => cases h; rfl
  | accessListAddSlot address slot =>
    obtain ⟨al, _, h⟩ := bind_eq_ok.mp h
    cases h
    rfl
  | erase account prevcode prevhash prevroot => exact modifyObject_revisions h

theorem undoAll_revisions {log} (h : undoAll (StateDB.undoEntry C B) log s = .ok s') :
    s'.revisions = s.revisions := by
  induction log generalizing s with
  | nil => cases h; rfl
  | cons e log ih =>
    obtain ⟨s₁, hs₁, h⟩ := bind_eq_ok.mp h
    obtain ⟨t, hrevert, hs₁⟩ := bind_eq_ok.mp hs₁
    cases hs₁
    have hkept := revertEntry_revisions hrevert
    exact (ih h).trans hkept

end

/-- The journal and the revisions after a snapshot of `s₀`: what was added
leads back to it, and its revision is still there, below those taken later. -/
structure After (C : Crypto) (B : Backend) (s₀ s : StateDB) : Prop where
  entries : ∃ new, s.entries = new ++ s₀.entries ∧
    Restores (StateDB.undoEntry C B) (Same C B) Journaled new s s₀
  revisions : ∃ later, s.revisions.valid =
      s₀.revisions.valid ++ ⟨s₀.revisions.next, s₀.entries.length⟩ :: later ∧
    ∀ r ∈ later, s₀.revisions.next < r.id ∧ s₀.entries.length ≤ r.journalIndex

namespace After

theorem start (s₀ : StateDB) : After C B s₀ s₀.snapshot.2 where
  entries := ⟨[], rfl, .nil (Same.of_lookup (fun _ => rfl) rfl rfl rfl rfl rfl rfl rfl)⟩
  revisions := ⟨[], rfl, fun _ hr => (not_mem_nil hr).elim⟩

variable (h : After C B s₀ s) {revid : ℕ}
include h

theorem next_lt : s₀.revisions.next < s.revisions.next := by
  obtain ⟨later, hvalid, _⟩ := h.revisions
  refine s.revisions.lt_next ⟨s₀.revisions.next, s₀.entries.length⟩ ?_
  rw [hvalid]
  exact mem_append_right _ (mem_cons_self)

theorem reversible (hC : AddressesDistinct C) (hs : Reversible C B s s') : After C B s₀ s' := by
  obtain ⟨new, hnew, hback⟩ := h.entries
  obtain ⟨new', hnew', hback'⟩ := hs.entries
  refine ⟨⟨new' ++ new, ?_, hback.append (respects hC) hback'⟩, ?_⟩
  · rw [hnew', hnew, append_assoc]
  rw [hs.revisions]
  exact h.revisions

theorem length_le : s₀.entries.length ≤ s.entries.length := by
  obtain ⟨new, hnew, _⟩ := h.entries
  rw [hnew, length_append]
  exact le_add_left _ _

theorem snapshot (hC : AddressesDistinct C) : After C B s₀ s.snapshot.2 := by
  obtain ⟨new, hnew, hback⟩ := h.entries
  obtain ⟨later, hvalid, hlater⟩ := h.revisions
  have hsame : Same C B s.snapshot.2 s := Same.of_lookup (fun _ => rfl) rfl rfl rfl rfl rfl rfl rfl
  refine ⟨⟨new, hnew, hback.append (respects hC) (.nil hsame)⟩,
    later ++ [⟨s.revisions.next, s.entries.length⟩], ?_, fun r hr => ?_⟩
  · have hpush : s.snapshot.2.revisions.valid =
        s.revisions.valid ++ [⟨s.revisions.next, s.entries.length⟩] := rfl
    rw [hpush, hvalid, append_assoc, cons_append]
  rcases mem_append.mp hr with hr | hr
  · exact hlater r hr
  rw [mem_singleton.mp hr]
  exact ⟨h.next_lt, h.length_le⟩

theorem revertJournal (hC : AddressesDistinct C) {index : ℕ} (hindex : s₀.entries.length ≤ index) :
    ∃ s', s.revertJournal C B index = .ok s' ∧ s'.revisions = s.revisions ∧
      s'.entries = s.entries.drop (s.entries.length - index) ∧
      ∃ new, s'.entries = new ++ s₀.entries ∧
        Restores (StateDB.undoEntry C B) (Same C B) Journaled new s' s₀ := by
  obtain ⟨new, hnew, hback⟩ := h.entries
  set n := s.entries.length - index with hn
  have hle : n ≤ new.length := by
    rw [hn, hnew, length_append]
    omega
  have htake : s.entries.take n = new.take n := by rw [hnew, take_append_of_le_length hle]
  rw [← take_append_drop n new] at hback
  obtain ⟨t, ht, hrest⟩ := hback.undo_new
  have hrevisions := undoAll_revisions ht
  refine ⟨{ t with entries := s.entries.drop n }, ?_, hrevisions, rfl, new.drop n, ?_, ?_⟩
  · rw [← htake] at ht
    exact bind_eq_ok.mpr ⟨t, ht, rfl⟩
  · rw [hnew]
    exact drop_append_of_le_length hle
  refine hrest.append (respects hC) (.nil ?_)
  exact Same.of_lookup (fun _ => rfl) rfl rfl rfl rfl rfl rfl rfl

omit h in
theorem findIdx_valid {later} (hrevid : s₀.revisions.next ≤ revid) (hvalid : s.revisions.valid =
      s₀.revisions.valid ++ ⟨s₀.revisions.next, s₀.entries.length⟩ :: later) :
    s.revisions.valid.findIdx (fun r => decide (revid ≤ r.id)) =
      (if revid ≤ s₀.revisions.next then 0 else later.findIdx (fun r => decide (revid ≤ r.id)) + 1) +
        s₀.revisions.valid.length := by
  rw [hvalid, findIdx_append, if_neg, findIdx_cons]
  · by_cases hle : revid ≤ s₀.revisions.next
    · simp only [hle, decide_true, cond_true, if_true]
    · simp only [hle, decide_false, cond_false, if_false]
  rw [findIdx_lt_length]
  rintro ⟨r, hr, hle⟩
  have hlt := s₀.revisions.lt_next r hr
  have hle := of_decide_eq_true hle
  omega

theorem revert_nested (hC : AddressesDistinct C) (hrevid : s₀.revisions.next < revid)
    (ht : s.revertToSnapshot C B revid = .ok s') : After C B s₀ s' := by
  obtain ⟨later, hvalid, hlater⟩ := h.revisions
  have hidx := findIdx_valid (le_of_lt hrevid) hvalid
  rw [if_neg (not_le.mpr hrevid)] at hidx
  set k := later.findIdx (fun r => decide (revid ≤ r.id)) with hk
  have hget : s.revisions.valid[k + 1 + s₀.revisions.valid.length]? = later[k]? := by
    rw [hvalid, getElem?_append_right (le_add_left _ _), Nat.add_sub_cancel, getElem?_cons_succ]
  rw [StateDB.revertToSnapshot, hidx, hget] at ht
  cases hr : later[k]? with
  | none =>
    rw [hr] at ht
    cases ht
  | some r =>
    rw [hr] at ht
    dsimp only at ht
    split at ht
    · cases ht
    obtain ⟨t, hjournal, hs'⟩ := bind_eq_ok.mp ht
    cases hs'
    have hmem := hlater r (mem_of_getElem? hr)
    obtain ⟨t', ht', hrevisions, _, new, hnew, hback⟩ := h.revertJournal hC hmem.2
    rw [hjournal] at ht'
    cases ht'
    refine ⟨⟨new, hnew, hback.append (respects hC) (.nil ?_)⟩, later.take k, ?_, fun r hr => ?_⟩
    · exact Same.of_lookup (fun _ => rfl) rfl rfl rfl rfl rfl rfl rfl
    · dsimp only [Revisions.take]
      rw [hrevisions, hvalid, add_comm, take_length_add_append, take_succ_cons]
    · exact hlater r (mem_of_mem_take hr)

theorem revert_self (hC : AddressesDistinct C) :
    ∃ s', s.revertToSnapshot C B s₀.revisions.next = .ok s' ∧ Same C B s' s₀ := by
  obtain ⟨later, hvalid, hlater⟩ := h.revisions
  have hidx := findIdx_valid (le_rfl) hvalid
  rw [if_pos (le_rfl), zero_add] at hidx
  have hget : s.revisions.valid[s₀.revisions.valid.length]? =
      some ⟨s₀.revisions.next, s₀.entries.length⟩ := by
    rw [hvalid, getElem?_append_right (le_rfl), Nat.sub_self, getElem?_cons_zero]
  obtain ⟨t, ht, _, hentries, new, hnew, hback⟩ := h.revertJournal hC (le_rfl)
  -- nothing is left of what was added
  have hnil : new = [] := by
    have hlen := congrArg length (hentries.symm.trans hnew)
    rw [length_drop, length_append] at hlen
    have hle := h.length_le
    exact List.length_eq_zero_iff.mp (by omega)
  subst hnil
  obtain ⟨t', ht', hsame⟩ := hback.back
  cases ht'
  refine ⟨{ t with revisions := t.revisions.take s₀.revisions.valid.length }, ?_, ?_⟩
  · rw [StateDB.revertToSnapshot, hidx, hget]
    dsimp only
    rw [if_neg (not_not.mpr rfl), ht]
    rfl
  refine Same.trans ?_ hsame
  exact Same.of_lookup (fun _ => rfl) rfl rfl rfl rfl rfl rfl rfl

end After

/-- The reverts among the operations go to snapshots that were taken later. -/
def Nested (id : ℕ) (ops : List Op) : Prop := ∀ revid, .revertToSnapshot revid ∈ ops → id < revid

theorem After.op (hC : AddressesDistinct C) {op : Op} (h : After C B s₀ s)
    (hop : ∀ revid, op = .revertToSnapshot revid → s₀.revisions.next < revid)
    (hs : applyOp C B s op = .ok s') : After C B s₀ s' := by
  by_cases hforward : op.forward
  · exact h.reversible hC (reversible_op hC hforward hs)
  cases op with
  | snapshot =>
    cases hs
    exact h.snapshot hC
  | revertToSnapshot revid => exact h.revert_nested hC (hop revid rfl) hs
  | _ => exact (hforward trivial).elim

theorem After.run (hC : AddressesDistinct C) {ops} (h : After C B s₀ s)
    (hops : Nested s₀.revisions.next ops) (hs : run C B s ops = .ok s') : After C B s₀ s' := by
  induction ops generalizing s with
  | nil =>
    cases hs
    exact h
  | cons op ops ih =>
    obtain ⟨s₁, hs₁, hs⟩ := bind_eq_ok.mp hs
    refine ih (h.op hC (fun revid hrevid => hops revid ?_) hs₁) (fun revid hrevid => hops revid ?_) hs
    · rw [hrevid]
      exact mem_cons_self
    · exact mem_cons_of_mem op hrevid

section

structure SameGetters (C : Crypto) (B : Backend) (s s' : StateDB) : Prop where
  exist : ∀ a, s.exist C B a = s'.exist C B a
  empty : ∀ a, s.isEmpty C B a = s'.isEmpty C B a
  balance : ∀ a, s.getBalance C B a = s'.getBalance C B a
  nonce : ∀ a, s.getNonce C B a = s'.getNonce C B a
  code : ∀ a, (s.getCode C B a).1 = (s'.getCode C B a).1
  codeHash : ∀ a, s.getCodeHash C B a = s'.getCodeHash C B a
  state : ∀ a key, (s.getState C B a key).1 = (s'.getState C B a key).1
  committedState : ∀ a key, (s.getCommittedState C B a key).1 = (s'.getCommittedState C B a key).1
  suicided : ∀ a, s.hasSuicided C B a = s'.hasSuicided C B a
  refund : s.refund = s'.refund
  logs : s.logs = s'.logs
  logSize : s.logSize = s'.logSize
  preimages : s.preimages = s'.preimages
  containsAddress : ∀ a, s.accessList.containsAddress a = s'.accessList.containsAddress a
  contains : ∀ a slot, s.accessList.contains a slot = s'.accessList.contains a slot
  destructs : s.snapDestructs = s'.snapDestructs

variable {a : Address} (key : Hash)

theorem getCode_fst : (s.getCode C B a).1 =
    (((s.getStateObject C B a).1.map fun o => (o.getCode C B).1).getD none).getD [] := by
  rw [StateDB.getCode]
  rcases s.getStateObject C B a with ⟨object, s₁⟩
  cases object with
  | none => rfl
  | some o => rfl

theorem getState_fst : (s.getState C B a key).1 = ((s.getStateObject C B a).1.map fun o =>
    (o.getState C B (s.isDestructed C a) key).1).getD (zeros 32) := by
  rw [← (same_getDeleted (B := B) s a).isDestructed a, StateDB.getState, getStateObject_eq]
  cases (lookup C B s a).filter (!·.deleted) with
  | none => rfl
  | some o => rfl

theorem getCommittedState_fst : (s.getCommittedState C B a key).1 = ((s.getStateObject C B a).1.map fun o =>
      (o.getCommittedState C B (s.isDestructed C a) key).1).getD (zeros 32) := by
  rw [← (same_getDeleted (B := B) s a).isDestructed a, StateDB.getCommittedState, getStateObject_eq]
  cases (lookup C B s a).filter (!·.deleted) with
  | none => rfl
  | some o => rfl

theorem Same.map_live {β : Type} (h : Same C B s s') (f : StateObject → β)
    (hf : ∀ o o', StateObject.Alike C B (s.isDestructed C a) o o' → f o = f o') :
    (s.getStateObject C B a).1.map f = (s'.getStateObject C B a).1.map f := by
  rw [getStateObject_eq, getStateObject_eq]
  dsimp only
  cases hl : (lookup C B s a).filter (!·.deleted) with
  | some o =>
    obtain ⟨o', hl', halike⟩ := h.live hl
    rw [hl', map_some, map_some, hf o o' halike]
  | none =>
    cases hl' : (lookup C B s' a).filter (!·.deleted) with
    | none => rfl
    | some o' =>
      obtain ⟨o, ho, _⟩ := h.symm.live hl'
      rw [hl] at ho
      cases ho

theorem Same.getters (h : Same C B s s') : SameGetters C B s s' := by
  refine ⟨fun a => ?_, fun a => ?_, fun a => ?_, fun a => ?_, fun a => ?_, fun a => ?_, fun a key => ?_,
    fun a key => ?_, fun a => ?_, h.refund, h.logs, h.logSize, h.preimages, fun a => ?_,
    fun a slot => ?_, h.destructs⟩
  · have hlive := Same.map_live h (a := a) (fun _ => ()) fun _ _ _ => rfl
    have hsome := congrArg isSome hlive
    rw [isSome_map, isSome_map] at hsome
    exact hsome
  · have hlive := Same.map_live h (a := a) (·.empty C) fun o o' halike => by
      rw [StateObject.empty, StateObject.empty, halike.nonce, halike.balance, halike.codeHash]
    have hall := congrArg (Option.all id) hlive
    rw [Option.all_map, Option.all_map] at hall
    exact hall
  · exact congrArg (·.getD 0) (Same.map_live h _ fun _ _ halike => halike.balance)
  · exact congrArg (·.getD 0) (Same.map_live h _ fun _ _ halike => halike.nonce)
  · have hlive := Same.map_live h (a := a) (fun o => (o.getCode C B).1) fun _ _ halike => halike.code
    rw [getCode_fst, getCode_fst, hlive]
  · exact congrArg (·.getD (zeros 32)) (Same.map_live h _ fun _ _ halike => halike.codeHash)
  · rw [getState_fst, getState_fst, ← h.isDestructed a]
    exact congrArg (·.getD (zeros 32)) (Same.map_live h _ fun _ _ halike => halike.state key)
  · rw [getCommittedState_fst, getCommittedState_fst, ← h.isDestructed a]
    exact congrArg (·.getD (zeros 32)) (Same.map_live h _ fun _ _ halike => halike.committed key)
  · have hlive := Same.map_live h (a := a) (·.suicided) fun _ _ halike => halike.suicided
    have hany := congrArg (Option.any id) hlive
    rw [Option.any_map, Option.any_map] at hany
    exact hany
  · rw [h.accessList]
  · rw [h.accessList]

end

/-- After any run from a snapshot on, reverting to it does not panic, and every
getter returns what it did when the snapshot was taken. -/
theorem revertToSnapshot_restores (hC : AddressesDistinct C) (s₀ : StateDB) (ops : List Op)
    (hops : Nested s₀.snapshot.1 ops) (hs : run C B s₀.snapshot.2 ops = .ok s) :
    ∃ s', s.revertToSnapshot C B s₀.snapshot.1 = .ok s' ∧ SameGetters C B s' s₀ := by
  have hafter : After C B s₀ s := (After.start s₀).run hC hops hs
  obtain ⟨s', hs', hsame⟩ := hafter.revert_self hC
  exact ⟨s', hs', Same.getters hsame⟩

def alignedHashes : Crypto := ⟨bytesToHash, fun _ _ => none⟩

theorem alignedHashes_distinct : AddressesDistinct alignedHashes := by
  intro a a' h
  have hbytes := congrArg List.Vector.toList h
  apply List.Vector.toList_injective
  simpa [addrHash, alignedHashes, bytesToHash] using hbytes

def emptyBackend : Backend := ⟨none, fun _ _ => some emptyTrie, fun _ => rfl, fun _ _ => none⟩

def funded : StateDB :=
  StateDB.new fun a => some (if a = addressOne then some ⟨0, 10, emptyRoot, zeros 32⟩ else none)

def someOps : List Op :=
  [.setState addressOne (hexToHash 1) (hexToHash 2), .snapshot, .createAccount addressOne,
    .addBalance addressTwo 5, .revertToSnapshot 1, .suicide addressOne,
    .addSlotToAccessList addressTwo (hexToHash 7), .addRefund 3]

theorem revertToSnapshot_restores_funded : ∃ s,
    run alignedHashes emptyBackend funded.snapshot.2 someOps = .ok s ∧
      s.getBalance alignedHashes emptyBackend addressOne = 0 ∧
      ∃ s', s.revertToSnapshot alignedHashes emptyBackend 0 = .ok s' ∧
        SameGetters alignedHashes emptyBackend s' funded := by
  obtain ⟨s, hs, hbalance⟩ := exists_ok_of_any
    (x := run alignedHashes emptyBackend funded.snapshot.2 someOps)
    (p := fun s => s.getBalance alignedHashes emptyBackend addressOne == 0) (by decide +kernel)
  refine ⟨s, hs, by simpa using hbalance, ?_⟩
  refine revertToSnapshot_restores alignedHashes_distinct funded someOps ?_ hs
  intro revid hmem
  simp only [someOps, mem_cons, reduceCtorEq, Op.revertToSnapshot.injEq, false_or, or_false,
    not_mem_nil] at hmem
  rw [hmem]
  exact zero_lt_one

end Geth.State.Snapshots
