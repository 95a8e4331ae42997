import Geth.State.Commit
import Geth.State.Revert

namespace Geth.State.Writeback

open Lib.BigEndian Common.Basic Account Journal Revert Commit Function List AList

variable {C : Crypto} {B : Backend} {R : Roots} {s s' : StateDB} {a b : Address} {o : StateObject}
variable {storage : Hash → Option Bytes}

section

def SlotsDistinct (C : Crypto) : Prop := Function.Injective (slotHash C)

theorem tryUpdate_empty (key : Hash) : tryUpdate emptyTrie key [] = emptyTrie := by
  have hsome : (emptyTrie key).isSome = true := rfl
  rw [tryUpdate, if_pos hsome]
  exact update_eq_self key emptyTrie

theorem encodeSlot_zero : encodeSlot (zeros 32) = [] := if_pos rfl

/-- Deleting slots from the empty trie leaves it empty, with a mark for each of
them that was cached. -/
theorem foldl_writeSlot (hC : SlotsDistinct C) (slots : List ((_ : Hash) × Hash))
    (hkeys : (slots.map Sigma.fst).Nodup) (hzero : ∀ slot ∈ slots, slot.2 = zeros 32)
    (r : StateObject × (Hash → Option Bytes)) (htrie : r.1.trie = some emptyTrie) :
    ∃ origin err, (slots.foldl (writeSlot C B) r).1 =
        { r.1 with originStorage := origin, dbErr := err } ∧
      (B.snap.isSome → ∀ k, (slots.foldl (writeSlot C B) r).2 (slotHash C k) =
        if k ∈ slots.map Sigma.fst ∧ (r.1.originStorage.lookup k).getD (zeros 32) ≠ zeros 32 then some []
        else r.2 (slotHash C k)) := by
  induction slots generalizing r with
  | nil => exact ⟨r.1.originStorage, r.1.dbErr, rfl, fun _ k => by simp⟩
  | cons slot slots ih =>
    obtain ⟨key, value⟩ := slot
    rw [map_cons, nodup_cons] at hkeys
    rw [forall_mem_cons] at hzero
    obtain ⟨rfl, hzero⟩ := hzero
    rw [foldl_cons]
    by_cases horigin : zeros 32 = (r.1.originStorage.lookup key).getD (zeros 32)
    · have hskip : writeSlot C B r ⟨key, zeros 32⟩ = r := if_pos horigin
      rw [hskip]
      obtain ⟨origin, err, hobject, hstorage⟩ := ih hkeys.2 hzero r htrie
      refine ⟨origin, err, hobject, fun hsnap k => ?_⟩
      rw [hstorage hsnap k]
      by_cases hk : k = key
      · subst hk
        simp [← horigin]
      · simp [hk]
    set r' := writeSlot C B r ⟨key, zeros 32⟩ with hr'
    have hwrite : r' = ({ r.1 with
          originStorage := r.1.originStorage.insert key (zeros 32)
          trie := some emptyTrie
          dbErr := r.1.dbErr || (emptyTrie key).isNone },
        if B.snap.isSome then update r.2 (slotHash C key) (some []) else r.2) := by
      rw [hr', writeSlot, if_neg horigin, htrie, Option.getD_some, encodeSlot_zero]
      dsimp only
      rw [tryUpdate_empty]
    obtain ⟨origin, err, hobject, hstorage⟩ := ih hkeys.2 hzero r' (by rw [hwrite])
    refine ⟨origin, err, ?_, fun hsnap k => ?_⟩
    · rw [hobject, hwrite, ← htrie]
    rw [hstorage hsnap k, hwrite, if_pos hsnap]
    dsimp only
    by_cases hk : k = key
    · subst hk
      rw [if_neg (fun h => hkeys.1 h.1), update_self, if_pos]
      exact ⟨mem_cons_self, fun h => horigin h.symm⟩
    rw [lookup_insert_ne hk, update_of_ne (fun h => hk (hC h))]
    simp [hk]

/-- An object without code and slots. The writes that are left are deletions. -/
structure Cleared (C : Crypto) (a : Address) (balance : Int) (nonce : UInt64) (o : StateObject) : Prop where
  address : o.address = a
  balance : o.data.balance = balance
  nonce : o.data.nonce = nonce
  root : o.data.root = emptyRoot
  codeHash : o.data.codeHash = emptyCodeHash C
  code : o.code = some []
  trie : o.trie = none ∨ o.trie = some emptyTrie
  zero : ∀ k v, (o.dirtyStorage ∪ o.pendingStorage).lookup k = some v → v = zeros 32

variable {balance : Int} {nonce : UInt64}

section

variable (h : Cleared C a balance nonce o)
include h

theorem Cleared.data : o.data = ⟨nonce, balance, emptyRoot, emptyCodeHash C⟩ := by
  rw [← h.nonce, ← h.balance, ← h.root, ← h.codeHash]

theorem Cleared.finaliseObject : Cleared C a balance nonce (finaliseObject o) := by
  refine ⟨h.address, h.balance, h.nonce, h.root, h.codeHash, h.code, h.trie, fun k v hv => ?_⟩
  have hunion : (∅ ∪ (o.dirtyStorage ∪ o.pendingStorage) : Storage) = o.dirtyStorage ∪ o.pendingStorage :=
    empty_union
  exact h.zero k v (hunion ▸ hv)

theorem Cleared.hashRoot : Cleared C a balance nonce (hashRoot R o) := by
  rw [Commit.hashRoot]
  rcases h.trie with ht | ht
  · rw [ht]
    exact h
  rw [ht]
  exact ⟨h.address, h.balance, h.nonce, R.storage_empty, h.codeHash, h.code, .inr rfl, h.zero⟩

/-- A slot that a pending deletion will remove. -/
def Overwritten (o : StateObject) (k : Hash) : Prop :=
  k ∈ o.dirtyStorage ∪ o.pendingStorage ∧ (o.originStorage.lookup k).getD (zeros 32) ≠ zeros 32

theorem getTrie_cleared : (o.getTrie C B).1 = emptyTrie := by
  rw [StateObject.getTrie]
  rcases h.trie with ht | ht
  · rw [ht]
    rw [h.root, B.openEmpty]
  · rw [ht]

end

theorem updateTrie_cleared (hC : SlotsDistinct C) (h : Cleared C a balance nonce o)
    (storage : Hash → Option Bytes) :
    let r := updateTrieConcurrencySafe C B (finaliseObject o) storage
    Cleared C a balance nonce r.1 ∧ r.1.dirtyStorage = ∅ ∧ r.1.pendingStorage = ∅ ∧
      r.1.suicided = o.suicided ∧ r.1.deleted = o.deleted ∧
      (B.snap.isSome → ∀ k, (Overwritten o k → r.2 (slotHash C k) = some []) ∧
        (¬Overwritten o k → r.2 (slotHash C k) = storage (slotHash C k))) := by
  have hcleared := h.finaliseObject
  have hpending : (finaliseObject o).pendingStorage = o.dirtyStorage ∪ o.pendingStorage := rfl
  rw [updateTrieConcurrencySafe, hpending]
  by_cases hnone : (o.dirtyStorage ∪ o.pendingStorage).entries = []
  · have hempty : o.dirtyStorage ∪ o.pendingStorage = ∅ := ext hnone
    rw [if_pos hnone]
    refine ⟨hcleared, rfl, hempty, rfl, rfl, fun _ k => ⟨fun hk => ?_, fun _ => rfl⟩⟩
    rw [Overwritten, hempty] at hk
    exact (notMem_empty k hk.1).elim
  rw [if_neg hnone]
  obtain ⟨err, hopen⟩ := StateObject.getTrie_snd
  rw [getTrie_cleared hcleared] at hopen
  have hzero : ∀ slot ∈ (o.dirtyStorage ∪ o.pendingStorage).entries, slot.2 = zeros 32 := by
    intro slot hslot
    exact h.zero slot.1 slot.2 (AList.mem_lookup_iff.mpr hslot)
  obtain ⟨origin, err', hobject, hstorage⟩ := foldl_writeSlot hC
    (o.dirtyStorage ∪ o.pendingStorage).entries (o.dirtyStorage ∪ o.pendingStorage).keys_nodup hzero
    (((finaliseObject o).getTrie C B).2, storage) (by rw [hopen])
  rw [hopen] at hobject hstorage ⊢
  dsimp only at hobject hstorage ⊢
  rw [hobject]
  refine ⟨⟨h.address, h.balance, h.nonce, h.root, h.codeHash, h.code, .inr rfl, fun k v hv => ?_⟩,
    rfl, rfl, rfl, rfl, fun hsnap k => ⟨fun hk => ?_, fun hk => ?_⟩⟩
  · have hempty : (∅ ∪ ∅ : Storage) = ∅ := empty_union
    dsimp only [finaliseObject] at hv
    rw [hempty, lookup_empty] at hv
    cases hv
  · rw [hstorage hsnap k]
    exact if_pos hk
  rw [hstorage hsnap k]
  exact if_neg hk

end

section

/-- A step that leaves the account alone. -/
structure Spares (C : Crypto) (a : Address) (s s' : StateDB) : Prop where
  object : s'.stateObjects a = s.stateObjects a
  trie : s'.trie a = s.trie a
  destructs : s'.snapDestructs (addrHash C a) = s.snapDestructs (addrHash C a)
  accounts : s'.snapAccounts (addrHash C a) = s.snapAccounts (addrHash C a)
  storage : s'.snapStorage (addrHash C a) = s.snapStorage (addrHash C a)
  pending : a ∈ s'.stateObjectsPending ↔ a ∈ s.stateObjectsPending
  dirty : a ∈ s'.dirties ↔ a ∈ s.dirties

namespace Spares

variable {s₂ : StateDB}

theorem refl (s : StateDB) : Spares C a s s := ⟨rfl, rfl, rfl, rfl, rfl, .rfl, .rfl⟩

theorem trans (h : Spares C a s s') (h' : Spares C a s' s₂) : Spares C a s s₂ :=
  ⟨h'.object.trans h.object, h'.trie.trans h.trie, h'.destructs.trans h.destructs,
    h'.accounts.trans h.accounts, h'.storage.trans h.storage, h'.pending.trans h.pending,
    h'.dirty.trans h.dirty⟩

theorem setStateObject (s : StateDB) (h : a ≠ o.address) : Spares C a s (s.setStateObject o) :=
  ⟨update_of_ne h .., rfl, rfl, rfl, rfl, .rfl, .rfl⟩

section

variable (hC : AddressesDistinct C) (s : StateDB)
include hC

theorem markDeleted (h : a ≠ o.address) : Spares C a s (markDeleted C B s o) := by
  have hset : Spares C a s (s.setStateObject { o with deleted := true }) := setStateObject s h
  have hhash := hC.ne h
  rw [Commit.markDeleted]
  split
  · exact hset.trans ⟨rfl, rfl, update_of_ne hhash .., update_of_ne hhash ..,
      update_of_ne hhash .., .rfl, .rfl⟩
  · exact hset

theorem finaliseAddress (d : Bool) (h : a ≠ b) : Spares C a s (finaliseAddress C B d s b) := by
  rw [Commit.finaliseAddress]
  cases hobject : s.stateObjects b with
  | none => exact refl s
  | some obj =>
    have hne : a ≠ obj.address := by
      rw [s.keyed b obj hobject]
      exact h
    have hinsert : ∀ t : StateDB, Spares C a t { t with
        stateObjectsPending := t.stateObjectsPending.insert b
        stateObjectsDirty := t.stateObjectsDirty.insert b } := by
      intro t
      refine ⟨rfl, rfl, rfl, rfl, rfl, ?_, .rfl⟩
      simp [h]
    refine Spares.trans ?_ (hinsert _)
    split
    · exact markDeleted hC s hne
    · exact setStateObject s hne

theorem setSnapStorage (storage : Hash → Option Bytes) (h : a ≠ b) :
    Spares C a s (setSnapStorage C B s b storage) := by
  refine ⟨rfl, rfl, rfl, rfl, ?_, .rfl, .rfl⟩
  dsimp only [Commit.setSnapStorage]
  split
  · exact update_of_ne (hC.ne h) ..
  · rfl

theorem setSnapAccount (data : StateAccount) (h : a ≠ b) : Spares C a s (setSnapAccount C B s b data) := by
  refine ⟨rfl, rfl, rfl, ?_, rfl, .rfl, .rfl⟩
  dsimp only [Commit.setSnapAccount]
  split
  · exact update_of_ne (hC.ne h) ..
  · rfl

omit hC in
theorem writeAccount (acc : Option StateAccount) (h : a ≠ b) : Spares C a s (writeAccount s b acc) := by
  refine ⟨rfl, ?_, rfl, rfl, rfl, .rfl, .rfl⟩
  dsimp only [Commit.writeAccount, tryUpdate]
  split
  · exact update_of_ne h ..
  · rfl

end

end Spares

theorem address_writeSlot (slots : List ((_ : Hash) × Hash)) (r : StateObject × (Hash → Option Bytes)) :
    (slots.foldl (writeSlot C B) r).1.address = r.1.address := by
  induction slots generalizing r with
  | nil => rfl
  | cons slot slots ih =>
    rw [foldl_cons, ih, writeSlot]
    split
    · rfl
    · rfl

theorem address_updateTrie (o : StateObject) (storage : Hash → Option Bytes) :
    (updateTrieConcurrencySafe C B o storage).1.address = o.address := by
  rw [updateTrieConcurrencySafe]
  split
  · rfl
  obtain ⟨err, hopen⟩ := StateObject.getTrie_snd
  refine (address_writeSlot _ _).trans ?_
  rw [hopen]

theorem address_hashRoot (o : StateObject) : (hashRoot R o).address = o.address := by
  rw [hashRoot]
  cases o.trie with
  | none => rfl
  | some t => rfl

theorem spares_updateAddress (hC : AddressesDistinct C) (h : a ≠ b)
    (hs : updateAddress C B R s b = .ok s') : Spares C a s s' := by
  rw [updateAddress] at hs
  cases hobject : s.stateObjects b with
  | none =>
    rw [hobject] at hs
    cases hs
  | some obj =>
    rw [hobject] at hs
    dsimp only at hs
    split at hs
    · cases hs
      exact Spares.writeAccount s none h
    rw [updateStateObject] at hs
    have haddr := address_updateTrie (C := C) (B := B) (finaliseObject obj)
      (s.snapStorage (addrHash C obj.address))
    generalize updateTrieConcurrencySafe C B (finaliseObject obj)
      (s.snapStorage (addrHash C obj.address)) = r at hs haddr
    obtain ⟨o₁, storage⟩ := r
    have hne : a ≠ (hashRoot R o₁).address := by
      rw [address_hashRoot, haddr]
      refine fun heq => h (heq.trans ?_)
      exact s.keyed b obj hobject
    dsimp only at hs
    split at hs
    · cases hs
    cases hs
    refine (Spares.setStateObject s hne).trans ?_
    refine (Spares.setSnapStorage (B := B) hC _ storage hne).trans ?_
    exact (Spares.writeAccount _ _ hne).trans (Spares.setSnapAccount hC _ _ hne)

theorem spares_commitTrie (hC : AddressesDistinct C) {t}
    (h : a ≠ o.address) (hs : commitTrie C B R s o = .ok (s', t)) : Spares C a s s' := by
  rw [commitTrie] at hs
  have haddr := address_updateTrie (C := C) (B := B) (finaliseObject o)
    (s.snapStorage (addrHash C o.address))
  generalize updateTrieConcurrencySafe C B (finaliseObject o) (s.snapStorage (addrHash C o.address)) = r
    at hs haddr
  obtain ⟨o₁, storage⟩ := r
  have hne : a ≠ o₁.address := by
    rw [haddr]
    exact h
  have hset := (Spares.setStateObject s hne).trans (Spares.setSnapStorage (B := B) hC _ storage hne)
  dsimp only at hs
  cases htrie : o₁.trie with
  | none =>
    rw [htrie] at hs
    cases hs
    exact hset
  | some t =>
    rw [htrie] at hs
    dsimp only at hs
    split at hs
    · cases hs
    cases hs
    refine hset.trans (Spares.setStateObject _ ?_)
    rw [address_hashRoot]
    exact hne

end

section

instance decidableOverwritten (o : StateObject) (k : Hash) : Decidable (Overwritten o k) :=
  inferInstanceAs (Decidable (_ ∧ _))

/-- What the layer of the next root will hold for a slot. -/
def slotToCome (C : Crypto) (parent : Snapshot) (s : StateDB) (a : Address) (o : StateObject) (k : Hash) :
    Option Bytes :=
  if Overwritten o k then some []
  else (diffLayer s parent parent.root).storage (addrHash C a) (slotHash C k)

/-- What is known of an account while it is written back: its balance and its
nonce, whether it destructed itself and whether the account trie misses it, what
its slots will be in the next layer, and when it may be deleted. -/
structure Fate where
  balance : Int
  nonce : UInt64
  suicided : Bool
  missing : Prop
  slots : Hash → Option Bytes → Prop
  gone : Prop

variable (C B a) (F : Fate)

structure Live (s : StateDB) (o : StateObject) : Prop where
  object : s.stateObjects a = some o
  deleted : o.deleted = false
  cleared : Cleared C a F.balance F.nonce o
  suicided : o.suicided = F.suicided
  slots : ∀ parent, B.snap = some parent → ∀ k, F.slots k (slotToCome C parent s a o k)
  missing : s.trie a = none ↔ F.missing

structure Gone (s : StateDB) : Prop where
  object : ∃ o, s.stateObjects a = some o ∧ o.deleted = true
  allowed : F.gone
  missing : s.trie a = none ↔ F.missing
  marks : B.snap.isSome → s.snapDestructs (addrHash C a) = true ∧
    s.snapAccounts (addrHash C a) = none ∧ s.snapStorage (addrHash C a) = fun _ => none

structure Done (s : StateDB) (o : StateObject) : Prop where
  dirty : o.dirtyStorage = ∅
  pending : o.pendingStorage = ∅
  trie : s.trie a = some (some o.data) ∨ s.trie a = none
  account : B.snap.isSome → s.snapAccounts (addrHash C a) = some (slim C o.data)

def Removed (s : StateDB) : Prop := s.trie a = some none ∨ s.trie a = none

/-- The account was written, or waits for it. -/
def Queued (s : StateDB) : Prop :=
  (∃ o, Live C B a F s o ∧ F.suicided = false ∧ (a ∈ s.stateObjectsPending ∨ Done C B a s o)) ∨
    (Gone C B a F s ∧ (a ∈ s.stateObjectsPending ∨ Removed a s))

/-- The account was written, waits for it, or will. -/
def Staged (s : StateDB) : Prop :=
  Queued C B a F s ∨ (∃ o, Live C B a F s o ∧ a ∈ s.dirties)

def Settled (s : StateDB) : Prop :=
  (∃ o, Live C B a F s o ∧ F.suicided = false ∧ Done C B a s o) ∨ (Gone C B a F s ∧ Removed a s)

variable {C B a F}

def MayGo (F : Fate) (d : Bool) : Prop :=
  F.suicided = true ∨ (d = true ∧ F.balance = 0 ∧ F.nonce = 0) → F.gone

theorem Settled.queued (h : Settled C B a F s) : Queued C B a F s := by
  rcases h with ⟨o, hlive, hflag, hdone⟩ | ⟨hgone, hremoved⟩
  · exact .inl ⟨o, hlive, hflag, .inr hdone⟩
  · exact .inr ⟨hgone, .inr hremoved⟩

section

variable (h : Spares C a s s')
include h

theorem Live.spared (hl : Live C B a F s o) : Live C B a F s' o := by
  refine ⟨h.object.trans hl.object, hl.deleted, hl.cleared, hl.suicided, fun parent hsnap k => ?_, ?_⟩
  · have hslot : slotToCome C parent s' a o k = slotToCome C parent s a o k := by
      rw [slotToCome, slotToCome]
      dsimp only [diffLayer]
      rw [h.storage, h.destructs]
    rw [hslot]
    exact hl.slots parent hsnap k
  rw [h.trie]
  exact hl.missing

theorem Gone.spared (hg : Gone C B a F s) : Gone C B a F s' := by
  refine ⟨?_, hg.allowed, ?_, fun hsnap => ?_⟩
  · rw [h.object]
    exact hg.object
  · rw [h.trie]
    exact hg.missing
  rw [h.destructs, h.accounts, h.storage]
  exact hg.marks hsnap

theorem Done.spared (hd : Done C B a s o) : Done C B a s' o := by
  refine ⟨hd.dirty, hd.pending, ?_, fun hsnap => ?_⟩
  · rw [h.trie]
    exact hd.trie
  rw [h.accounts]
  exact hd.account hsnap

theorem Removed.spared (hr : Removed a s) : Removed a s' := by
  rw [Removed, h.trie]
  exact hr

theorem Queued.spared (hs : Queued C B a F s) : Queued C B a F s' := by
  rcases hs with ⟨o, hlive, hflag, hdue⟩ | ⟨hgone, hdue⟩
  · refine .inl ⟨o, hlive.spared h, hflag, ?_⟩
    rw [h.pending]
    exact hdue.imp_right (Done.spared h)
  refine .inr ⟨hgone.spared h, ?_⟩
  rw [h.pending]
  exact hdue.imp_right (Removed.spared h)

theorem Staged.spared (hs : Staged C B a F s) : Staged C B a F s' := by
  rcases hs with hqueued | ⟨o, hlive, hdirty⟩
  · exact .inl (hqueued.spared h)
  · exact .inr ⟨o, hlive.spared h, h.dirty.mpr hdirty⟩

theorem Settled.spared (hs : Settled C B a F s) : Settled C B a F s' := by
  rcases hs with ⟨o, hlive, hflag, hdone⟩ | ⟨hgone, hremoved⟩
  · exact .inl ⟨o, hlive.spared h, hflag, hdone.spared h⟩
  · exact .inr ⟨hgone.spared h, hremoved.spared h⟩

end

theorem overwritten_finaliseObject {k : Hash} : Overwritten (finaliseObject o) k ↔ Overwritten o k := by
  have hunion : (finaliseObject o).dirtyStorage ∪ (finaliseObject o).pendingStorage =
      o.dirtyStorage ∪ o.pendingStorage := empty_union
  rw [Overwritten, Overwritten, hunion]
  rfl

section

theorem gone_markDeleted (hallowed : F.gone) (hmissing : s.trie o.address = none ↔ F.missing) :
    Gone C B o.address F (markDeleted C B s o) := by
  have hset : (s.setStateObject { o with deleted := true }).stateObjects o.address =
      some { o with deleted := true } := update_self ..
  rw [markDeleted]
  split
  · exact ⟨⟨_, hset, rfl⟩, hallowed, hmissing, fun _ => ⟨update_self .., update_self ..,
      update_self ..⟩⟩
  rename_i hsnap
  exact ⟨⟨_, hset, rfl⟩, hallowed, hmissing, fun h => (hsnap h).elim⟩

theorem Live.finaliseAddress (hl : Live C B a F s o) {d : Bool} (hd : MayGo F d) :
    Queued C B a F (finaliseAddress C B d s a) := by
  have haddr := hl.cleared.address
  have hmem : a ∈ s.stateObjectsPending.insert a := mem_insert_self
  rw [Commit.finaliseAddress, hl.object]
  dsimp only
  by_cases hdelete : (o.suicided || (d && o.empty C)) = true
  · rw [if_pos hdelete]
    have hallowed : F.gone := by
      apply hd
      rw [Bool.or_eq_true, Bool.and_eq_true, hl.suicided] at hdelete
      refine hdelete.imp_right fun ⟨hdelete, hempty⟩ => ⟨hdelete, ?_⟩
      rw [StateObject.empty, decide_eq_true_eq] at hempty
      rw [← hl.cleared.balance, ← hl.cleared.nonce]
      exact ⟨hempty.2.1, hempty.1⟩
    have hgone : Gone C B a F (markDeleted C B s o) := by
      rw [← haddr]
      apply gone_markDeleted hallowed
      rw [haddr]
      exact hl.missing
    exact .inr ⟨⟨hgone.object, hgone.allowed, hgone.missing, hgone.marks⟩, .inl mem_insert_self⟩
  rw [if_neg hdelete]
  have hflag : F.suicided = false := by
    rw [Bool.or_eq_true, not_or, hl.suicided] at hdelete
    exact Bool.eq_false_iff.mpr hdelete.1
  refine .inl ⟨finaliseObject o, ⟨?_, hl.deleted, hl.cleared.finaliseObject, hl.suicided,
    fun parent hsnap k => ?_, hl.missing⟩, hflag, .inl hmem⟩
  · rw [← haddr]
    exact update_self ..
  have hslot : slotToCome C parent (s.setStateObject (finaliseObject o)) a (finaliseObject o) k =
      slotToCome C parent s a o k := by
    rw [slotToCome, slotToCome, if_congr overwritten_finaliseObject rfl rfl]
    rfl
  have hslots := hl.slots parent hsnap k
  rw [← hslot] at hslots
  exact hslots

theorem Gone.finaliseAddress (hg : Gone C B a F s) (d : Bool) :
    Queued C B a F (finaliseAddress C B d s a) := by
  obtain ⟨o, hobject, hdeleted⟩ := hg.object
  have haddr := s.keyed a o hobject
  rw [Commit.finaliseAddress, hobject]
  dsimp only
  right
  split
  · have hgone : Gone C B a F (markDeleted C B s o) := by
      rw [← haddr]
      apply gone_markDeleted hg.allowed
      rw [haddr]
      exact hg.missing
    exact ⟨⟨hgone.object, hgone.allowed, hgone.missing, hgone.marks⟩, .inl mem_insert_self⟩
  refine ⟨⟨⟨finaliseObject o, ?_, hdeleted⟩, hg.allowed, hg.missing, hg.marks⟩, .inl mem_insert_self⟩
  rw [← haddr]
  exact update_self ..

theorem Staged.finaliseAddress (h : Staged C B a F s) {d : Bool} (hd : MayGo F d) :
    Queued C B a F (finaliseAddress C B d s a) := by
  rcases h with (⟨o, hlive, _⟩ | ⟨hgone, _⟩) | ⟨o, hlive, _⟩
  · exact hlive.finaliseAddress hd
  · exact hgone.finaliseAddress d
  · exact hlive.finaliseAddress hd

variable (hC : AddressesDistinct C) {d : Bool} (hd : MayGo F d)
include hC hd

theorem Queued.foldl_finalise (h : Queued C B a F s) (l : List Address) :
    Queued C B a F (l.foldl (Commit.finaliseAddress C B d) s) := by
  induction l generalizing s with
  | nil => exact h
  | cons b l ih =>
    apply ih
    by_cases hb : a = b
    · rw [← hb]
      exact Staged.finaliseAddress (.inl h) hd
    · exact h.spared (Spares.finaliseAddress hC s d hb)

theorem Staged.foldl_finalise (h : Staged C B a F s) (l : List Address)
    (ha : a ∈ l) : Queued C B a F (l.foldl (Commit.finaliseAddress C B d) s) := by
  induction l generalizing s with
  | nil => cases ha
  | cons b l ih =>
    rw [foldl_cons]
    by_cases hb : a = b
    · rw [← hb]
      exact (h.finaliseAddress hd).foldl_finalise hC hd l
    · exact ih (h.spared (Spares.finaliseAddress hC s d hb)) (mem_of_ne_of_mem hb ha)

theorem Staged.finalise (h : Staged C B a F s) : Queued C B a F (finalise C B d s) := by
  have hqueued : Queued C B a F (s.dirties.keys.foldl (Commit.finaliseAddress C B d) s) := by
    rcases h with hqueued | ⟨o, hlive, hdirty⟩
    · exact hqueued.foldl_finalise hC hd _
    · exact Staged.foldl_finalise hC hd (.inr ⟨o, hlive, hdirty⟩) _ hdirty
  rw [Commit.finalise, clearJournalAndRefund]
  split
  · rcases hqueued with ⟨o, hlive, hflag, hdue⟩ | ⟨hgone, hdue⟩
    · exact .inl ⟨o, ⟨hlive.object, hlive.deleted, hlive.cleared, hlive.suicided, hlive.slots,
        hlive.missing⟩, hflag,
        hdue.imp_right fun hdone => ⟨hdone.dirty, hdone.pending, hdone.trie, hdone.account⟩⟩
    · exact .inr ⟨⟨hgone.object, hgone.allowed, hgone.missing, hgone.marks⟩, hdue⟩
  have hspares : ∀ t : StateDB, Spares C a t { t with revisions := t.revisions.take 0 } :=
    fun t => ⟨rfl, rfl, rfl, rfl, rfl, .rfl, .rfl⟩
  exact hqueued.spared (hspares _)

end

section

theorem tryUpdate_self {κ β : Type} [DecidableEq κ] (t : κ → Option β) (key : κ) (value : β) :
    (t key ≠ none ∧ tryUpdate t key value key = some value) ∨
      (t key = none ∧ tryUpdate t key value key = none) := by
  rw [tryUpdate]
  cases h : t key with
  | none => exact .inr ⟨rfl, by simp [h]⟩
  | some v => exact .inl ⟨by simp, by simp⟩

theorem tryUpdate_none {κ β : Type} [DecidableEq κ] (t : κ → Option β) (key : κ) (value : β) :
    tryUpdate t key value key = none ↔ t key = none := by
  rcases tryUpdate_self t key value with ⟨hknown, hwritten⟩ | ⟨hmissing, hnone⟩
  · simp [hknown, hwritten]
  · simp [hmissing, hnone]

/-- Once its trie is updated, what an account leaves in the storage map is what
was to come. -/
theorem updateTrie_come (hslots : SlotsDistinct C) (hcleared : Cleared C a F.balance F.nonce o)
    (hcome : ∀ parent, B.snap = some parent → ∀ k, F.slots k (slotToCome C parent s a o k)) :
    let r := updateTrieConcurrencySafe C B (finaliseObject o) (s.snapStorage (addrHash C a))
    Cleared C a F.balance F.nonce r.1 ∧ r.1.dirtyStorage = ∅ ∧ r.1.pendingStorage = ∅ ∧
      r.1.suicided = o.suicided ∧ r.1.deleted = o.deleted ∧
      ∀ s' : StateDB, s'.snapDestructs (addrHash C a) = s.snapDestructs (addrHash C a) →
        (B.snap.isSome → s'.snapStorage (addrHash C a) = r.2) →
        ∀ o' : StateObject, o'.dirtyStorage = ∅ → o'.pendingStorage = ∅ →
        ∀ parent, B.snap = some parent → ∀ k, F.slots k (slotToCome C parent s' a o' k) := by
  obtain ⟨hcleared', hdirty, hpending, hsuicided, hdeleted, hstorage⟩ :=
    updateTrie_cleared hslots hcleared (s.snapStorage (addrHash C a))
  refine ⟨hcleared', hdirty, hpending, hsuicided, hdeleted, ?_⟩
  intro s' hdestructs hmap o' hdirty' hpending' parent hsnap k
  have hsome : B.snap.isSome := by rw [hsnap]; rfl
  have hnot : ¬Overwritten o' k := by
    have hempty : (∅ ∪ ∅ : Storage) = ∅ := empty_union
    rw [Overwritten, hdirty', hpending', hempty]
    exact fun h => notMem_empty k h.1
  have hslot : slotToCome C parent s' a o' k = slotToCome C parent s a o k := by
    rw [slotToCome, slotToCome, if_neg hnot]
    dsimp only [diffLayer]
    rw [hmap hsome, hdestructs]
    by_cases hk : Overwritten o k
    · rw [(hstorage hsome k).1 hk, if_pos hk]
    · rw [(hstorage hsome k).2 hk, if_neg hk]
  rw [hslot]
  exact hcome parent hsnap k

theorem hashRoot_fields (o : StateObject) : (hashRoot R o).dirtyStorage = o.dirtyStorage ∧
    (hashRoot R o).pendingStorage = o.pendingStorage ∧ (hashRoot R o).suicided = o.suicided ∧
    (hashRoot R o).deleted = o.deleted := by
  rw [hashRoot]
  cases o.trie with
  | none => exact ⟨rfl, rfl, rfl, rfl⟩
  | some t => exact ⟨rfl, rfl, rfl, rfl⟩

theorem settled_write (o : StateObject) (storage : Hash → Option Bytes)
    (hcleared : Cleared C a F.balance F.nonce o) (hdeleted : o.deleted = false)
    (hsuicided : o.suicided = F.suicided) (hflag : F.suicided = false)
    (hdirty : o.dirtyStorage = ∅) (hpending : o.pendingStorage = ∅) (hmissing : s.trie a = none ↔ F.missing)
    (hcome : ∀ s' : StateDB, s'.snapDestructs (addrHash C a) = s.snapDestructs (addrHash C a) →
      (B.snap.isSome → s'.snapStorage (addrHash C a) = storage) →
      ∀ parent, B.snap = some parent → ∀ k, F.slots k (slotToCome C parent s' a o k)) :
    Settled C B a F (setSnapAccount C B (writeAccount
      (setSnapStorage C B (s.setStateObject o) a storage) a (some o.data)) a o.data) := by
  refine .inl ⟨o, ⟨?_, hdeleted, hcleared, hsuicided, hcome _ rfl fun hsnap => ?_, ?_⟩, hflag,
    hdirty, hpending, ?_, fun hsnap => ?_⟩
  · rw [← hcleared.address]
    exact update_self ..
  · have hif : ∀ m : Hash → Hash → Option Bytes, (if B.snap.isSome then
        update m (addrHash C a) storage else m) (addrHash C a) = storage := by
      intro m
      rw [if_pos hsnap, update_self]
    exact hif _
  · exact (tryUpdate_none s.trie a (some o.data)).trans hmissing
  · rcases tryUpdate_self s.trie a (some o.data) with ⟨_, hwritten⟩ | ⟨_, hnone⟩
    · exact .inl hwritten
    · exact .inr hnone
  have hif : ∀ m : Hash → Option SlimAccount, (if B.snap.isSome then
      update m (addrHash C a) (some (slim C o.data)) else m) (addrHash C a) = some (slim C o.data) := by
    intro m
    rw [if_pos hsnap, update_self]
  exact hif _

theorem Live.updateAddress (hslots : SlotsDistinct C) (hl : Live C B a F s o)
    (hflag : F.suicided = false) (hs : updateAddress C B R s a = .ok s') : Settled C B a F s' := by
  obtain ⟨hcleared, hdirty, hpending, hsuicided, hdeleted, hcome⟩ :=
    updateTrie_come hslots hl.cleared hl.slots
  rw [hl.suicided] at hsuicided
  rw [hl.deleted] at hdeleted
  rw [Commit.updateAddress, hl.object] at hs
  dsimp only at hs
  rw [hl.deleted, if_neg Bool.false_ne_true, updateStateObject, hl.cleared.address] at hs
  generalize updateTrieConcurrencySafe C B (finaliseObject o) (s.snapStorage (addrHash C a)) = r
    at hs hcleared hdirty hpending hsuicided hdeleted hcome
  obtain ⟨o₁, storage⟩ := r
  dsimp only at hs hcleared hdirty hpending hsuicided hdeleted hcome
  obtain ⟨hdirty₂, hpending₂, hsuicided₂, hdeleted₂⟩ := hashRoot_fields o₁
  have hcleared₂ := hcleared.hashRoot (R := R)
  generalize hashRoot R o₁ = o₂ at hs hdirty₂ hpending₂ hsuicided₂ hdeleted₂ hcleared₂
  rw [hcleared₂.address] at hs
  split at hs
  · cases hs
  cases hs
  exact settled_write o₂ storage hcleared₂ (hdeleted₂.trans hdeleted) (hsuicided₂.trans hsuicided) hflag
    (hdirty₂.trans hdirty) (hpending₂.trans hpending) hl.missing fun s' hdestructs hmap =>
      hcome s' hdestructs hmap o₂ (hdirty₂.trans hdirty) (hpending₂.trans hpending)

theorem Gone.updateAddress (hg : Gone C B a F s) (hs : updateAddress C B R s a = .ok s') :
    Settled C B a F s' := by
  obtain ⟨o, hobject, hdeleted⟩ := hg.object
  rw [Commit.updateAddress, hobject] at hs
  dsimp only at hs
  rw [if_pos hdeleted] at hs
  cases hs
  refine .inr ⟨⟨⟨o, hobject, hdeleted⟩, hg.allowed, ?_, hg.marks⟩, ?_⟩
  · exact (tryUpdate_none s.trie a none).trans hg.missing
  rcases tryUpdate_self s.trie a none with ⟨_, hwritten⟩ | ⟨_, hnone⟩
  · exact .inl hwritten
  · exact .inr hnone

theorem Queued.updateAddress (hslots : SlotsDistinct C) (h : Queued C B a F s)
    (hs : updateAddress C B R s a = .ok s') : Settled C B a F s' := by
  rcases h with ⟨o, hlive, hflag, _⟩ | ⟨hgone, _⟩
  · exact hlive.updateAddress hslots hflag hs
  · exact hgone.updateAddress hs

variable (hC : AddressesDistinct C) (hslots : SlotsDistinct C)
include hC hslots

theorem Settled.foldlM_update (h : Settled C B a F s) (l : List Address)
    (hs : l.foldlM (Commit.updateAddress C B R) s = .ok s') : Settled C B a F s' := by
  induction l generalizing s with
  | nil =>
    cases hs
    exact h
  | cons b l ih =>
    obtain ⟨s₁, hs₁, hs⟩ := bind_eq_ok.mp hs
    refine ih ?_ hs
    by_cases hb : a = b
    · rw [← hb] at hs₁
      exact h.queued.updateAddress hslots hs₁
    · exact h.spared (spares_updateAddress hC hb hs₁)

theorem Queued.foldlM_update (h : Queued C B a F s) (l : List Address)
    (hl : a ∈ s.stateObjectsPending → a ∈ l)
    (hs : l.foldlM (Commit.updateAddress C B R) s = .ok s') : Settled C B a F s' := by
  induction l generalizing s with
  | nil =>
    cases hs
    rcases h with ⟨o, hlive, hflag, hdue⟩ | ⟨hgone, hdue⟩
    · exact .inl ⟨o, hlive, hflag, hdue.resolve_left fun ha => by cases hl ha⟩
    · exact .inr ⟨hgone, hdue.resolve_left fun ha => by cases hl ha⟩
  | cons b l ih =>
    obtain ⟨s₁, hs₁, hs⟩ := bind_eq_ok.mp hs
    by_cases hb : a = b
    · rw [← hb] at hs₁
      exact (h.updateAddress hslots hs₁).foldlM_update hC hslots l hs
    have hspares := spares_updateAddress hC hb hs₁
    refine ih (h.spared hspares) (fun ha => ?_) hs
    exact mem_of_ne_of_mem hb (hl (hspares.pending.mp ha))

theorem Staged.intermediateRoot {d : Bool} {root : Hash} (hd : MayGo F d) (h : Staged C B a F s)
    (hs : intermediateRoot C B R d s = .ok (root, s')) : Settled C B a F s' := by
  obtain ⟨s₁, hs₁, hs⟩ := bind_eq_ok.mp hs
  cases hs
  rcases (h.finalise hC hd).foldlM_update hC hslots _ (fun ha => ha) hs₁ with
    ⟨o, hlive, hflag, hdone⟩ | ⟨hgone, hremoved⟩
  · exact .inl ⟨o, ⟨hlive.object, hlive.deleted, hlive.cleared, hlive.suicided, hlive.slots,
      hlive.missing⟩, hflag, hdone.dirty, hdone.pending, hdone.trie, hdone.account⟩
  · exact .inr ⟨⟨hgone.object, hgone.allowed, hgone.missing, hgone.marks⟩, hremoved⟩

end

section

variable {o' : StateObject} {p p' : Progress}

theorem settled_keep (hl : Live C B a F s o) (hd : Done C B a s o)
    (storage : Hash → Option Bytes) (hcleared : Cleared C a F.balance F.nonce o')
    (hdeleted : o'.deleted = false) (hsuicided : o'.suicided = o.suicided) (hflag : F.suicided = false)
    (hdirty : o'.dirtyStorage = ∅) (hpending : o'.pendingStorage = ∅)
    (hcome : ∀ s' : StateDB, s'.snapDestructs (addrHash C a) = s.snapDestructs (addrHash C a) →
      (B.snap.isSome → s'.snapStorage (addrHash C a) = storage) →
      ∀ parent, B.snap = some parent → ∀ k, F.slots k (slotToCome C parent s' a o' k))
    (hobject : s'.stateObjects a = some o') (htrie : s'.trie = s.trie)
    (hdestructs : s'.snapDestructs = s.snapDestructs) (haccounts : s'.snapAccounts = s.snapAccounts)
    (hstorage : B.snap.isSome → s'.snapStorage (addrHash C a) = storage) : Settled C B a F s' := by
  have hdata : o'.data = o.data := hcleared.data.trans hl.cleared.data.symm
  refine .inl ⟨o', ⟨hobject, hdeleted, hcleared, hsuicided.trans hl.suicided,
    hcome s' (by rw [hdestructs]) hstorage, ?_⟩, hflag, hdirty, hpending, ?_, fun hsnap => ?_⟩
  · rw [htrie]
    exact hl.missing
  · rw [hdata, htrie]
    exact hd.trie
  rw [hdata, haccounts]
  exact hd.account hsnap

theorem setSnapStorage_self (s : StateDB) (a : Address) (storage : Hash → Option Bytes)
    (hsnap : B.snap.isSome) : (setSnapStorage C B s a storage).snapStorage (addrHash C a) = storage := by
  dsimp only [setSnapStorage]
  rw [if_pos hsnap, update_self]

theorem Settled.commitTrie (hslots : SlotsDistinct C) {flag : Bool}
    {t} (hl : Live C B a F s o) (hσ : F.suicided = false)
    (hd : Done C B a s o)
    (ho' : o' = { o with dirtyCode := flag }) (hs : commitTrie C B R s o' = .ok (s', t)) :
    Settled C B a F s' := by
  have hc := hl.cleared
  have hflag : Cleared C a F.balance F.nonce o' := by
    rw [ho']
    exact ⟨hc.address, hc.balance, hc.nonce, hc.root, hc.codeHash, hc.code, hc.trie, hc.zero⟩
  have hcode : ∀ parent, B.snap = some parent → ∀ k, F.slots k (slotToCome C parent s a o' k) := by
    rw [ho']
    exact hl.slots
  have hflags : o'.suicided = o.suicided ∧ o'.deleted = false := by
    rw [ho']
    exact ⟨rfl, hl.deleted⟩
  obtain ⟨hcleared, hdirty, hpending, hsuicided, hdeleted, hcome⟩ := updateTrie_come hslots hflag hcode
  rw [hflags.1] at hsuicided
  rw [hflags.2] at hdeleted
  rw [Commit.commitTrie, hflag.address] at hs
  generalize updateTrieConcurrencySafe C B (finaliseObject o') (s.snapStorage (addrHash C a)) = r
    at hs hcleared hdirty hpending hsuicided hdeleted hcome
  obtain ⟨o₁, storage⟩ := r
  dsimp only at hs hcleared hdirty hpending hsuicided hdeleted hcome
  have hset : ∀ (s : StateDB) (o : StateObject), o.address = a →
      (s.setStateObject o).stateObjects a = some o := by
    intro s o ho
    rw [← ho]
    exact update_self ..
  have haddr := hcleared.address
  rw [haddr] at hs
  cases htrie : o₁.trie with
  | none =>
    rw [htrie] at hs
    cases hs
    exact settled_keep hl hd storage hcleared hdeleted hsuicided hσ hdirty hpending
      (fun s' hdestructs hmap => hcome s' hdestructs hmap o₁ hdirty hpending) (hset s o₁ haddr) rfl rfl rfl
      (setSnapStorage_self _ a storage)
  | some t =>
    rw [htrie] at hs
    dsimp only at hs
    split at hs
    · cases hs
    cases hs
    obtain ⟨hdirty₂, hpending₂, hsuicided₂, hdeleted₂⟩ := hashRoot_fields o₁
    have hcleared₂ := hcleared.hashRoot (R := R)
    refine settled_keep hl hd storage hcleared₂ (hdeleted₂.trans hdeleted)
      (hsuicided₂.trans hsuicided) hσ (hdirty₂.trans hdirty) (hpending₂.trans hpending)
      (fun s' hdestructs hmap => hcome s' hdestructs hmap _ (hdirty₂.trans hdirty)
        (hpending₂.trans hpending)) (hset _ _ hcleared₂.address) rfl rfl rfl
      (setSnapStorage_self (s.setStateObject o₁) a storage)

section

variable (hC : AddressesDistinct C) (hslots : SlotsDistinct C)
include hC hslots

theorem Settled.commitAddress (h : Settled C B a F p.state) (hp : commitAddress C B R p b = .ok p') :
    Settled C B a F p'.state := by
  rw [Commit.commitAddress] at hp
  cases hobject : p.state.stateObjects b with
  | none =>
    rw [hobject] at hp
    cases hp
  | some obj =>
    rw [hobject] at hp
    dsimp only at hp
    split at hp
    · cases hp
      exact h
    rename_i hlives
    obtain ⟨⟨s₁, t⟩, hs₁, hp⟩ := bind_eq_ok.mp hp
    cases hp
    by_cases hb : a = b
    · subst hb
      rcases h with ⟨o, hl, hflag, hd⟩ | ⟨hgone, _⟩
      · cases hobject.symm.trans hl.object
        exact Settled.commitTrie hslots hl hflag hd rfl hs₁
      obtain ⟨o, hgone, hdeleted⟩ := hgone.object
      cases hobject.symm.trans hgone
      exact (hlives hdeleted).elim
    refine h.spared (spares_commitTrie hC (fun heq => hb (heq.trans ?_)) hs₁)
    exact p.state.keyed b obj hobject

theorem Settled.foldlM_commit (h : Settled C B a F p.state) (l : List Address)
    (hp : l.foldlM (Commit.commitAddress C B R) p = .ok p') : Settled C B a F p'.state := by
  induction l generalizing p with
  | nil =>
    cases hp
    exact h
  | cons b l ih =>
    obtain ⟨p₁, hp₁, hp⟩ := bind_eq_ok.mp hp
    exact ih (h.commitAddress hC hslots hp₁) hp

theorem Staged.commit {d : Bool} {r}
    (hd : MayGo F d) (h : Staged C B a F s) (hr : commit C B R d s = .ok r) :
    ∃ t : StateDB, Settled C B a F t ∧ r.accounts = t.trie ∧
      r.root = R.accounts t.trie ∧ r.layer = layerOf B t r.root := by
  rw [Commit.commit] at hr
  split at hr
  · cases hr
  obtain ⟨⟨root, s₁⟩, hs₁, hr⟩ := bind_eq_ok.mp hr
  obtain ⟨p, hp, hr⟩ := bind_eq_ok.mp hr
  cases hr
  have hsettled := h.intermediateRoot hC hslots hd (mapError_eq_ok.mp hs₁)
  exact ⟨p.state, hsettled.foldlM_commit hC hslots _ hp, rfl, rfl, rfl⟩

end

end

end

end Geth.State.Writeback
