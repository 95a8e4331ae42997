import Geth.State.Journal

namespace Geth.State.Revert

open Lib.BigEndian Lib.UndoLog Common.Basic Types.Receipts Access Account Journal Function Option
open StateObject (Alike)

variable {C : Crypto} {B : Backend} {s s' s₂ : StateDB} {a a' : Address} {o o' : StateObject}

section

/-- The object of an address, which may be deleted. -/
def lookup (C : Crypto) (B : Backend) (s : StateDB) (a : Address) : Option StateObject :=
  (s.stateObjects a).or ((s.readAccount C B a).1.map (newObject a))

theorem getDeletedStateObject_fst : (s.getDeletedStateObject C B a).1 = lookup C B s a := by
  rw [lookup, StateDB.getDeletedStateObject]
  cases s.stateObjects a with
  | some object => rfl
  | none =>
    rcases s.readAccount C B a with ⟨data, err⟩
    cases data with
    | some data => rfl
    | none => rfl

theorem lookup_congr (hobjects : s'.stateObjects a = s.stateObjects a) (htrie : s'.trie = s.trie) :
    lookup C B s' a = lookup C B s a := by
  rw [lookup, lookup, hobjects, StateDB.readAccount, StateDB.readAccount, htrie]

theorem lookup_address (h : lookup C B s a = some o) : o.address = a := by
  rw [lookup] at h
  cases hobj : s.stateObjects a with
  | some object =>
    rw [hobj, some_or] at h
    cases h
    exact s.keyed a _ hobj
  | none =>
    rw [hobj, none_or, map_eq_some_iff] at h
    obtain ⟨data, _, rfl⟩ := h
    rfl

theorem lookup_set_self : lookup C B (s.setStateObject o) o.address = some o := by
  have hobj : (s.setStateObject o).stateObjects o.address = some o := update_self ..
  rw [lookup, hobj, some_or]

theorem lookup_remove_self : lookup C B (s.removeStateObject a) a =
    (s.readAccount C B a).1.map (newObject a) := by
  have hobj : (s.removeStateObject a).stateObjects a = none := update_self ..
  rw [lookup, hobj, none_or]
  rfl

theorem lookup_remove_of_ne (h : a' ≠ a) : lookup C B (s.removeStateObject a) a' = lookup C B s a' := by
  apply lookup_congr
  · exact update_of_ne h ..
  · rfl

theorem lookup_set_of_ne (h : a ≠ o.address) : lookup C B (s.setStateObject o) a = lookup C B s a := by
  apply lookup_congr
  · exact update_of_ne h ..
  · rfl

end

section

variable {destructed : Bool} {x y z : Option StateObject}

theorem rel_refl (x : Option StateObject) : Option.Rel (Alike C B destructed) x x := by
  cases x with
  | none => exact .none
  | some o => exact .some (.refl o)

theorem rel_symm (h : Option.Rel (Alike C B destructed) x y) : Option.Rel (Alike C B destructed) y x := by
  cases h with
  | none => exact .none
  | some halike => exact .some halike.symm

theorem rel_trans (h : Option.Rel (Alike C B destructed) x y)
    (h' : Option.Rel (Alike C B destructed) y z) : Option.Rel (Alike C B destructed) x z := by
  cases h with
  | none =>
    cases h'
    exact .none
  | some halike =>
    cases h' with
    | some halike' => exact .some (halike.trans halike')

end

/-- Two states that no getter tells apart. -/
structure Same (C : Crypto) (B : Backend) (s s' : StateDB) : Prop where
  objects : ∀ a, Option.Rel (Alike C B (s.isDestructed C a)) (lookup C B s a) (lookup C B s' a)
  trie : s.trie = s'.trie
  destructs : s.snapDestructs = s'.snapDestructs
  refund : s.refund = s'.refund
  logs : s.logs = s'.logs
  logSize : s.logSize = s'.logSize
  preimages : s.preimages = s'.preimages
  accessList : s.accessList = s'.accessList

namespace Same

theorem isDestructed (h : Same C B s s') (a : Address) : s.isDestructed C a = s'.isDestructed C a := by
  rw [StateDB.isDestructed, StateDB.isDestructed, h.destructs]

theorem refl (s : StateDB) : Same C B s s := by
  exact ⟨fun a => rel_refl _, rfl, rfl, rfl, rfl, rfl, rfl, rfl⟩

theorem symm (h : Same C B s s') : Same C B s' s := by
  refine ⟨fun a => ?_, h.trie.symm, h.destructs.symm, h.refund.symm, h.logs.symm, h.logSize.symm,
    h.preimages.symm, h.accessList.symm⟩
  rw [← h.isDestructed]
  exact rel_symm (h.objects a)

theorem trans (h : Same C B s s') (h' : Same C B s' s₂) : Same C B s s₂ := by
  refine ⟨fun a => ?_, h.trie.trans h'.trie, h.destructs.trans h'.destructs,
    h.refund.trans h'.refund, h.logs.trans h'.logs, h.logSize.trans h'.logSize,
    h.preimages.trans h'.preimages, h.accessList.trans h'.accessList⟩
  have hrel := h'.objects a
  rw [← h.isDestructed] at hrel
  exact rel_trans (h.objects a) hrel

theorem of_lookup (hlookup : ∀ a, lookup C B s a = lookup C B s' a)
    (htrie : s.trie = s'.trie) (hdestructs : s.snapDestructs = s'.snapDestructs)
    (hrefund : s.refund = s'.refund) (hlogs : s.logs = s'.logs) (hlogSize : s.logSize = s'.logSize)
    (hpreimages : s.preimages = s'.preimages) (haccessList : s.accessList = s'.accessList) :
    Same C B s s' := by
  refine ⟨fun a => ?_, htrie, hdestructs, hrefund, hlogs, hlogSize, hpreimages, haccessList⟩
  rw [hlookup a]
  exact rel_refl _

theorem of_objects (hobjects : ∀ a', a' ≠ a → lookup C B s a' = lookup C B s' a')
    (hobject : Option.Rel (Alike C B (s.isDestructed C a)) (lookup C B s a) (lookup C B s' a))
    (htrie : s.trie = s'.trie) (hdestructs : s.snapDestructs = s'.snapDestructs)
    (hrefund : s.refund = s'.refund) (hlogs : s.logs = s'.logs) (hlogSize : s.logSize = s'.logSize)
    (hpreimages : s.preimages = s'.preimages) (haccessList : s.accessList = s'.accessList) :
    Same C B s s' := by
  refine ⟨fun a' => ?_, htrie, hdestructs, hrefund, hlogs, hlogSize, hpreimages, haccessList⟩
  by_cases ha : a' = a
  · rw [ha]
    exact hobject
  rw [hobjects a' ha]
  exact rel_refl _

theorem set (h : lookup C B s a = some o) (halike : Alike C B (s.isDestructed C a) o' o) :
    Same C B (s.setStateObject o') s := by
  have haddr : o'.address = a := halike.address.trans (lookup_address h)
  refine of_objects (a := a) (fun a' ha' => ?_) ?_ rfl rfl rfl rfl rfl rfl rfl
  · exact lookup_set_of_ne (by rw [haddr]; exact ha')
  rw [h, ← haddr, lookup_set_self]
  rw [← haddr] at halike
  exact .some halike

end Same

section

theorem lookup_getDeleted : lookup C B (s.getDeletedStateObject C B a).2 a' = lookup C B s a' := by
  rw [StateDB.getDeletedStateObject]
  cases hobj : s.stateObjects a with
  | some object => rfl
  | none =>
    rcases hread : s.readAccount C B a with ⟨data, err⟩
    cases data with
    | none => exact lookup_congr rfl rfl
    | some data =>
      by_cases ha : a' = a
      · subst ha
        have hself := lookup_set_self (C := C) (B := B) (s := s) (o := newObject a' data)
        refine hself.trans ?_
        rw [lookup, hobj, hread]
        rfl
      · exact lookup_set_of_ne ha

theorem same_getDeleted (s : StateDB) (a : Address) : Same C B (s.getDeletedStateObject C B a).2 s := by
  have hlookup : ∀ a', lookup C B (s.getDeletedStateObject C B a).2 a' = lookup C B s a' :=
    fun a' => lookup_getDeleted
  rw [StateDB.getDeletedStateObject] at hlookup ⊢
  cases hobj : s.stateObjects a with
  | some object => exact Same.refl s
  | none =>
    rw [hobj] at hlookup
    rcases hread : s.readAccount C B a with ⟨data, err⟩
    rw [hread] at hlookup
    cases data with
    | none => exact Same.of_lookup hlookup rfl rfl rfl rfl rfl rfl rfl
    | some data => exact Same.of_lookup hlookup rfl rfl rfl rfl rfl rfl rfl

theorem getStateObject_eq : s.getStateObject C B a =
    ((lookup C B s a).filter (!·.deleted), (s.getDeletedStateObject C B a).2) := by
  rw [← getDeletedStateObject_fst]
  rfl

theorem live_of_lookup (hl : lookup C B s a = some o) (hd : o.deleted = false) :
    (s.getStateObject C B a).1 = some o := by
  rw [getStateObject_eq]
  exact filter_eq_some_iff.mpr ⟨hl, by rw [hd]; rfl⟩

theorem Same.getDeleted (h : Same C B s s') (a : Address) :
    Same C B (s.getDeletedStateObject C B a).2 (s'.getDeletedStateObject C B a).2 :=
  (same_getDeleted s a).trans (h.trans (same_getDeleted s' a).symm)

theorem Same.live (h : Same C B s s') (hl : (lookup C B s a).filter (!·.deleted) = some o) :
    ∃ o', (lookup C B s' a).filter (!·.deleted) = some o' ∧ Alike C B (s.isDestructed C a) o o' := by
  rw [filter_eq_some_iff] at hl
  have hrel := h.objects a
  rw [hl.1] at hrel
  cases hl' : lookup C B s' a with
  | none =>
    rw [hl'] at hrel
    cases hrel
  | some o' =>
    rw [hl'] at hrel
    cases hrel with
    | some halike =>
      refine ⟨o', filter_eq_some_iff.mpr ⟨rfl, ?_⟩, halike⟩
      rw [← halike.deleted]
      exact hl.2

end

section

theorem Same.set_both (h : Same C B s s') (halike : Alike C B (s.isDestructed C o.address) o o') :
    Same C B (s.setStateObject o) (s'.setStateObject o') := by
  refine ⟨fun a => ?_, h.trie, h.destructs, h.refund, h.logs, h.logSize, h.preimages, h.accessList⟩
  by_cases ha : a = o.address
  · rw [ha, lookup_set_self, halike.address, lookup_set_self, ← halike.address]
    exact .some halike
  rw [lookup_set_of_ne ha, lookup_set_of_ne (by rw [← halike.address]; exact ha)]
  exact h.objects a

theorem Same.set_loaded (h : Same C B s s') (ha : o.address = a)
    (halike : Alike C B (s.isDestructed C a) o o') :
    Same C B ((s.getDeletedStateObject C B a).2.setStateObject o)
      ((s'.getDeletedStateObject C B a).2.setStateObject o') := by
  apply (h.getDeleted a).set_both
  rw [ha, (same_getDeleted s a).isDestructed a]
  exact halike

variable {t : StateDB} {f : StateObject → StateObject} {e : JournalEntry}

theorem modifyObject_ok :
    s.modifyObject C B a f = .ok t ↔ ∃ o, (lookup C B s a).filter (!·.deleted) = some o ∧
      t = (s.getDeletedStateObject C B a).2.setStateObject (f o) := by
  rw [StateDB.modifyObject, getStateObject_eq]
  cases (lookup C B s a).filter (!·.deleted) with
  | none => simp
  | some o => simp [eq_comm]

theorem modifyObject_congr (haddress : ∀ o, (f o).address = o.address)
    (hf : ∀ destructed o o', Alike C B destructed o o' → Alike C B destructed (f o) (f o'))
    (h : Same C B s s') (ht : s.modifyObject C B a f = .ok t) :
    ∃ t', s'.modifyObject C B a f = .ok t' ∧ Same C B t t' := by
  obtain ⟨o, hl, rfl⟩ := modifyObject_ok.mp ht
  obtain ⟨o', hl', halike⟩ := h.live hl
  refine ⟨_, modifyObject_ok.mpr ⟨o', hl', rfl⟩, h.set_loaded ?_ (hf _ _ _ halike)⟩
  exact (haddress o).trans (lookup_address (filter_eq_some_iff.mp hl).1)

/-- The entries of the operations in question. -/
def Journaled : JournalEntry → Prop
  | .erase _ _ _ _ => False
  | _ => True

def AddressesDistinct (C : Crypto) : Prop := Function.Injective (addrHash C)

theorem revertEntry_congr (hC : AddressesDistinct C)
    (he : Journaled e) (h : Same C B s s') (ht : StateDB.revertEntry C B e s = .ok t) :
    ∃ t', StateDB.revertEntry C B e s' = .ok t' ∧ Same C B t t' := by
  cases e with
  | createObject account =>
    cases ht
    refine ⟨_, rfl, fun a => ?_, h.trie, h.destructs, h.refund, h.logs, h.logSize, h.preimages,
      h.accessList⟩
    -- without the object, the account is read again
    have hrel : Option.Rel (Alike C B (s.isDestructed C a)) (lookup C B (s.removeStateObject account) a)
        (lookup C B (s'.removeStateObject account) a) := by
      by_cases ha : a = account
      · subst ha
        rw [lookup_remove_self, lookup_remove_self, StateDB.readAccount, StateDB.readAccount, h.trie]
        exact rel_refl _
      rw [lookup_remove_of_ne ha, lookup_remove_of_ne ha]
      exact h.objects a
    exact hrel
  | resetObject prev prevdestruct =>
    cases ht
    refine ⟨_, rfl, fun a => ?_, h.trie, ?_, h.refund, h.logs, h.logSize, h.preimages, h.accessList⟩
    · by_cases ha : a = prev.address
      · subst ha
        have hself : ∀ s : StateDB, lookup C B (s.setStateObject prev) prev.address = some prev :=
          fun s => lookup_set_self
        have hrel : ∀ destructed, Option.Rel (Alike C B destructed)
            (lookup C B (s.setStateObject prev) prev.address)
            (lookup C B (s'.setStateObject prev) prev.address) := by
          intro destructed
          rw [hself, hself]
          exact rel_refl _
        exact hrel _
      -- the mark of another address is not touched
      have hrel := h.objects a
      rw [← lookup_set_of_ne ha, ← lookup_set_of_ne (s := s') ha] at hrel
      have hmark : (if (!prevdestruct && B.snap.isSome) = true then
          update s.snapDestructs (addrHash C prev.address) false else s.snapDestructs)
            (addrHash C a) = s.isDestructed C a := by
        split
        · exact update_of_ne (fun heq => ha (hC heq)) ..
        · rfl
      rw [← hmark] at hrel
      exact hrel
    dsimp only [StateDB.setStateObject]
    rw [h.destructs]
  | suicide account prev prevbalance =>
    rw [StateDB.revertEntry, getStateObject_eq] at ht ⊢
    cases hl : (lookup C B s account).filter (!·.deleted) with
    | some o =>
      rw [hl] at ht
      cases ht
      obtain ⟨o', hl', halike⟩ := h.live hl
      rw [hl']
      have haddr : o.address = account := lookup_address (filter_eq_some_iff.mp hl).1
      exact ⟨_, rfl, h.set_loaded haddr ((halike.setSuicided prev).setBalance prevbalance)⟩
    | none =>
      rw [hl] at ht
      cases ht
      cases hl' : (lookup C B s' account).filter (!·.deleted) with
      | none => exact ⟨_, rfl, h.getDeleted account⟩
      | some o' =>
        obtain ⟨o, ho, _⟩ := h.symm.live hl'
        rw [hl] at ho
        cases ho
  | balance account prev =>
    exact modifyObject_congr (fun _ => rfl) (fun _ _ _ halike => halike.setBalance prev) h ht
  | nonce account prev =>
    exact modifyObject_congr (fun _ => rfl) (fun _ _ _ halike => halike.setNonce prev) h ht
  | storage account key prevalue =>
    exact modifyObject_congr (fun _ => rfl) (fun _ _ _ halike => halike.setState key prevalue) h ht
  | code account prevcode prevhash =>
    exact modifyObject_congr (fun _ => rfl) (fun _ _ _ halike => halike.setCode prevhash prevcode) h ht
  | refund prev =>
    cases ht
    exact ⟨_, rfl, h.objects, h.trie, h.destructs, rfl, h.logs, h.logSize, h.preimages, h.accessList⟩
  | addLog txhash =>
    rw [StateDB.revertEntry] at ht ⊢
    rw [← h.logs, ← h.logSize]
    split at ht
    · cases ht
    rename_i hlen
    cases ht
    rw [if_neg hlen]
    exact ⟨_, rfl, h.objects, h.trie, h.destructs, h.refund, rfl, rfl, h.preimages, h.accessList⟩
  | addPreimage hash =>
    cases ht
    refine ⟨_, rfl, h.objects, h.trie, h.destructs, h.refund, h.logs, h.logSize, ?_, h.accessList⟩
    rw [h.preimages]
  | touch account =>
    cases ht
    exact ⟨_, rfl, h⟩
  | accessListAddAccount address =>
    cases ht
    refine ⟨_, rfl, h.objects, h.trie, h.destructs, h.refund, h.logs, h.logSize, h.preimages, ?_⟩
    rw [h.accessList]
  | accessListAddSlot address slot =>
    obtain ⟨al, hal, ht⟩ := bind_eq_ok.mp ht
    cases ht
    rw [h.accessList] at hal
    refine ⟨_, bind_eq_ok.mpr ⟨al, hal, rfl⟩, h.objects, h.trie, h.destructs, h.refund, h.logs, h.logSize,
      h.preimages, rfl⟩
  | erase account prevcode prevhash prevroot => exact he.elim

theorem same_dirties (s : StateDB) (dirties : Dirties) : Same C B { s with dirties := dirties } s :=
  Same.of_lookup (fun _ => rfl) rfl rfl rfl rfl rfl rfl rfl

theorem undoEntry_ok (h : StateDB.revertEntry C B e s = .ok t) :
    ∃ t', StateDB.undoEntry C B e s = .ok t' ∧ Same C B t' t :=
  ⟨_, bind_eq_ok.mpr ⟨t, h, rfl⟩, same_dirties t _⟩

theorem respects (hC : AddressesDistinct C) : Respects (StateDB.undoEntry C B) (Same C B) Journaled where
  equivalence := ⟨Same.refl, Same.symm, Same.trans⟩
  congr := by
    intro e s s' t he hs ht
    obtain ⟨t₁, ht₁, ht⟩ := bind_eq_ok.mp ht
    cases ht
    obtain ⟨t₂, ht₂, hsame⟩ := revertEntry_congr hC he hs ht₁
    obtain ⟨t', ht', hsame'⟩ := undoEntry_ok ht₂
    exact ⟨t', ht', ((same_dirties t₁ _).trans hsame).trans hsame'.symm⟩

end

section

/-- A change whose entries lead back, with the revisions left as they are. -/
structure Reversible (C : Crypto) (B : Backend) (s s' : StateDB) : Prop where
  revisions : s'.revisions = s.revisions
  entries : ∃ new, s'.entries = new ++ s.entries ∧
    Restores (StateDB.undoEntry C B) (Same C B) Journaled new s' s

theorem Reversible.of_same (h : Same C B s' s) (hentries : s'.entries = s.entries)
    (hrevisions : s'.revisions = s.revisions) : Reversible C B s s' :=
  ⟨hrevisions, [], hentries, .nil h⟩

theorem Reversible.trans (hC : AddressesDistinct C) (h : Reversible C B s s')
    (h' : Reversible C B s' s₂) : Reversible C B s s₂ := by
  obtain ⟨new, hnew, hback⟩ := h.entries
  obtain ⟨new', hnew', hback'⟩ := h'.entries
  refine ⟨h'.revisions.trans h.revisions, new' ++ new, ?_, hback.append (respects hC) hback'⟩
  rw [hnew', hnew, List.append_assoc]

variable {e : JournalEntry} {t : StateDB}

theorem Reversible.single (he : Journaled e)
    (hentries : s'.entries = e :: s.entries) (hrevisions : s'.revisions = s.revisions)
    (ht : StateDB.revertEntry C B e s' = .ok t) (h : Same C B t s) : Reversible C B s s' := by
  obtain ⟨t', ht', hsame⟩ := undoEntry_ok ht
  exact ⟨hrevisions, [e], hentries, .single he ht' (hsame.trans h)⟩

theorem same_append (s : StateDB) (e : JournalEntry) : Same C B (s.append e) s :=
  Same.of_lookup (fun _ => rfl) rfl rfl rfl rfl rfl rfl rfl

theorem reversible_modify {p} (he : Journaled e)
    (hrevert : ∀ s, (lookup C B s a).filter (!·.deleted) = some o' →
      StateDB.revertEntry C B e s = .ok ((s.getDeletedStateObject C B a).2.setStateObject p))
    (hl : lookup C B s a = some o) (ha : o'.address = a) (hdeleted : o'.deleted = false)
    (halike : Alike C B (s.isDestructed C a) p o) :
    Reversible C B s ((s.append e).setStateObject o') := by
  set s₁ := (s.append e).setStateObject o' with hs₁
  have hlive : (lookup C B s₁ a).filter (!·.deleted) = some o' := by
    rw [← ha, hs₁, lookup_set_self, filter_eq_some_iff]
    exact ⟨rfl, by rw [hdeleted]; rfl⟩
  have hpaddr : p.address = a := halike.address.trans (lookup_address hl)
  refine Reversible.single he rfl rfl (hrevert s₁ hlive) ?_
  have hback : Same C B (s₁.setStateObject p) s := by
    refine Same.of_objects (a := a) (fun a' ha' => ?_) ?_ rfl rfl rfl rfl rfl rfl rfl
    · rw [lookup_set_of_ne (by rw [hpaddr]; exact ha'), lookup_set_of_ne (by rw [ha]; exact ha')]
      rfl
    rw [hl, ← hpaddr, lookup_set_self, hpaddr]
    exact .some halike
  refine Same.trans ?_ hback
  apply (same_getDeleted s₁ a).set_both
  exact .refl _

theorem getDeleted_frame (s : StateDB) (a : Address) :
    (s.getDeletedStateObject C B a).2.entries = s.entries ∧
      (s.getDeletedStateObject C B a).2.revisions = s.revisions := by
  rw [StateDB.getDeletedStateObject]
  cases s.stateObjects a with
  | some object => exact ⟨rfl, rfl⟩
  | none =>
    rcases s.readAccount C B a with ⟨data, err⟩
    cases data with
    | some data => exact ⟨rfl, rfl⟩
    | none => exact ⟨rfl, rfl⟩

theorem reversible_getDeleted (s : StateDB) (a : Address) :
    Reversible C B s (s.getDeletedStateObject C B a).2 :=
  .of_same (same_getDeleted s a) (getDeleted_frame s a).1 (getDeleted_frame s a).2

theorem set_set (s : StateDB) (h : o'.address = o.address) :
    (s.setStateObject o).setStateObject o' = s.setStateObject o' := by
  simp only [StateDB.setStateObject, h, update_idem]

def replaced (C : Crypto) (B : Backend) (s : StateDB) (a : Address) : StateDB :=
  match lookup C B s a with
  | none => s.append (.createObject a)
  | some object =>
    { s with
      snapDestructs := if B.snap.isSome then update s.snapDestructs (addrHash C a) true
        else s.snapDestructs }.append (.resetObject object (B.snap.isSome && s.isDestructed C a))

theorem createObject_eq : s.createObject C B a = (newObject a (zeroAccount C), lookup C B s a,
      (replaced C B (s.getDeletedStateObject C B a).2 a).setStateObject (newObject a (zeroAccount C))) := by
  have hlookup : lookup C B (s.getDeletedStateObject C B a).2 a = lookup C B s a := lookup_getDeleted
  rw [StateDB.createObject, replaced, hlookup]
  rw [← getDeletedStateObject_fst]
  rcases s.getDeletedStateObject C B a with ⟨prev, s₁⟩
  cases prev with
  | none => rfl
  | some object => rfl

theorem restore_mark (marks : Hash → Bool) (h : Hash) (snap : Bool) :
    (if (!(snap && marks h) && snap) = true then
        update (if snap = true then update marks h true else marks) h false
      else if snap = true then update marks h true else marks) = marks := by
  cases snap with
  | false => rfl
  | true =>
    cases hm : marks h with
    | true => simp [← hm]
    | false => simp [← hm]

theorem reversible_replaced (s : StateDB) (ha : o.address = a) :
    Reversible C B s ((replaced C B s a).setStateObject o) := by
  rw [replaced]
  cases hl : lookup C B s a with
  | none =>
    refine Reversible.single (e := .createObject a) trivial rfl rfl rfl ?_
    refine Same.of_lookup (fun a' => ?_) rfl rfl rfl rfl rfl rfl rfl
    by_cases ha' : a' = a
    · subst ha'
      refine lookup_remove_self.trans ?_
      rw [hl]
      rw [lookup, or_eq_none_iff] at hl
      exact hl.2
    refine (lookup_remove_of_ne ha').trans ?_
    rw [lookup_set_of_ne (by rw [ha]; exact ha')]
    rfl
  | some object =>
    have haddr := lookup_address hl
    refine Reversible.single (e := .resetObject object (B.snap.isSome && s.isDestructed C a))
      trivial rfl rfl rfl ?_
    refine Same.of_lookup (fun a' => ?_) rfl ?_ rfl rfl rfl rfl rfl
    · by_cases ha' : a' = a
      · subst ha'
        rw [hl, ← haddr]
        exact lookup_set_self
      have hne : a' ≠ object.address := by rw [haddr]; exact ha'
      refine (lookup_set_of_ne hne).trans ?_
      rw [lookup_set_of_ne (by rw [ha]; exact ha')]
      rfl
    rw [haddr]
    exact restore_mark s.snapDestructs (addrHash C a) B.snap.isSome

theorem getOrNew_lookup (s : StateDB) (a : Address) :
    lookup C B (s.getOrNewStateObject C B a).2 a = some (s.getOrNewStateObject C B a).1 ∧
      (s.getOrNewStateObject C B a).1.deleted = false := by
  rw [StateDB.getOrNewStateObject, getStateObject_eq]
  cases hl : (lookup C B s a).filter (!·.deleted) with
  | some object =>
    rw [filter_eq_some_iff] at hl
    exact ⟨lookup_getDeleted.trans hl.1, by simpa using hl.2⟩
  | none =>
    dsimp only
    rw [createObject_eq]
    exact ⟨lookup_set_self (o := newObject a (zeroAccount C)), rfl⟩

/-- The state after the creation is one that reads the same, or that with a new account in it. -/
theorem getOrNew_rule {P : StateDB → Prop} (s : StateDB) (a : Address)
    (hloaded : ∀ s₁, Same C B s₁ s → P s₁)
    (hnew : ∀ s₁, Same C B s₁ s → (s₁.getStateObject C B a).1 = none →
      P ((replaced C B s₁ a).setStateObject (newObject a (zeroAccount C)))) :
    P (s.getOrNewStateObject C B a).2 := by
  have hsame := same_getDeleted (C := C) (B := B) s a
  rw [StateDB.getOrNewStateObject, getStateObject_eq]
  cases hl : (lookup C B s a).filter (!·.deleted) with
  | some o => exact hloaded _ hsame
  | none =>
    dsimp only
    rw [createObject_eq]
    refine hnew _ ((same_getDeleted _ a).trans hsame) ?_
    rw [getStateObject_eq, lookup_getDeleted, lookup_getDeleted]
    exact hl

theorem getOrNew_spec (hC : AddressesDistinct C) (s : StateDB) (a : Address) :
    Reversible C B s (s.getOrNewStateObject C B a).2 ∧
      lookup C B (s.getOrNewStateObject C B a).2 a = some (s.getOrNewStateObject C B a).1 ∧
      (s.getOrNewStateObject C B a).1.deleted = false := by
  refine ⟨?_, getOrNew_lookup s a⟩
  rw [StateDB.getOrNewStateObject, getStateObject_eq]
  cases (lookup C B s a).filter (!·.deleted) with
  | some object => exact reversible_getDeleted s a
  | none =>
    dsimp only
    rw [createObject_eq]
    refine (reversible_getDeleted s a).trans hC ((reversible_getDeleted _ a).trans hC ?_)
    exact reversible_replaced _ rfl

theorem reversible_cache (hl : lookup C B s a = some o)
    (halike : Alike C B (s.isDestructed C a) o' o) : Reversible C B s (s.setStateObject o') :=
  .of_same (Same.set hl halike) rfl rfl

section

variable (hC : AddressesDistinct C)
include hC

theorem reversible_read {read : StateDB → StateObject → StateObject}
    (hread : ∀ s o, Alike C B (s.isDestructed C a) (read s o) o)
    (hl : (lookup C B s a).filter (!·.deleted) = some o) :
    Reversible C B s ((s.getDeletedStateObject C B a).2.setStateObject
      (read (s.getDeletedStateObject C B a).2 o)) := by
  refine (reversible_getDeleted s a).trans hC (reversible_cache ?_ (hread _ _))
  rw [lookup_getDeleted]
  exact (filter_eq_some_iff.mp hl).1

theorem reversible_getCode (s : StateDB) (a : Address) : Reversible C B s (s.getCode C B a).2 := by
  rw [StateDB.getCode, getStateObject_eq]
  cases hl : (lookup C B s a).filter (!·.deleted) with
  | none => exact reversible_getDeleted s a
  | some o => exact reversible_read hC (fun _ _ => Alike.getCode) hl

theorem reversible_getState (s : StateDB) (a : Address) (key : Hash) :
    Reversible C B s (s.getState C B a key).2 := by
  rw [StateDB.getState, getStateObject_eq]
  cases hl : (lookup C B s a).filter (!·.deleted) with
  | none => exact reversible_getDeleted s a
  | some o => exact reversible_read hC (fun _ _ => Alike.getState) hl

theorem reversible_getCommittedState (s : StateDB) (a : Address)
    (key : Hash) : Reversible C B s (s.getCommittedState C B a key).2 := by
  rw [StateDB.getCommittedState, getStateObject_eq]
  cases hl : (lookup C B s a).filter (!·.deleted) with
  | none => exact reversible_getDeleted s a
  | some o => exact reversible_read hC (fun _ _ => Alike.getCommittedState) hl

end

theorem reversible_touch (s : StateDB) (a : Address) : Reversible C B s (s.touch a) := by
  have happend : Same C B (s.append (.touch a)) s := same_append s _
  rw [StateDB.touch]
  split
  · exact Reversible.single (e := .touch a) trivial rfl rfl rfl ((same_dirties _ _).trans happend)
  · exact Reversible.single (e := .touch a) trivial rfl rfl rfl happend

section

variable (hl : lookup C B s a = some o) (hdeleted : o.deleted = false) (amount : Int)
include hl hdeleted

theorem reversible_objectSetBalance : Reversible C B s (s.objectSetBalance o amount) := by
  have haddr := lookup_address hl
  refine reversible_modify trivial (fun s hlive => ?_) hl haddr hdeleted (.refl o)
  rw [haddr]
  exact modifyObject_ok.mpr ⟨_, hlive, rfl⟩

theorem reversible_objectAddBalance : Reversible C B s (s.objectAddBalance C o amount) := by
  rw [StateDB.objectAddBalance]
  split
  · split
    · exact reversible_touch s _
    · exact .of_same (Same.refl s) rfl rfl
  · exact reversible_objectSetBalance hl hdeleted _

theorem reversible_objectSetNonce (nonce : UInt64) :
    Reversible C B s ((s.append (.nonce o.address o.data.nonce)).setStateObject (o.setNonce nonce)) := by
  have haddr := lookup_address hl
  refine reversible_modify trivial (fun s hlive => ?_) hl haddr hdeleted (.refl o)
  rw [haddr]
  exact modifyObject_ok.mpr ⟨_, hlive, rfl⟩

theorem reversible_objectSuicide :
    Reversible C B s ((s.append (.suicide a o.suicided o.data.balance)).setStateObject
      ((o.setSuicided true).setBalance 0)) := by
  have haddr := lookup_address hl
  refine reversible_modify trivial (fun s hlive => ?_) hl haddr hdeleted (.refl o)
  rw [StateDB.revertEntry, getStateObject_eq, hlive]
  rfl

theorem reversible_objectSetCode (codeHash : Hash) (code : Option Bytes) :
    Reversible C B s ((s.append (.code (o.getCode C B).2.address (o.getCode C B).1
      (o.getCode C B).2.data.codeHash)).setStateObject ((o.getCode C B).2.setCode codeHash code)) := by
  have halike : Alike C B (s.isDestructed C a) (o.getCode C B).2 o := Alike.getCode
  have haddr := halike.address.trans (lookup_address hl)
  refine reversible_modify trivial (fun s hlive => ?_) hl haddr
    (halike.deleted.trans hdeleted) (halike.setCode_back codeHash code)
  rw [haddr, halike.codeHash]
  exact modifyObject_ok.mpr ⟨_, hlive, rfl⟩

theorem reversible_objectSetState (key value : Hash) {o'} (halike : Alike C B (s.isDestructed C a) o' o) :
    Reversible C B s ((s.append (.storage o'.address key
      (o.getState C B (s.isDestructed C a) key).1)).setStateObject (o'.setState key value)) := by
  have haddr := halike.address.trans (lookup_address hl)
  refine reversible_modify trivial (fun s hlive => ?_) hl haddr
    (halike.deleted.trans hdeleted) (halike.setState_back key value)
  rw [haddr]
  exact modifyObject_ok.mpr ⟨_, hlive, rfl⟩

end

theorem reversible_update (hC : AddressesDistinct C) (s : StateDB) (a : Address)
    {f : StateObject → StateDB → StateDB}
    (hf : ∀ s o, lookup C B s a = some o → o.deleted = false → Reversible C B s (f o s)) :
    Reversible C B s (f (s.getOrNewStateObject C B a).1 (s.getOrNewStateObject C B a).2) := by
  obtain ⟨hrev, hl, hdeleted⟩ := getOrNew_spec hC s a
  exact hrev.trans hC (hf _ _ hl hdeleted)

section

variable (hC : AddressesDistinct C) (s : StateDB) (a : Address) (amount : Int)
include hC

theorem reversible_addBalance : Reversible C B s (s.addBalance C B a amount) :=
  reversible_update hC s a fun _ _ hl hdeleted => reversible_objectAddBalance hl hdeleted amount

theorem reversible_subBalance : Reversible C B s (s.subBalance C B a amount) :=
  reversible_addBalance hC s a (-amount)

theorem reversible_setBalance : Reversible C B s (s.setBalance C B a amount) :=
  reversible_update hC s a fun _ _ hl hdeleted => reversible_objectSetBalance hl hdeleted amount

theorem reversible_setNonce (nonce : UInt64) : Reversible C B s (s.setNonce C B a nonce) :=
  reversible_update hC s a fun _ _ hl hdeleted => reversible_objectSetNonce hl hdeleted nonce

theorem reversible_setCode (code : Bytes) : Reversible C B s (s.setCode C B a code) :=
  reversible_update hC s a fun _ _ hl hdeleted => reversible_objectSetCode hl hdeleted _ _

theorem reversible_setState (key value : Hash) : Reversible C B s (s.setState C B a key value) := by
  have hstep : ∀ (s : StateDB) (o : StateObject), lookup C B s a = some o → o.deleted = false →
      Reversible C B s (if (o.getState C B (s.isDestructed C a) key).1 = value then
          s.setStateObject (o.getState C B (s.isDestructed C a) key).2
        else (s.append (.storage (o.getState C B (s.isDestructed C a) key).2.address key
          (o.getState C B (s.isDestructed C a) key).1)).setStateObject
            ((o.getState C B (s.isDestructed C a) key).2.setState key value)) := by
    intro s o hl hdeleted
    split
    · exact reversible_cache hl Alike.getState
    · exact reversible_objectSetState hl hdeleted key value Alike.getState
  obtain ⟨hrev, hl, hdeleted⟩ := getOrNew_spec hC s a
  exact hrev.trans hC (hstep _ _ hl hdeleted)

theorem reversible_createAccount : Reversible C B s (s.createAccount C B a) := by
  have hnew : ∀ o : StateObject, o.address = a → Reversible C B s
      ((replaced C B (s.getDeletedStateObject C B a).2 a).setStateObject o) :=
    fun o ho => (reversible_getDeleted s a).trans hC (reversible_replaced _ ho)
  rw [StateDB.createAccount, createObject_eq]
  cases lookup C B s a with
  | none => exact hnew _ rfl
  | some prev =>
    dsimp only
    split
    · exact hnew _ rfl
    rw [set_set]
    · exact hnew _ rfl
    · rfl

theorem reversible_suicide : Reversible C B s (s.suicide C B a).2 := by
  rw [StateDB.suicide, getStateObject_eq]
  cases hl : (lookup C B s a).filter (!·.deleted) with
  | none => exact reversible_getDeleted s a
  | some o =>
    rw [filter_eq_some_iff] at hl
    refine (reversible_getDeleted s a).trans hC ?_
    exact reversible_objectSuicide (lookup_getDeleted.trans hl.1) (by simpa using hl.2)

end

theorem reversible_fields (he : Journaled e)
    (hentries : s'.entries = e :: s.entries) (hrevisions : s'.revisions = s.revisions)
    (ht : StateDB.revertEntry C B e s' = .ok t)
    (hobjects : t.stateObjects = s.stateObjects) (htrie : t.trie = s.trie)
    (hdestructs : t.snapDestructs = s.snapDestructs)
    (hrefund : t.refund = s.refund) (hlogs : t.logs = s.logs) (hlogSize : t.logSize = s.logSize)
    (hpreimages : t.preimages = s.preimages) (haccessList : t.accessList = s.accessList) :
    Reversible C B s s' := by
  refine Reversible.single he hentries hrevisions ht ?_
  refine Same.of_lookup (fun a => ?_) htrie hdestructs hrefund hlogs hlogSize hpreimages haccessList
  exact lookup_congr (by rw [hobjects]) htrie

section

variable (s : StateDB) (gas : UInt64)

theorem reversible_addLog (log : Log) : Reversible C B s (s.addLog log) := by
  have hlogs : (s.addLog log).logs s.thash = s.logs s.thash ++
      [{ log with txHash := s.thash, txIndex := s.txIndex, index := s.logSize }] :=
    update_self ..
  have hrevert : StateDB.revertEntry C B (.addLog s.thash) (s.addLog log) = .ok { s.addLog log with
        logs := update (s.addLog log).logs s.thash ((s.addLog log).logs s.thash).dropLast
        logSize := (s.addLog log).logSize - 1 } := by
    rw [StateDB.revertEntry, if_neg (by rw [hlogs]; simp)]
  refine reversible_fields (e := .addLog s.thash) trivial rfl rfl hrevert rfl rfl rfl rfl ?_ rfl rfl rfl
  rw [hlogs, List.dropLast_concat]
  exact (update_idem ..).trans (update_eq_self ..)

theorem reversible_addPreimage (hash : Hash) (preimage : Bytes) :
    Reversible C B s (s.addPreimage hash preimage) := by
  rw [StateDB.addPreimage]
  split
  · exact .of_same (Same.refl s) rfl rfl
  rename_i hnew
  rw [not_isSome_iff_eq_none] at hnew
  refine reversible_fields (e := .addPreimage hash) trivial rfl rfl rfl rfl rfl rfl rfl rfl rfl ?_ rfl
  refine (update_idem ..).trans ?_
  rw [← hnew]
  exact update_eq_self ..

theorem reversible_addRefund : Reversible C B s (s.addRefund gas) :=
  reversible_fields (e := .refund s.refund) trivial rfl rfl rfl rfl rfl rfl rfl rfl rfl rfl rfl

theorem reversible_subRefund (h : s.subRefund gas = .ok s') : Reversible C B s s' := by
  rw [StateDB.subRefund] at h
  split at h
  · cases h
  cases h
  exact reversible_fields (e := .refund s.refund) trivial rfl rfl rfl rfl rfl rfl rfl rfl rfl rfl rfl

theorem reversible_addAddressToAccessList (a : Address) :
    Reversible C B s (s.addAddressToAccessList a) := by
  cases hknown : s.accessList.addresses a with
  | some place =>
    have hadd : s.accessList.addAddress a = (false, s.accessList) := by
      rw [AccessList.addAddress, hknown]
    rw [StateDB.addAddressToAccessList, hadd]
    exact .of_same (Same.refl s) rfl rfl
  | none =>
    have hadd : s.accessList.addAddress a = (true, (s.accessList.addAddress a).2) := by
      rw [AccessList.addAddress, hknown]
    rw [StateDB.addAddressToAccessList, hadd]
    exact reversible_fields (e := .accessListAddAccount a) trivial rfl rfl rfl rfl rfl rfl rfl rfl rfl
      rfl (AccessList.deleteAddress_addAddress hknown)

theorem reversible_slot {al} (slot : Hash) (hdelete : al.deleteSlot a slot = .ok s.accessList) :
    Reversible C B s ({ s with accessList := al }.append (.accessListAddSlot a slot)) := by
  have hrevert : StateDB.revertEntry C B (.accessListAddSlot a slot)
      ({ s with accessList := al }.append (.accessListAddSlot a slot)) =
        .ok (s.append (.accessListAddSlot a slot)) :=
    bind_eq_ok.mpr ⟨s.accessList, hdelete, rfl⟩
  exact reversible_fields (e := .accessListAddSlot a slot) trivial rfl rfl hrevert rfl rfl rfl rfl rfl
    rfl rfl rfl

theorem reversible_addSlotToAccessList (hC : AddressesDistinct C) (slot : Hash)
    (h : s.addSlotToAccessList a slot = .ok s') : Reversible C B s s' := by
  obtain ⟨⟨⟨addrMod, slotMod⟩, al⟩, hadd, h⟩ := bind_eq_ok.mp h
  rw [AccessList.addSlot] at hadd
  cases hknown : s.accessList.addresses a with
  | none =>
    rw [hknown] at hadd
    cases hadd
    cases h
    -- the address is added first, with an entry of its own
    have haddr : Reversible C B s (s.addAddressToAccessList a) := reversible_addAddressToAccessList s a
    have hdelete : (s.accessList.appendSlot a slot).deleteSlot a slot =
        .ok (s.accessList.addAddress a).2 := by
      rw [AccessList.deleteSlot_appendSlot, AccessList.addAddress, hknown]
    rw [StateDB.addAddressToAccessList, AccessList.addAddress, hknown] at haddr
    refine haddr.trans hC (reversible_slot _ slot ?_)
    rw [hdelete, AccessList.addAddress, hknown]
    rfl
  | some place =>
    rw [hknown] at hadd
    cases place with
    | none =>
      cases hadd
      cases h
      apply reversible_slot
      rw [AccessList.deleteSlot_appendSlot, ← hknown, update_eq_self]
    | some idx =>
      dsimp only at hadd
      cases hslots : s.accessList.slots[idx]? with
      | none =>
        rw [hslots] at hadd
        cases hadd
      | some slots =>
        rw [hslots] at hadd
        dsimp only at hadd
        split at hadd
        · cases hadd
          cases h
          exact .of_same (Same.refl s) rfl rfl
        cases hadd
        cases h
        apply reversible_slot
        rw [AccessList.deleteSlot_insertSlot hknown hslots ‹_›]

end

end

end Geth.State.Revert
