import Geth.Lib.Balances
import Geth.State.Commit
import Geth.State.Snapshots

namespace Geth.State.Ledger

open Lib.BigEndian Lib.Balances Common.Basic Account Journal Revert Snapshots Commit Function Option

variable {C : Crypto} {B : Backend} {s s' : StateDB} {a : Address} {o : StateObject}

def ledger (C : Crypto) (B : Backend) (s : StateDB) : Ledger Address := fun a => s.getBalance C B a

/-- What an account holds. A deleted one holds nothing. -/
def held (object : Option StateObject) : ℤ := ((object.filter (!·.deleted)).map (·.data.balance)).getD 0

theorem ledger_apply (C : Crypto) (B : Backend) (s : StateDB) (a : Address) :
    ledger C B s a = held (lookup C B s a) := by
  rw [ledger, StateDB.getBalance, getStateObject_eq]
  rfl

theorem held_some (o : StateObject) : held (some o) = if o.deleted then 0 else o.data.balance := by
  cases h : o.deleted <;> simp [held, Option.filter, h]

theorem held_live (h : o.deleted = false) : held (some o) = o.data.balance := by
  rw [held_some, h]
  rfl

section

theorem ledger_congr (h : ∀ a, lookup C B s' a = lookup C B s a) : ledger C B s' = ledger C B s := by
  funext a
  rw [ledger_apply, ledger_apply, h a]

theorem ledger_fields (hobjects : s'.stateObjects = s.stateObjects) (htrie : s'.trie = s.trie) :
    ledger C B s' = ledger C B s :=
  ledger_congr fun a => lookup_congr (congrFun hobjects a) htrie

theorem ledger_same (h : Same C B s' s) : ledger C B s' = ledger C B s := by
  funext a
  exact (Same.getters h).balance a

theorem ledger_set (s : StateDB) (o : StateObject) :
    ledger C B (s.setStateObject o) = update (ledger C B s) o.address (held (some o)) := by
  funext a
  by_cases ha : a = o.address
  · rw [ha, update_self, ledger_apply, lookup_set_self]
  · rw [update_of_ne ha, ledger_apply, ledger_apply, lookup_set_of_ne ha]

theorem ledger_set_eq (h : held (some o) = ledger C B s o.address) :
    ledger C B (s.setStateObject o) = ledger C B s := by
  rw [ledger_set, h, update_eq_self]

theorem ledger_append (s : StateDB) (entry : JournalEntry) : ledger C B (s.append entry) = ledger C B s :=
  ledger_fields rfl rfl

theorem ledger_getDeleted (s : StateDB) (a : Address) :
    ledger C B (s.getDeletedStateObject C B a).2 = ledger C B s :=
  ledger_congr fun _ => lookup_getDeleted

theorem ledger_replaced (s : StateDB) (a : Address) : ledger C B (replaced C B s a) = ledger C B s := by
  rw [replaced]
  split <;> exact ledger_fields rfl rfl

theorem getOrNew_ledger (s : StateDB) (a : Address) :
    ledger C B (s.getOrNewStateObject C B a).2 = ledger C B s ∧
      (s.getOrNewStateObject C B a).1.address = a ∧
      (s.getOrNewStateObject C B a).1.deleted = false ∧
      (s.getOrNewStateObject C B a).1.data.balance = ledger C B s a := by
  rw [StateDB.getOrNewStateObject, getStateObject_eq, ledger_apply]
  cases hl : (lookup C B s a).filter (!·.deleted) with
  | some object =>
    obtain ⟨hlookup, hlive⟩ := Option.filter_eq_some_iff.mp hl
    refine ⟨ledger_getDeleted s a, lookup_address hlookup, by simpa using hlive, ?_⟩
    rw [held, hl]
    rfl
  | none =>
    have hzero : held (lookup C B s a) = 0 := by
      rw [held, hl]
      rfl
    dsimp only
    rw [createObject_eq]
    refine ⟨?_, rfl, rfl, hzero.symm⟩
    rw [ledger_set_eq]
    · rw [ledger_replaced, ledger_getDeleted, ledger_getDeleted]
    rw [ledger_replaced, ledger_getDeleted, ledger_getDeleted, ledger_apply]
    exact hzero.symm

end

section

variable (s : StateDB) (a : Address) (amount : ℤ)

theorem ledger_objectSetBalance {amount : ℤ} (h : o.deleted = false) :
    ledger C B (s.objectSetBalance o amount) = update (ledger C B s) o.address amount := by
  rw [StateDB.objectSetBalance, ledger_set, ledger_append]
  exact congrArg _ (held_live h)

theorem ledger_touch : ledger C B (s.touch a) = ledger C B s := by
  rw [StateDB.touch]
  split <;> exact ledger_fields rfl rfl

theorem ledger_addBalance : ledger C B (s.addBalance C B a amount) = credit (ledger C B s) a amount := by
  obtain ⟨hledger, haddr, hlive, hbalance⟩ := getOrNew_ledger s a
  rw [StateDB.addBalance]
  dsimp only
  rw [StateDB.objectAddBalance]
  split
  next hzero =>
    rw [credit, hzero, add_zero, update_eq_self, ← hledger]
    split
    · exact ledger_touch _ _
    · rfl
  next => rw [ledger_objectSetBalance _ hlive, hledger, haddr, hbalance, credit]

theorem ledger_subBalance : ledger C B (s.subBalance C B a amount) = debit (ledger C B s) a amount :=
  ledger_addBalance s a (-amount)

theorem ledger_setBalance : ledger C B (s.setBalance C B a amount) = update (ledger C B s) a amount := by
  obtain ⟨hledger, haddr, hlive, -⟩ := getOrNew_ledger s a
  rw [StateDB.setBalance]
  rw [ledger_objectSetBalance _ hlive, hledger, haddr]

theorem ledger_createAccount : ledger C B (s.createAccount C B a) = ledger C B s := by
  have hmade : ∀ o : StateObject, o.address = a → held (some o) = ledger C B s a →
      ledger C B ((replaced C B (s.getDeletedStateObject C B a).2 a).setStateObject o) = ledger C B s := by
    intro o haddr hheld
    rw [ledger_set_eq]
    · rw [ledger_replaced, ledger_getDeleted]
    · rw [ledger_replaced, ledger_getDeleted, haddr, hheld]
  rw [StateDB.createAccount, createObject_eq]
  cases hl : lookup C B s a with
  | none =>
    apply hmade _ rfl
    rw [ledger_apply, hl]
    rfl
  | some prev =>
    dsimp only
    split
    next hdeleted =>
      apply hmade _ rfl
      rw [ledger_apply, hl, held, held, filter_some, filter_some, hdeleted]
      rfl
    next hlive =>
      have hheld := held_live (by simpa using hlive)
      rw [ledger_set, ledger_set, ledger_replaced, ledger_getDeleted]
      funext b
      by_cases hb : b = a
      · subst hb
        rw [ledger_apply, hl, hheld]
        exact update_self ..
      · rw [update_of_ne (by exact hb), update_of_ne (by exact hb)]

end

section

theorem finaliseAddress_ledger (d : Bool) (s : StateDB) (b : Address) (a : Address) :
    ledger C B (finaliseAddress C B d s b) a = ledger C B s a ∨
      ledger C B (finaliseAddress C B d s b) a = 0 := by
  rw [finaliseAddress]
  cases hobj : s.stateObjects b with
  | none => exact .inl rfl
  | some obj =>
    have haddr : obj.address = b := s.keyed b obj hobj
    have hheld : ledger C B s b = held (some obj) := by
      rw [ledger_apply, lookup, hobj, some_or]
    have hmark : ∀ t : StateDB, ledger C B { t with
        stateObjectsPending := t.stateObjectsPending.insert b
        stateObjectsDirty := t.stateObjectsDirty.insert b } = ledger C B t :=
      fun t => ledger_fields rfl rfl
    rw [hmark]
    split
    next =>
      have hdel : ledger C B (markDeleted C B s obj) = update (ledger C B s) b 0 := by
        have hset : ledger C B (s.setStateObject { obj with deleted := true }) =
            update (ledger C B s) b 0 := by
          rw [ledger_set]
          rw [haddr]
          rfl
        rw [markDeleted, ← hset]
        split <;> exact ledger_fields rfl rfl
      rw [hdel]
      by_cases ha : a = b
      · exact .inr (by rw [ha, update_self])
      · exact .inl (update_of_ne ha ..)
    next =>
      left
      rw [ledger_set_eq]
      change held (some (finaliseObject obj)) = ledger C B s obj.address
      rw [haddr, hheld, held_some, held_some]
      rfl

theorem finalise_ledger (d : Bool) (s : StateDB) (a : Address) :
    ledger C B (finalise C B d s) a = ledger C B s a ∨ ledger C B (finalise C B d s) a = 0 := by
  have hfold : ∀ (keys : List Address) (s : StateDB),
      ledger C B (keys.foldl (finaliseAddress C B d) s) a = ledger C B s a ∨
        ledger C B (keys.foldl (finaliseAddress C B d) s) a = 0 := by
    intro keys
    induction keys with
    | nil => exact fun s => .inl rfl
    | cons b keys ih =>
      intro s
      rw [List.foldl_cons]
      rcases ih (finaliseAddress C B d s b) with h | h
      · rw [h]
        exact finaliseAddress_ledger d s b a
      · exact .inr h
  have hclear : ∀ s : StateDB, ledger C B (clearJournalAndRefund s) = ledger C B s := by
    intro s
    rw [clearJournalAndRefund]
    split <;> exact ledger_fields rfl rfl
  rw [finalise, hclear]
  exact hfold _ s

end

end Geth.State.Ledger
