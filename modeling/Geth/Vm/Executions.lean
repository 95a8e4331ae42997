import Geth.Vm.Metering

namespace Geth.Vm.Executions

open Lib.BigEndian Common.Basic State.Journal State.Revert Machine Instructions
open GasTable JumpTable Effects Metering List UInt64 Nat
open SstoreGas (Placed same_getState)

section

/-- A part of the memory that is there, or nothing. -/
def Within (m : Memory) (offset size : UInt64) : Prop :=
  size = 0 ∨ offset.toNat + size.toNat ≤ m.store.length

variable {m : Memory} {off l : Word} {n size : UInt64}

theorem within_of_calcUint (h : calcMemSize64WithUint off n = some size) (hle : size.toNat ≤ m.store.length) :
    Within m off.uint64 n := by
  rw [calcMemSize64WithUint] at h
  by_cases hzero : n = 0
  · exact .inl hzero
  rw [if_neg hzero, Word.uint64WithOverflow] at h
  by_cases hfits : off.isUint64 = true
  · rw [if_pos hfits] at h
    dsimp only at h
    rw [safeAdd] at h
    by_cases hlt : off.uint64 + n < off.uint64
    · rw [if_pos hlt] at h
      cases h
    rw [if_neg hlt] at h
    cases h
    rw [lt_iff_toNat_lt, UInt64.toNat_add] at hlt
    rw [UInt64.toNat_add] at hle
    have hn := n.toNat_lt
    have ho := off.uint64.toNat_lt
    refine .inr ?_
    omega
  rw [if_neg hfits] at h
  cases h

theorem isUint64_of_calc (h : calcMemSize64 off l = some n) : l.isUint64 = true := by
  rw [calcMemSize64] at h
  by_contra hfits
  rw [if_neg hfits] at h
  cases h

theorem within_of_calc (h : calcMemSize64 off l = some n) (hle : n.toNat ≤ m.store.length) :
    Within m off.uint64 l.uint64 := by
  have hfits := isUint64_of_calc h
  rw [calcMemSize64, if_pos hfits] at h
  exact within_of_calcUint h hle

theorem within_of_both {stack} {i : ℕ} (h : memoryBoth i stack = some n) (hle : n.toNat ≤ m.store.length) :
    Within m (back stack i).uint64 (back stack (i + 1)).uint64 ∧
      Within m (back stack (i + 2)).uint64 (back stack (i + 3)).uint64 := by
  rw [memoryBoth] at h
  cases hx : calcMemSize64 (back stack (i + 2)) (back stack (i + 3)) with
  | none =>
    rw [hx] at h
    cases h
  | some x =>
    cases hy : calcMemSize64 (back stack i) (back stack (i + 1)) with
    | none =>
      rw [hx, hy] at h
      cases h
    | some y =>
      rw [hx, hy] at h
      obtain rfl : (if y < x then x else y) = n := Option.some.inj h
      by_cases hlt : y < x
      · rw [if_pos hlt] at hle
        rw [lt_iff_toNat_lt] at hlt
        exact ⟨within_of_calc hy (by omega), within_of_calc hx hle⟩
      rw [if_neg hlt] at hle
      rw [lt_iff_toNat_lt] at hlt
      exact ⟨within_of_calc hy hle, within_of_calc hx (by omega)⟩

theorem toInt64_of_lt {x : UInt64} (h : x.toNat < 2 ^ 63) : x.toInt64.toInt = (x.toNat : ℤ) :=
  BitVec.toInt_eq_toNat_of_lt (by
    change 2 * x.toNat < 2 ^ 64
    omega)

variable {offset : UInt64}

theorem getPtr_ok (hm : Sized m) (h : Within m offset size) : ∃ b, m.getPtr offset size = .ok b := by
  have hlen := hm.length_lt
  rw [Memory.getPtr]
  by_cases hzero : size = 0
  · rw [if_pos hzero]
    exact ⟨_, rfl⟩
  rw [if_neg hzero]
  have hle := h.resolve_left hzero
  rw [toInt64_of_lt (by omega), toInt64_of_lt (by omega)]
  split
  · rw [if_pos ⟨by omega, by omega, by omega⟩]
    exact ⟨_, rfl⟩
  · exact ⟨_, rfl⟩

theorem length_overwrite {store value} {offset : ℕ} (h : offset + value.length ≤ store.length) :
    (Memory.overwrite store offset value).length = store.length := by
  rw [Memory.overwrite, length_append, length_append, length_take, length_drop]
  omega

theorem toNat_add_of_within (hm : Sized m) (h : offset.toNat + size.toNat ≤ m.store.length) :
    (offset + size).toNat = offset.toNat + size.toNat := by
  have hlen := hm.length_lt
  rw [UInt64.toNat_add]
  omega

theorem set_ok (hm : Sized m) (h : Within m offset size) (value : Bytes) :
    ∃ m', m.set offset size value = .ok m' ∧ Sized m' := by
  rw [Memory.set]
  by_cases hzero : size = 0
  · rw [if_pos hzero]
    exact ⟨m, rfl, hm⟩
  have hle := h.resolve_left hzero
  have hsum := toNat_add_of_within hm hle
  have hover : ¬ offset + size < offset := by
    rw [lt_iff_toNat_lt]
    omega
  rw [if_neg hzero, if_neg (by omega), if_neg hover]
  refine ⟨_, rfl, hm.congr (length_overwrite ?_) rfl⟩
  rw [length_take]
  omega

theorem set32_ok (hm : Sized m) (h : Within m offset 32) (val : Word) :
    ∃ m', m.set32 offset val = .ok m' ∧ Sized m' := by
  have hle := h.resolve_left (by decide)
  have hsum := toNat_add_of_within hm hle
  have hover : ¬ offset + 32 < offset := by
    rw [lt_iff_toNat_lt]
    omega
  rw [Memory.set32, if_neg (by omega), if_neg hover]
  refine ⟨_, rfl, hm.congr (length_overwrite ?_) rfl⟩
  rw [beBytes_length]
  exact hle

theorem setByte_ok (hm : Sized m) (h : Within m offset 1) (val : UInt8) :
    ∃ m', m.setByte offset val = .ok m' ∧ Sized m' := by
  have hle := h.resolve_left (by decide)
  change offset.toNat + 1 ≤ m.store.length at hle
  rw [Memory.setByte, if_neg (by omega)]
  exact ⟨_, rfl, hm.congr (length_overwrite hle) rfl⟩

end

/-- What holds of `Run` for contracts with less gas than a limit. -/
def Runs (w : Prop) (env : Env) (run : Run) (limit : ℕ) : Prop :=
  ∀ evm contract readOnly, Placed evm.db.accessList → contract.gas.toNat < limit →
    Settles (Quiet w env (evm.readOnly || readOnly) evm.db) (Fit env evm.db contract.address)
      (fun r => r.gas.toNat ≤ contract.gas.toNat ∧ Keeps w env (evm.readOnly || readOnly) evm r.evm)
      (run evm contract readOnly)

structure Ready (w : Prop) (env : Env) (op : UInt8) (minStack : ℕ) (memorySize : Option MemorySizeFunc)
    (evm : Evm) (scope : Scope) : Prop where
  placed : Placed evm.db.accessList
  sized : Sized scope.memory
  stack : minStack ≤ scope.stack.length
  memory : ∀ f, memorySize = some f → ∃ n, f scope.stack = some n ∧ n.toNat ≤ scope.memory.store.length
  loud : isWrite op = true → ¬ Quiet w env evm.readOnly evm.db
  target : isCall op = true → Orderly env → Listed env evm.db (back scope.stack 1).bytes20
  still : op = OpCode.call → Quiet w env evm.readOnly evm.db → back scope.stack 2 = 0

/-- The operations that enter another contract. -/
def nests (op : UInt8) : Bool := decide (op ∈ [0xF0, 0xF1, 0xF2, 0xF4, 0xF5, 0xFA])

/-- What the interpreter needs of an operation: no gas comes from nowhere. -/
def Executes (w : Prop) (env : Env) (op : UInt8) (minStack : ℕ) (memorySize : Option MemorySizeFunc)
    (execute : ExecutionFunc) : Prop :=
  ∀ run evm scope limit, Ready w env op minStack memorySize evm scope →
    (nests op = true → Runs w env run limit ∧ scope.contract.gas.toNat + extra op evm scope.stack < limit) →
    Settles (Quiet w env evm.readOnly evm.db) (Fit env evm.db scope.contract.address)
      (fun r => Keeps w env evm.readOnly evm r.evm ∧ Sized r.scope.memory ∧
        r.scope.contract.address = scope.contract.address ∧ r.scope.contract.gas.toNat ≤ scope.contract.gas.toNat + extra op evm scope.stack)
      (execute run env evm scope)

section

variable {w : Prop} {env : Env} {op : UInt8} {evm : Evm} {scope : Scope}

/-- What an operation leaves that does not enter another contract. -/
def Stays (w : Prop) (env : Env) (evm : Evm) (scope : Scope) (r : Executed) : Prop :=
  Keeps w env evm.readOnly evm r.evm ∧ Sized r.scope.memory ∧ r.scope.contract = scope.contract

theorem executes_of_stays {minStack : ℕ} {memorySize} {execute}
    (h : ∀ run evm scope, Ready w env op minStack memorySize evm scope →
      Settles (Quiet w env evm.readOnly evm.db) (Fit env evm.db scope.contract.address) (Stays w env evm scope)
        (execute run env evm scope)) :
    Executes w env op minStack memorySize execute := by
  intro run evm scope limit hready _
  refine (h run evm scope hready).mono (fun r hr => ⟨hr.1, hr.2.1, ?_⟩) id id
  rw [hr.2.2]
  exact ⟨rfl, le_add_right _ _⟩

section

variable {α : Type} {l : List α}

theorem exists_cons {n : ℕ} (h : n + 1 ≤ l.length) : ∃ x rest, l = x :: rest ∧ n ≤ rest.length := by
  cases l with
  | nil => cases h
  | cons x rest => exact ⟨x, rest, rfl, le_of_succ_le_succ h⟩

theorem one_word (h : 1 ≤ l.length) : ∃ x rest, l = x :: rest := by
  obtain ⟨x, rest, rfl, _⟩ := exists_cons h
  exact ⟨x, rest, rfl⟩

theorem two_words (h : 2 ≤ l.length) : ∃ x y rest, l = x :: y :: rest := by
  obtain ⟨x, l₁, rfl, h₁⟩ := exists_cons h
  obtain ⟨y, rest, rfl⟩ := one_word h₁
  exact ⟨x, y, rest, rfl⟩

theorem three_words (h : 3 ≤ l.length) : ∃ x y z rest, l = x :: y :: z :: rest := by
  obtain ⟨x, l₁, rfl, h₁⟩ := exists_cons h
  obtain ⟨y, z, rest, rfl⟩ := two_words h₁
  exact ⟨x, y, z, rest, rfl⟩

theorem four_words (h : 4 ≤ l.length) : ∃ w x y z rest, l = w :: x :: y :: z :: rest := by
  obtain ⟨w, l₁, rfl, h₁⟩ := exists_cons h
  obtain ⟨x, y, z, rest, rfl⟩ := three_words h₁
  exact ⟨w, x, y, z, rest, rfl⟩

theorem six_words (h : 6 ≤ l.length) : ∃ u v w x y z rest, l = u :: v :: w :: x :: y :: z :: rest := by
  obtain ⟨u, l₁, rfl, h₁⟩ := exists_cons h
  obtain ⟨v, l₂, rfl, h₂⟩ := exists_cons h₁
  obtain ⟨w, x, y, z, rest, rfl⟩ := four_words h₂
  exact ⟨u, v, w, x, y, z, rest, rfl⟩

theorem seven_words (h : 7 ≤ l.length) :
    ∃ t u v w x y z rest, l = t :: u :: v :: w :: x :: y :: z :: rest := by
  obtain ⟨t, l₁, rfl, h₁⟩ := exists_cons h
  obtain ⟨u, v, w, x, y, z, rest, rfl⟩ := six_words h₁
  exact ⟨t, u, v, w, x, y, z, rest, rfl⟩

end

theorem stays_next (hm : Sized scope.memory) (stack : List Word) :
    Settles (Quiet w env evm.readOnly evm.db) (Fit env evm.db scope.contract.address) (Stays w env evm scope)
      (next evm scope stack) :=
  ⟨.refl evm, hm, rfl⟩

theorem executes_replacing (f : Env → Evm → Scope → Word → Word) :
    Executes w env op 1 none (replacing f) := by
  refine executes_of_stays fun run evm scope hready => ?_
  obtain ⟨x, rest, hs⟩ := one_word hready.stack
  rw [replacing, hs]
  exact stays_next hready.sized _

theorem executes_binary (f : Word → Word → Word) : Executes w env op 2 none (binary f) := by
  refine executes_of_stays fun run evm scope hready => ?_
  obtain ⟨x, y, rest, hs⟩ := two_words hready.stack
  rw [binary, hs]
  exact stays_next hready.sized _

theorem executes_ternary (f : Word → Word → Word → Word) : Executes w env op 3 none (ternary f) := by
  refine executes_of_stays fun run evm scope hready => ?_
  obtain ⟨x, y, z, rest, hs⟩ := three_words hready.stack
  rw [ternary, hs]
  exact stays_next hready.sized _

theorem executes_pushing (f : Env → Evm → Scope → Word) : Executes w env op 0 none (pushing f) :=
  executes_of_stays fun _ _ _ hready => stays_next hready.sized _

theorem executes_opJumpdest : Executes w env op 0 none opJumpdest :=
  executes_of_stays fun _ _ _ hready => stays_next hready.sized _

theorem executes_opStop : Executes w env op 0 none opStop :=
  executes_of_stays fun _ _ _ hready => stays_next hready.sized _

theorem executes_opPush1 : Executes w env op 0 none opPush1 :=
  executes_of_stays fun _ evm _ hready => ⟨.refl evm, hready.sized, rfl⟩

theorem executes_makePush (size : UInt64) (n : ℕ) : Executes w env op 0 none (makePush size n) :=
  executes_of_stays fun _ evm _ hready => ⟨.refl evm, hready.sized, rfl⟩

theorem executes_opPop : Executes w env op 1 none opPop := by
  refine executes_of_stays fun run evm scope hready => ?_
  obtain ⟨x, rest, hs⟩ := one_word hready.stack
  rw [opPop, hs]
  exact stays_next hready.sized _

theorem executes_makeDup {n : ℕ} (hn : 0 < n) : Executes w env op n none (makeDup n) := by
  refine executes_of_stays fun run evm scope hready => ?_
  have hlt : n - 1 < scope.stack.length := by
    have hle := hready.stack
    omega
  rw [makeDup, getElem?_eq_getElem hlt]
  exact stays_next hready.sized _

theorem executes_makeSwap (n : ℕ) : Executes w env op (n + 1) none (makeSwap n) := by
  refine executes_of_stays fun run evm scope hready => ?_
  have hlt : n < scope.stack.length := hready.stack
  rw [makeSwap, getElem?_eq_getElem hlt, getElem?_eq_getElem (zero_lt_of_lt hlt)]
  exact stays_next hready.sized _

theorem stays_jumpTo (hm : Sized scope.memory) (pos : Word) (rest : List Word) :
    Settles (Quiet w env evm.readOnly evm.db) (Fit env evm.db scope.contract.address) (Stays w env evm scope)
      (jumpTo evm scope pos rest) := by
  rw [jumpTo]
  split <;> exact ⟨.refl evm, hm, rfl⟩

theorem executes_opJump : Executes w env op 1 none opJump := by
  refine executes_of_stays fun run evm scope hready => ?_
  obtain ⟨x, rest, hs⟩ := one_word hready.stack
  rw [opJump, hs]
  exact stays_jumpTo hready.sized x rest

theorem executes_opJumpi : Executes w env op 2 none opJumpi := by
  refine executes_of_stays fun run evm scope hready => ?_
  obtain ⟨x, y, rest, hs⟩ := two_words hready.stack
  rw [opJumpi, hs]
  dsimp only
  split
  · exact stays_jumpTo hready.sized x rest
  · exact ⟨.refl evm, hready.sized, rfl⟩

end

section

variable {w : Prop} {env : Env} {op : UInt8} {minStack : ℕ} {f : MemorySizeFunc} {evm : Evm} {scope : Scope}
    {stack : List Word}

section

variable (h : Ready w env op minStack (some f) evm scope)
include h

theorem Ready.area : ∃ n, f scope.stack = some n ∧ n.toNat ≤ scope.memory.store.length :=
  h.memory f rfl

theorem Ready.withinUint (off : Word) (n : UInt64)
    (hs : scope.stack = stack) (hf : f stack = calcMemSize64WithUint off n) :
    Within scope.memory off.uint64 n := by
  obtain ⟨size, hsize, hle⟩ := h.area
  rw [hs, hf] at hsize
  exact within_of_calcUint hsize hle

theorem Ready.within (off l : Word)
    (hs : scope.stack = stack) (hf : f stack = calcMemSize64 off l) : Within scope.memory off.uint64 l.uint64 := by
  obtain ⟨size, hsize, hle⟩ := h.area
  rw [hs, hf] at hsize
  exact within_of_calc hsize hle

end

theorem executes_opReturn : Executes w env op 2 (some memoryReturn) opReturn := by
  refine executes_of_stays fun run evm scope hready => ?_
  obtain ⟨offset, size, rest, hs⟩ := two_words hready.stack
  obtain ⟨b, hb⟩ := getPtr_ok hready.sized (hready.within offset size hs rfl)
  rw [opReturn, hs]
  dsimp only
  rw [hb]
  exact ⟨.refl evm, hready.sized, rfl⟩

theorem executes_opMload : Executes w env op 1 (some memoryMLoad) opMload := by
  refine executes_of_stays fun run evm scope hready => ?_
  obtain ⟨v, rest, hs⟩ := one_word hready.stack
  obtain ⟨b, hb⟩ := getPtr_ok hready.sized (hready.withinUint v 32 hs rfl)
  rw [opMload, hs]
  dsimp only
  rw [hb]
  exact stays_next hready.sized _

theorem executes_opMstore : Executes w env op 2 (some memoryMStore) opMstore := by
  refine executes_of_stays fun run evm scope hready => ?_
  obtain ⟨mStart, val, rest, hs⟩ := two_words hready.stack
  obtain ⟨memory, hset, hsized⟩ := set32_ok hready.sized (hready.withinUint mStart 32 hs rfl) val
  rw [opMstore, hs]
  dsimp only
  rw [hset]
  exact ⟨.refl evm, hsized, rfl⟩

theorem executes_opMstore8 : Executes w env op 2 (some memoryMStore8) opMstore8 := by
  refine executes_of_stays fun run evm scope hready => ?_
  obtain ⟨off, val, rest, hs⟩ := two_words hready.stack
  obtain ⟨memory, hset, hsized⟩ := setByte_ok hready.sized (hready.withinUint off 1 hs rfl) (UInt8.ofNat val.toNat)
  rw [opMstore8, hs]
  dsimp only
  rw [hset]
  exact ⟨.refl evm, hsized, rfl⟩

theorem executes_copying (data : Scope → Bytes) : Executes w env op 3 (some memoryCallDataCopy) (copying data) := by
  refine executes_of_stays fun run evm scope hready => ?_
  obtain ⟨memOffset, dataOffset, length, rest, hs⟩ := three_words hready.stack
  obtain ⟨memory, hset, hsized⟩ := set_ok hready.sized (hready.within memOffset length hs rfl)
    (getData (data scope) (offset64 dataOffset) length.uint64)
  rw [copying, hs]
  dsimp only
  rw [hset]
  exact ⟨.refl evm, hsized, rfl⟩

theorem executes_opReturnDataCopy : Executes w env op 3 (some memoryReturnDataCopy) opReturnDataCopy := by
  refine executes_of_stays fun run evm scope hready => ?_
  obtain ⟨n, hn, hle⟩ := hready.area
  obtain ⟨memOffset, dataOffset, length, rest, hs⟩ := three_words hready.stack
  rw [hs] at hn
  have harea : Within scope.memory memOffset.uint64 length.uint64 := within_of_calc hn hle
  have hfail : Settles (Quiet w env evm.readOnly evm.db) (Fit env evm.db scope.contract.address) (Stays w env evm scope)
      (.ok ⟨[], some .returnDataOutOfBounds, evm, { scope with stack := rest }⟩) :=
    ⟨.refl evm, hready.sized, rfl⟩
  rw [opReturnDataCopy, hs]
  dsimp only
  split
  · exact hfail
  next hdata =>
    split
    · exact hfail
    next hstop =>
      -- the sum could only wrap around with a length of more than 64 bits
      have hsum : ¬ (dataOffset + length).toNat < dataOffset.toNat := by
        have hlength : length.toNat < 2 ^ 64 := of_decide_eq_true (isUint64_of_calc hn)
        have hoffset := of_decide_eq_true (Bool.not_eq_false _ ▸ hdata)
        rw [BitVec.toNat_add]
        omega
      rw [if_neg hsum]
      obtain ⟨memory, hset, hsized⟩ := set_ok hready.sized harea
        ((evm.returnData.take (dataOffset + length).toNat).drop dataOffset.toNat)
      rw [hset]
      exact ⟨.refl evm, hsized, rfl⟩

end

section

variable {w : Prop} {env : Env} {op : UInt8} (hC : AddressesDistinct env.crypto)
include hC

theorem keeps_getCode (evm : Evm) (a : Address) :
    Keeps w env evm.readOnly evm { evm with db := (evm.db.getCode env.crypto env.backend a).2 } :=
  .db (extends_read hC (reversible_getCode hC evm.db a) (same_getCode evm.db a)) fun _ =>
    .of_same (same_getCode evm.db a)

theorem executes_opSload : Executes w env op 1 none opSload := by
  refine executes_of_stays fun run evm scope hready => ?_
  obtain ⟨loc, rest, hs⟩ := one_word hready.stack
  rw [opSload, hs]
  have hsame := same_getState (C := env.crypto) (B := env.backend) evm.db scope.contract.address loc.bytes32
  refine ⟨.db (extends_read hC ?_ hsame) fun _ => .of_same hsame, hready.sized, rfl⟩
  exact reversible_getState hC evm.db scope.contract.address loc.bytes32

theorem executes_opSha3 : Executes w env op 2 (some memorySha3) opSha3 := by
  refine executes_of_stays fun run evm scope hready => ?_
  obtain ⟨offset, size, rest, hs⟩ := two_words hready.stack
  obtain ⟨b, hb⟩ := getPtr_ok hready.sized (hready.within offset size hs rfl)
  rw [opSha3, hs]
  dsimp only
  rw [hb]
  refine ⟨?_, hready.sized, rfl⟩
  split
  · refine .db (.of_reversible hC (reversible_addPreimage evm.db _ b) ?_) fun _ => ?_
    · rw [StateDB.addPreimage]
      split <;> exact ⟨rfl, rfl⟩
    rw [StateDB.addPreimage]
    split <;> exact .of_fields rfl rfl rfl rfl
  · exact .refl evm

theorem executes_opExtCodeCopy : Executes w env op 4 (some memoryExtCodeCopy) opExtCodeCopy := by
  refine executes_of_stays fun run evm scope hready => ?_
  obtain ⟨a, memOffset, codeOffset, length, rest, hs⟩ := four_words hready.stack
  obtain ⟨memory, hset, hsized⟩ := set_ok hready.sized (hready.within memOffset length hs rfl)
    (getData (evm.db.getCode env.crypto env.backend a.bytes20).1 (offset64 codeOffset) length.uint64)
  rw [opExtCodeCopy, hs]
  dsimp only
  rw [hset]
  exact ⟨keeps_getCode hC evm a.bytes20, hsized, rfl⟩

end

section

variable {w : Prop} {env : Env} {op : UInt8} (hC : AddressesDistinct env.crypto) (hwrite : isWrite op = true)
include hC hwrite

omit hC in
theorem stays_write {minStack : ℕ} {memorySize} {evm : Evm} {scope}
    (hready : Ready w env op minStack memorySize evm scope) {db}
    (h : Extends env.crypto env.backend evm.db db) (stack : List Word) :
    Settles (Quiet w env evm.readOnly evm.db) (Fit env evm.db scope.contract.address) (Stays w env evm scope)
      (next { evm with db } scope stack) :=
  ⟨.db h fun hq => (hready.loud hwrite hq).elim, hready.sized, rfl⟩

theorem executes_opSstore : Executes w env op 2 none opSstore := by
  refine executes_of_stays fun run evm scope hready => ?_
  obtain ⟨loc, val, rest, hs⟩ := two_words hready.stack
  rw [opSstore, hs]
  exact stays_write hwrite hready (extends_setState hC loc.bytes32 val.bytes32) rest

theorem executes_opSuicide : Executes w env op 1 none opSuicide := by
  refine executes_of_stays fun run evm scope hready => ?_
  obtain ⟨beneficiary, rest, hs⟩ := one_word hready.stack
  rw [opSuicide, hs]
  refine stays_write hwrite hready ?_ rest
  exact (extends_addBalance hC _).trans (extends_suicide hC)

omit hC hwrite in
theorem settles_logDenied {quiet : Prop} {db a} (env : Env) (evLog : Types.Receipts.Log) (hloud : ¬ quiet) :
    Settles quiet (Fit env db a) (fun _ => True) (logDenied env evLog) := by
  rw [logDenied]
  split
  · exact trivial
  · next v hv =>
    cases hd : v.isLogDenied evLog with
    | ok b => exact trivial
    | error p =>
      refine ⟨hloud, fun hfit => ?_⟩
      obtain ⟨b, hb⟩ := hfit.1.answers v hv evLog
      rw [hd] at hb
      cases hb

theorem executes_makeLog (n : ℕ) : Executes w env op (n + 2) (some memoryLog) (makeLog n) := by
  refine executes_of_stays fun run evm scope hready => ?_
  obtain ⟨len, hlen, hle⟩ := hready.area
  have hstack := hready.stack
  obtain ⟨mStart, mSize, rest, hs⟩ := two_words (le_trans (le_add_left 2 n) hstack)
  rw [hs] at hlen hstack
  have harea : Within scope.memory mStart.uint64 mSize.uint64 := within_of_calc hlen hle
  obtain ⟨d, hd⟩ := getPtr_ok hready.sized harea
  have hrest : ¬ rest.length < n := by
    rw [length_cons, length_cons] at hstack
    omega
  rw [makeLog, hs]
  dsimp only
  rw [if_neg hrest, hd]
  refine (settles_logDenied env _ (hready.loud hwrite)).bind fun denied _ => ?_
  split
  · exact ⟨.refl evm, hready.sized, rfl⟩
  · exact stays_write hwrite hready (.of_reversible hC (reversible_addLog evm.db _) ⟨rfl, rfl⟩) _

end

end Geth.Vm.Executions
