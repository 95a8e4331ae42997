import Geth.Vm.Executions

namespace Geth.Vm.Frames

open Lib.BigEndian Common.Basic State.Revert State.Snapshots Machine
open GasTable Calls JumpTable Effects Metering Executions Nat UInt64
open SstoreGas (Placed)

variable {w : Prop} {env : Env} {readOnly : Bool} {evm : Evm} {gas : UInt64} {evm' : Evm}

/-- What a call leaves: no more gas than it got. -/
def Returned (w : Prop) (env : Env) (readOnly : Bool) (evm : Evm) (gas : UInt64) (r : Ran) : Prop :=
  r.gas.toNat ≤ gas.toNat ∧ Keeps w env readOnly evm r.evm

theorem keeps_loud (hloud : ¬ Quiet w env readOnly evm.db) {db}
    (h : Extends env.crypto env.backend evm.db db) : Keeps w env readOnly evm { evm with db } :=
  .db h fun hq => (hloud hq).elim

theorem Keeps.loud (h : Keeps w env readOnly evm evm') (hloud : ¬ Quiet w env readOnly evm.db) :
    ¬ Quiet w env readOnly evm'.db := by
  rintro ⟨hflag, hrules, hB, hw⟩
  rw [h.extended.trie] at hB
  exact hloud ⟨hflag, hrules, hB, hw⟩

theorem Keeps.weaken (h : Keeps w env true evm evm') : Keeps w env readOnly evm evm' :=
  ⟨h.depth, h.flag, h.extended, fun hq => h.unmoved ⟨rfl, hq.2⟩⟩

section

variable (hC : AddressesDistinct env.crypto)
include hC

theorem finish_spec {r : Ran} (h : Keeps w env readOnly { evm with db := evm.db.snapshot.2 } r.evm) :
    ∃ r', finish env evm.db.snapshot.1 r = .ok r' ∧ Returned w env readOnly evm r.gas r' := by
  have hbefore : Keeps w env readOnly evm { evm with db := evm.db.snapshot.2 } := .snapshot hC evm
  rw [finish]
  cases r.err with
  | none => exact ⟨r, rfl, le_rfl, hbefore.trans h⟩
  | some err =>
    have hafter := h.extended.after evm.db (After.start evm.db)
    obtain ⟨db, hdb, hsame⟩ := hafter.revert_self hC
    have hrevert : r.evm.db.revertToSnapshot env.crypto env.backend evm.db.snapshot.1 = .ok db := hdb
    dsimp only
    rw [hrevert]
    refine ⟨_, rfl, ?_, h.depth, h.flag, ⟨fun s₀ h₀ => ?_, fun hp => ?_, hsame.trie, fun a ha => ?_⟩,
      fun _ => .of_same hsame⟩
    · dsimp only
      split
      · exact le_rfl
      · exact zero_le _
    · -- an older snapshot survives a revert to this one
      have hold := (hbefore.trans h).extended.after s₀ h₀
      exact hold.revert_nested hC h₀.next_lt hdb
    · change Placed db.accessList
      rw [hsame.accessList]
      exact hp
    · change db.accessList.containsAddress a = true
      rw [hsame.accessList]
      exact ha

omit hC in
theorem returned_precompiled (p : PrecompiledContract) (input : Bytes) :
    Returned w env readOnly evm gas (runPrecompiledContract p evm input gas) := by
  rw [runPrecompiledContract]
  split
  · exact ⟨zero_le _, .refl evm⟩
  next h =>
    have hle := UInt64.not_lt.mp h
    refine ⟨?_, .refl evm⟩
    rw [UInt64.toNat_sub_of_le _ _ hle]
    exact sub_le _ _

theorem executing_spec (hp : Placed evm.db.accessList) (addr : Address) (input : Bytes) {runCode} {a : Address}
    (hrun : ∀ evm' code, Placed evm'.db.accessList → evm'.readOnly = evm.readOnly →
      Settles (Quiet w env readOnly evm'.db) (Fit env evm'.db a) (Returned w env readOnly evm' gas)
        (runCode evm' code)) :
    Settles (Quiet w env readOnly evm.db) (Fit env evm.db a) (Returned w env readOnly evm gas)
      (executing env evm addr input gas runCode) := by
  rw [executing]
  cases env.precompile addr with
  | some p => exact returned_precompiled p input
  | none =>
    dsimp only
    have hcode : Keeps w env readOnly evm
        { evm with db := (evm.db.getCode env.crypto env.backend addr).2 } :=
      .db (extends_read hC (reversible_getCode hC evm.db addr) (same_getCode evm.db addr)) fun _ =>
        .of_same (same_getCode evm.db addr)
    refine (hrun _ _ (hcode.placed hp) rfl).mono (fun r hr => ?_) hcode.quiet hcode.fit
    exact ⟨hr.1, hcode.trans hr.2⟩

theorem executing_finish {evm' : Evm} (hp : Placed evm.db.accessList)
    (hbegin : Keeps w env readOnly { evm with db := evm.db.snapshot.2 } evm') (addr : Address) (input : Bytes)
    {runCode} {a : Address}
    (hrun : ∀ evm₂ code, Placed evm₂.db.accessList → evm₂.readOnly = evm.readOnly →
      Settles (Quiet w env readOnly evm₂.db) (Fit env evm₂.db a) (Returned w env readOnly evm₂ gas)
        (runCode evm₂ code)) :
    Settles (Quiet w env readOnly evm.db) (Fit env evm.db a) (Returned w env readOnly evm gas) (do
      let r ← executing env evm' addr input gas runCode
      finish env evm.db.snapshot.1 r) := by
  have hstart := (Keeps.snapshot hC evm).trans hbegin
  have hplaced := hbegin.placed hp
  have hflag := hbegin.flag
  have hexec : Settles (Quiet w env readOnly evm'.db) (Fit env evm'.db a) (Returned w env readOnly evm' gas)
      (executing env evm' addr input gas runCode) :=
    executing_spec hC hplaced addr input fun evm₂ code hp₂ h₂ => hrun evm₂ code hp₂ (h₂.trans hflag)
  refine (hexec.relax hstart.quiet hstart.fit).bind fun r hr => ?_
  obtain ⟨r', hr', hle, hkeeps⟩ := finish_spec hC (hbegin.trans hr.2)
  rw [hr']
  exact ⟨hle.trans hr.1, hkeeps⟩

end

section

variable {run : Run} {limit : ℕ} (hC : AddressesDistinct env.crypto) (hruns : Runs w env run limit)
  (hgas : gas.toNat < limit) (hp : Placed evm.db.accessList) (caller : ContractRef)
include hC hruns hgas hp

omit hC hp in
theorem runs_contract {contract} (hcontract : contract.gas = gas) {evm' : Evm}
    (hp : Placed evm'.db.accessList) (hflag : evm'.readOnly = evm.readOnly) :
    Settles (Quiet w env evm.readOnly evm'.db) (Fit env evm'.db contract.address)
      (Returned w env evm.readOnly evm' gas) (run evm' contract false) := by
  have h := hruns evm' contract false hp (by rw [hcontract]; exact hgas)
  rw [hflag, Bool.or_false, hcontract] at h
  exact h

theorem callCode_spec (addr : Address) (input : Bytes) (value : ℤ) :
    Settles (Quiet w env evm.readOnly evm.db) (Fit env evm.db caller.address)
      (Returned w env evm.readOnly evm gas)
      (callCode run env evm caller addr input gas value) := by
  rw [callCode]
  split
  · exact ⟨le_rfl, .refl evm⟩
  split
  · exact ⟨le_rfl, .refl evm⟩
  exact executing_finish hC hp (.refl _) addr input fun evm₂ code hp₂ h₂ =>
    runs_contract hruns hgas rfl hp₂ h₂

theorem delegateCall_spec (parent : Contract) (addr : Address) (input : Bytes) :
    Settles (Quiet w env evm.readOnly evm.db) (Fit env evm.db parent.address)
      (Returned w env evm.readOnly evm gas)
      (delegateCall run env evm (.contract parent) addr input gas) := by
  rw [delegateCall]
  split
  · exact ⟨le_rfl, .refl evm⟩
  exact executing_finish hC hp (.refl _) addr input fun evm₂ code hp₂ h₂ =>
    runs_contract hruns hgas rfl hp₂ h₂

theorem staticCall_spec (addr : Address) (input : Bytes) :
    Settles (Quiet w env true evm.db) (Fit env evm.db addr) (Returned w env true evm gas)
      (staticCall run env evm caller addr input gas) := by
  rw [staticCall]
  split
  · exact ⟨le_rfl, .refl evm⟩
  have htouch : Keeps w env true { evm with db := evm.db.snapshot.2 }
      { evm with db := evm.db.snapshot.2.addBalance env.crypto env.backend addr 0 } :=
    ⟨rfl, rfl, extends_addBalance hC 0, fun hq => unmoved_addBalance hC hq.2.2.1⟩
  refine executing_finish hC hp htouch addr input fun evm₂ code hp₂ _ => ?_
  have h := hruns evm₂ (newContract caller addr 0 gas code input) true hp₂ hgas
  rw [Bool.or_true] at h
  exact h

theorem call_spec (addr : Address) (input : Bytes) {value : ℤ}
    (hstill : Quiet w env evm.readOnly evm.db → value = 0) :
    Settles (Quiet w env evm.readOnly evm.db) (Fit env evm.db addr) (Returned w env evm.readOnly evm gas)
      (call run env evm caller addr input gas value) := by
  have hsnap : Keeps w env evm.readOnly evm { evm with db := evm.db.snapshot.2 } := .snapshot hC evm
  rw [call]
  split
  · exact ⟨le_rfl, .refl evm⟩
  split
  · exact ⟨le_rfl, .refl evm⟩
  dsimp only
  split
  · exact ⟨le_rfl, hsnap⟩
  set db := evm.db.snapshot.2
  set db₁ := if db.exist env.crypto env.backend addr = true then db
    else db.createAccount env.crypto env.backend addr with hdb₁
  have hmade : Extends env.crypto env.backend db db₁ ∧
      (Quiet w env evm.readOnly db → Unmoved env.crypto env.backend db db₁) := by
    rw [hdb₁]
    split
    · exact ⟨.refl db, fun _ => .refl db⟩
    next hnone =>
      exact ⟨extends_createAccount hC, fun hq =>
        unmoved_createAccount hC hq.2.2.1 (Bool.not_eq_true _ ▸ hnone)⟩
  have hpaid : Extends env.crypto env.backend db₁ (transfer env db₁ caller.address addr value) :=
    (extends_subBalance hC value).trans (extends_addBalance hC value)
  have hbegin : Keeps w env evm.readOnly { evm with db }
      { evm with db := transfer env db₁ caller.address addr value } := by
    refine ⟨rfl, rfl, hmade.1.trans hpaid, fun hq => (hmade.2 hq).trans ?_⟩
    have hB₁ : SstoreGas.Coherent env.crypto env.backend db₁.trie := by
      rw [hmade.1.trie]
      exact hq.2.2.1
    have hsub := unmoved_subBalance (a := caller.address) hC hB₁
    have hB₂ : SstoreGas.Coherent env.crypto env.backend
        (db₁.subBalance env.crypto env.backend caller.address 0).trie := by
      rw [(extends_subBalance hC 0).trie]
      exact hB₁
    have hzero : value = 0 := hstill hq
    rw [hzero]
    exact hsub.trans (unmoved_addBalance hC hB₂)
  refine executing_finish hC hp hbegin addr input fun evm₂ code hp₂ h₂ => ?_
  split
  · exact ⟨le_rfl, .refl evm₂⟩
  · exact runs_contract hruns hgas rfl hp₂ h₂

end

section

variable {run : Run} {limit : ℕ} (hC : AddressesDistinct env.crypto) (hruns : Runs w env run limit)
  (hgas : gas.toNat < limit) (hp : Placed evm.db.accessList) (hloud : ¬ Quiet w env evm.readOnly evm.db)

include hC in
theorem deposit_spec {r : Ran} (hloud : ¬ Quiet w env readOnly evm.db) (address : Address)
    (h : Returned w env readOnly evm gas r) : Returned w env readOnly evm gas (deposit env address r) := by
  rw [deposit]
  split
  · exact h
  split
  · exact h
  split
  · exact h
  dsimp only
  split
  · exact h
  next hfee =>
    refine ⟨?_, h.2.trans ⟨rfl, rfl, extends_setCode hC r.ret, fun hq => ?_⟩⟩
    · rw [UInt64.toNat_sub_of_le _ _ (UInt64.not_lt.mp hfee)]
      exact (sub_le _ _).trans h.1
    · exact (Keeps.loud h.2 hloud hq).elim

include hC hruns hgas hp hloud

theorem create_spec (caller : ContractRef) (code : Bytes) (value : ℤ) (address : Address) :
    Settles (Quiet w env evm.readOnly evm.db) (Orderly env) (Returned w env evm.readOnly evm gas)
      (create run env evm caller code gas value address) := by
  rw [create]
  dsimp only
  split
  · exact ⟨le_rfl, .refl evm⟩
  split
  · exact ⟨le_rfl, .refl evm⟩
  split
  · exact ⟨le_rfl, .refl evm⟩
  split
  · exact ⟨le_rfl, .refl evm⟩
  set nonce := evm.db.getNonce env.crypto env.backend caller.address
  set db₁ := if env.rules.isBerlin = true then
      (evm.db.setNonce env.crypto env.backend caller.address (nonce + 1)).addAddressToAccessList address
    else evm.db.setNonce env.crypto env.backend caller.address (nonce + 1) with hdb₁
  have hfirst : Extends env.crypto env.backend evm.db db₁ := by
    rw [hdb₁]
    split
    · exact (extends_setNonce hC (nonce + 1)).trans (extends_addAddress hC _ address)
    · exact extends_setNonce hC (nonce + 1)
  have hkeeps : Keeps w env evm.readOnly evm { evm with db := db₁ } := keeps_loud hloud hfirst
  have hsnap : Keeps w env evm.readOnly { evm with db := db₁ } { evm with db := db₁.snapshot.2 } :=
    .snapshot hC { evm with db := db₁ }
  split
  · exact ⟨zero_le _, hkeeps⟩
  set db₂ := if env.rules.isEIP158 = true then
      (db₁.snapshot.2.createAccount env.crypto env.backend address).setNonce env.crypto env.backend address 1
    else db₁.snapshot.2.createAccount env.crypto env.backend address with hdb₂
  have hmade : Extends env.crypto env.backend db₁.snapshot.2 db₂ := by
    rw [hdb₂]
    split
    · exact (extends_createAccount hC).trans (extends_setNonce hC 1)
    · exact extends_createAccount hC
  have hpaid : Extends env.crypto env.backend db₂ (transfer env db₂ caller.address address value) :=
    (extends_subBalance hC value).trans (extends_addBalance hC value)
  have hbegin : Keeps w env evm.readOnly { evm with db := db₁.snapshot.2 }
      { evm with db := transfer env db₂ caller.address address value } :=
    keeps_loud (Keeps.loud (hkeeps.trans hsnap) hloud) (hmade.trans hpaid)
  have hstart := hkeeps.trans (hsnap.trans hbegin)
  split
  · exact ⟨le_rfl, hstart⟩
  have hlisted (ho : Orderly env) : Fit env (transfer env db₂ caller.address address value) address := by
    refine Fit.extends ⟨ho, fun huses => ?_⟩ ((hsnap.trans hbegin).extended)
    change db₁.accessList.containsAddress address = true
    rw [hdb₁, if_pos (ho.berlin huses)]
    exact listed_addAddress _ address
  have hrun : Settles (Quiet w env evm.readOnly (transfer env db₂ caller.address address value))
      (Fit env (transfer env db₂ caller.address address value) address) (Returned w env evm.readOnly { evm with db := transfer env db₂ caller.address address value } gas)
      (run { evm with db := transfer env db₂ caller.address address value }
        (newContract caller address value gas code []) false) :=
    runs_contract hruns hgas rfl (hstart.placed hp) rfl
  refine (hrun.relax hstart.quiet hlisted).bind fun r hr => ?_
  have hdeposit := deposit_spec hC (Keeps.loud hstart hloud) address hr
  split
  · exact ⟨hdeposit.1, hstart.trans hdeposit.2⟩
  have hrest : Keeps w env evm.readOnly { evm with db := db₁.snapshot.2 } (deposit env address r).evm :=
    hbegin.trans hdeposit.2
  obtain ⟨r', hr', hle, hfinish⟩ : ∃ r', finish env db₁.snapshot.1 (deposit env address r) = .ok r' ∧
      Returned w env evm.readOnly { evm with db := db₁ } (deposit env address r).gas r' :=
    @finish_spec w env evm.readOnly { evm with db := db₁ } hC (deposit env address r) hrest
  rw [hr']
  exact ⟨hle.trans hdeposit.1, hkeeps.trans hfinish⟩

end

section

variable {op : UInt8} (hC : AddressesDistinct env.crypto)
include hC

omit hC in
theorem afterCall_spec {scope} {retOffset retSize : Word} (hm : Sized scope.memory)
    (hret : Within scope.memory retOffset.uint64 retSize.uint64) {quiet fit : Prop} {evm : Evm} {bound : ℕ}
    (rest : List Word) {r : Ran} (hle : r.gas.toNat ≤ bound) (hkeeps : Keeps w env evm.readOnly evm r.evm) :
    Settles quiet fit (fun x : Executed => Keeps w env evm.readOnly evm x.evm ∧ Sized x.scope.memory ∧
        x.scope.contract.address = scope.contract.address ∧ x.scope.contract.gas.toNat ≤ scope.contract.gas.toNat + bound)
      (afterCall scope rest retOffset retSize r) := by
  have hback : (scope.contract.gas + r.gas).toNat ≤ scope.contract.gas.toNat + bound := by
    rw [UInt64.toNat_add]
    exact (mod_le _ _).trans (Nat.add_le_add_left hle _)
  rw [afterCall]
  split
  · obtain ⟨memory, hset, hsized⟩ := set_ok hm hret r.ret
    rw [hset]
    exact ⟨hkeeps, hsized, rfl, hback⟩
  · exact ⟨hkeeps, hm, rfl, hback⟩

omit hC in
theorem extra_valued (hcall : isCall op = true) (hvalued : isValued op = true) (evm : Evm) (t addr value : Word)
    (rest : List Word) :
    extra op evm (t :: addr :: value :: rest) =
      evm.callGasTemp.toNat + if value ≠ 0 then callStipend.toNat else 0 := by
  have hback : back (t :: addr :: value :: rest) 2 = value := rfl
  rw [extra, if_pos hcall, hback]
  by_cases hv : value ≠ 0
  · rw [if_pos hv, if_pos ⟨hvalued, hv⟩]
  · rw [if_neg hv, if_neg fun h => hv h.2]

omit hC in
theorem stipend_le (temp : UInt64) (value : Word) : (if value ≠ 0 then temp + callStipend else temp).toNat ≤
    temp.toNat + if value ≠ 0 then callStipend.toNat else 0 := by
  by_cases hv : value ≠ 0
  · rw [if_pos hv, if_pos hv, UInt64.toNat_add]
    exact mod_le _ _
  · rw [if_neg hv, if_neg hv]
    exact le_rfl

omit hC in
theorem extra_plain (hcall : isCall op = true) (hvalued : isValued op = false) (evm : Evm) (stack : List Word) :
    extra op evm stack = evm.callGasTemp.toNat := by
  rw [extra, if_pos hcall, hvalued, if_neg fun h => Bool.false_ne_true h.1]
  rfl

omit hC in
theorem executes_calling (hcall : isCall op = true) (hvalued : isValued op = true) (hnests : nests op = true)
    {f}
    (hf : ∀ {run limit gas evm}, Runs w env run limit → gas.toNat < limit → Placed evm.db.accessList →
      ∀ caller addr input (value : Word), (op = OpCode.call → Quiet w env evm.readOnly evm.db → value = 0) →
        Settles (Quiet w env evm.readOnly evm.db) (Fit env evm.db caller.address ∧ Fit env evm.db addr)
          (Returned w env evm.readOnly evm gas) (f run env evm caller addr input gas value.toNat)) :
    Executes w env op 7 (some memoryCall) (calling f) := by
  intro run evm scope limit hready hnest
  obtain ⟨hruns, hlt⟩ := hnest hnests
  obtain ⟨n, hn, hle⟩ := hready.area
  obtain ⟨t, addr, value, inOffset, inSize, retOffset, retSize, rest, hs⟩ := seven_words hready.stack
  have hstill := hready.still
  have htarget := hready.target hcall
  rw [hs] at hn hlt hstill htarget ⊢
  rw [extra_valued hcall hvalued] at hlt ⊢
  obtain ⟨hin, hret⟩ := within_of_both hn hle
  have hargs : Within scope.memory inOffset.uint64 inSize.uint64 := hin
  obtain ⟨args, hget⟩ := getPtr_ok hready.sized hargs
  have hgas := stipend_le evm.callGasTemp value
  rw [calling, hs]
  dsimp only
  rw [hget]
  have hcalled := hf hruns (lt_of_le_of_lt (hgas.trans (le_add_left _ _)) hlt) hready.placed
    (.contract scope.contract) addr.bytes20 args value hstill
  refine (hcalled.relax id fun hfit => ⟨hfit, hfit.1, htarget hfit.1⟩).bind fun r hr => ?_
  exact afterCall_spec hready.sized hret rest (hr.1.trans hgas) hr.2

omit hC in
theorem executes_callingPlain (hcall : isCall op = true) (hvalued : isValued op = false)
    (hnests : nests op = true)
    {f}
    (hf : ∀ {run limit gas evm}, Runs w env run limit → gas.toNat < limit → Placed evm.db.accessList →
      ∀ parent addr input, Settles (Quiet w env evm.readOnly evm.db)
        (Fit env evm.db parent.address ∧ Fit env evm.db addr) (Returned w env evm.readOnly evm gas)
        (f run env evm (.contract parent) addr input gas)) :
    Executes w env op 6 (some memoryDelegateCall) (callingPlain f) := by
  intro run evm scope limit hready hnest
  obtain ⟨hruns, hlt⟩ := hnest hnests
  obtain ⟨n, hn, hle⟩ := hready.area
  obtain ⟨t, addr, inOffset, inSize, retOffset, retSize, rest, hs⟩ := six_words hready.stack
  rw [extra_plain hcall hvalued] at hlt ⊢
  have htarget := hready.target hcall
  rw [hs] at hn htarget
  obtain ⟨hin, hret⟩ := within_of_both hn hle
  have hargs : Within scope.memory inOffset.uint64 inSize.uint64 := hin
  obtain ⟨args, hget⟩ := getPtr_ok hready.sized hargs
  rw [callingPlain, hs]
  dsimp only
  rw [hget]
  have hcalled := hf hruns (lt_of_le_of_lt (le_add_left _ _) hlt) hready.placed scope.contract
    addr.bytes20 args
  refine (hcalled.relax id fun hfit => ⟨hfit, hfit.1, htarget hfit.1⟩).bind fun r hr => ?_
  exact afterCall_spec hready.sized hret rest hr.1 hr.2

theorem executes_opCall : Executes w env OpCode.call 7 (some memoryCall) opCall := by
  refine executes_calling rfl rfl rfl fun hruns hgas hp caller addr input value hstill => ?_
  refine (call_spec hC hruns hgas hp caller addr input fun hq => ?_).relax id And.right
  rw [hstill rfl hq]
  rfl

theorem executes_opCallCode : Executes w env OpCode.callCode 7 (some memoryCall) opCallCode :=
  executes_calling rfl rfl rfl fun hruns hgas hp caller addr input value _ =>
    (callCode_spec hC hruns hgas hp caller addr input value.toNat).relax id And.left

theorem executes_opDelegateCall : Executes w env OpCode.delegateCall 6 (some memoryDelegateCall) opDelegateCall :=
  executes_callingPlain rfl rfl rfl fun hruns hgas hp parent addr input =>
    (delegateCall_spec hC hruns hgas hp parent addr input).relax id And.left

theorem executes_opStaticCall : Executes w env OpCode.staticCall 6 (some memoryStaticCall) opStaticCall :=
  executes_callingPlain rfl rfl rfl fun hruns hgas hp parent addr input =>
    (staticCall_spec hC hruns hgas hp (.contract parent) addr input).mono
      (fun _ hr => ⟨hr.1, Keeps.weaken hr.2⟩) (fun hq => ⟨rfl, hq.2⟩) And.right

omit hC in
theorem afterCreate_spec {scope : Scope} (hm : Sized scope.memory) {gas : UInt64} (hle : gas ≤ scope.contract.gas)
    {evm : Evm} {r : Ran} (hr : Returned w env evm.readOnly evm gas r) (rest : List Word) (failed : Bool)
    (addr : Address) (n : ℕ) :
    let x := afterCreate { scope with contract := { scope.contract with gas := scope.contract.gas - gas } }
      rest failed addr r
    Keeps w env evm.readOnly evm x.evm ∧ Sized x.scope.memory ∧
      x.scope.contract.address = scope.contract.address ∧
        x.scope.contract.gas.toNat ≤ scope.contract.gas.toNat + n := by
  refine ⟨hr.2, hm, rfl, ?_⟩
  change (scope.contract.gas - gas + r.gas).toNat ≤ _
  have hsub := UInt64.toNat_sub_of_le _ _ hle
  have hgas := le_iff_toNat_le.mp hle
  have hback := hr.1
  rw [UInt64.toNat_add, hsub]
  refine (mod_le _ _).trans ?_
  omega

omit hC in
theorem sub_div_le (gas : UInt64) : gas - gas / 64 ≤ gas := by
  have hle : gas / 64 ≤ gas := by
    rw [le_iff_toNat_le, UInt64.toNat_div]
    exact div_le_self _ _
  rw [le_iff_toNat_le, UInt64.toNat_sub_of_le _ _ hle]
  exact sub_le _ _

theorem executes_opCreate : Executes w env OpCode.create 3 (some memoryCreate) opCreate := by
  intro run evm scope limit hready hnest
  obtain ⟨hruns, hlt⟩ := hnest rfl
  obtain ⟨value, offset, size, rest, hs⟩ := three_words hready.stack
  obtain ⟨input, hget⟩ := getPtr_ok hready.sized (hready.within offset size hs rfl)
  have hgas : (if env.rules.isEIP150 = true then scope.contract.gas - scope.contract.gas / 64
      else scope.contract.gas) ≤ scope.contract.gas := by
    split
    · exact sub_div_le _
    · exact UInt64.le_refl _
  rw [opCreate, hs]
  dsimp only
  rw [hget]
  have hcreated := create_spec hC hruns (lt_of_le_of_lt
    ((le_iff_toNat_le.mp hgas).trans (le_add_right _ _)) hlt) hready.placed (hready.loud rfl)
  refine ((hcreated _ _ _ _).relax id And.left).bind fun r hr => ?_
  exact afterCreate_spec hready.sized hgas hr rest _ _ _

theorem executes_opCreate2 : Executes w env OpCode.create2 4 (some memoryCreate2) opCreate2 := by
  intro run evm scope limit hready hnest
  obtain ⟨hruns, hlt⟩ := hnest rfl
  obtain ⟨endowment, offset, size, salt, rest, hs⟩ := four_words hready.stack
  obtain ⟨input, hget⟩ := getPtr_ok hready.sized (hready.within offset size hs rfl)
  have hgas := sub_div_le scope.contract.gas
  rw [opCreate2, hs]
  dsimp only
  rw [hget]
  have hcreated := create_spec hC hruns (lt_of_le_of_lt
    ((le_iff_toNat_le.mp hgas).trans (le_add_right _ _)) hlt) hready.placed (hready.loud rfl)
  refine ((hcreated _ _ _ _).relax id And.left).bind fun r hr => ?_
  exact afterCreate_spec hready.sized hgas hr rest _ _ _

end

end Geth.Vm.Frames
