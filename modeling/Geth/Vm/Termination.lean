import Geth.Vm.Soundness

namespace Geth.Vm.Termination

open Lib.BigEndian Common.Basic State.Journal State.Revert State.Snapshots Machine
open GasTable Calls JumpTable Interpreter Effects Metering Executions Frames Soundness List Nat UInt64
open SstoreGas (Placed Coherent placed_new)
open SstoreMetering (coherent_of_none)

variable {w : Prop} {env : Env} {evm : Evm} {scope : Scope} {run : Run} {op : UInt8} {o : Operation}

section

theorem not_halt_of_nests (h : nests op = true) : isHalt op = false := by
  have hmem := of_decide_eq_true h
  simp only [mem_cons, not_mem_nil, or_false] at hmem
  obtain rfl | rfl | rfl | rfl | rfl | rfl := hmem <;> rfl

theorem nests_of_call (h : isCall op = true) : nests op = true := by
  have hmem := of_decide_eq_true h
  simp only [mem_cons, not_mem_nil, or_false] at hmem
  obtain rfl | rfl | rfl | rfl := hmem <;> rfl

theorem useGas_eq_some {contract contract'} {gas} (h : useGas contract gas = some contract') :
    contract' = { contract with gas := contract.gas - gas } ∧
      contract'.gas.toNat + gas.toNat = contract.gas.toNat := by
  rw [useGas] at h
  by_cases hlt : contract.gas < gas
  · rw [if_pos hlt] at h
    cases h
  rw [if_neg hlt] at h
  cases h
  have hle := UInt64.not_lt.mp hlt
  refine ⟨rfl, ?_⟩
  have hnat := le_iff_toNat_le.mp hle
  rw [UInt64.toNat_sub_of_le _ _ hle]
  omega

theorem safeMul_words {n size} (h : safeMul (toWordSize n) 32 = some size) :
    32 ∣ size.toNat ∧ n.toNat ≤ size.toNat := by
  rw [safeMul] at h
  by_cases hlt : (toWordSize n).toNat * (32 : UInt64).toNat < 2 ^ 64
  · rw [if_pos hlt] at h
    cases h
    have hsize : (toWordSize n * 32).toNat = (toWordSize n).toNat * 32 := by
      rw [UInt64.toNat_mul]
      exact mod_eq_of_lt hlt
    rw [hsize]
    refine ⟨Dvd.intro_left _ rfl, ?_⟩
    rw [toWordSize] at hlt ⊢
    by_cases hbig : 0xFFFFFFFFFFFFFFFF - 31 < n
    · rw [if_pos hbig] at hlt
      exact absurd hlt (by decide)
    rw [if_neg hbig]
    rw [lt_iff_toNat_lt] at hbig
    have hbound : (0xFFFFFFFFFFFFFFFF - 31 : UInt64).toNat = 2 ^ 64 - 32 := by decide
    rw [UInt64.toNat_div, UInt64.toNat_add]
    change n.toNat ≤ (n.toNat + 31) % 2 ^ 64 / 32 * 32
    omega
  rw [if_neg hlt] at h
  cases h

/-- The memory that is asked for is in whole words, and covers what the
operation uses. -/
theorem requiredMemory_eq_ok {stack} {size} (h : requiredMemory o stack = .ok size) :
    32 ∣ size.toNat ∧ (o.memorySize = none → size = 0) ∧
      ∀ f, o.memorySize = some f → ∃ n, f stack = some n ∧ n.toNat ≤ size.toNat := by
  rw [requiredMemory] at h
  cases hf : o.memorySize with
  | none =>
    rw [hf] at h
    cases h
    exact ⟨dvd_zero _, fun _ => rfl, fun _ hnone => by cases hnone⟩
  | some f =>
    rw [hf] at h
    dsimp only at h
    cases hn : f stack with
    | none =>
      rw [hn] at h
      cases h
    | some n =>
      rw [hn] at h
      dsimp only at h
      cases hsize : safeMul (toWordSize n) 32 with
      | none =>
        rw [hsize] at h
        cases h
      | some size' =>
        rw [hsize] at h
        cases h
        obtain ⟨hdvd, hle⟩ := safeMul_words hsize
        refine ⟨hdvd, fun hnone => (Option.some_ne_none f hnone).elim, fun f' hf' => ?_⟩
        cases hf'
        exact ⟨n, hn, hle⟩

end

/-- A step that goes on leaves less gas. -/
def Progress (w : Prop) (env : Env) (evm : Evm) (scope : Scope) : Outcome → Prop
  | .finished r => Returned w env evm.readOnly evm scope.contract.gas r
  | .going evm' scope' => scope'.contract.gas.toNat < scope.contract.gas.toNat ∧
      Keeps w env evm.readOnly evm evm' ∧ Sized scope'.memory ∧ scope'.contract.address = scope.contract.address

section

variable {evm' : Evm} {size : UInt64} {table : JumpTable}

theorem progress_failing (err : VmError) (h : Keeps w env evm.readOnly evm evm') {gas}
    (hle : gas.toNat ≤ scope.contract.gas.toNat) {quiet fit : Prop} :
    Settles quiet fit (Progress w env evm scope) (failing err evm' gas) :=
  ⟨hle, h⟩

theorem progress_conclude {r} (hkeeps : Keeps w env evm.readOnly evm r.evm)
    (hm : Sized r.scope.memory) (haddress : r.scope.contract.address = scope.contract.address)
    (hle : r.scope.contract.gas.toNat ≤ scope.contract.gas.toNat)
    (hlt : o.halts = false → o.reverts = false → r.scope.contract.gas.toNat < scope.contract.gas.toNat) :
    Progress w env evm scope (conclude o r) := by
  have hafter : Keeps w env evm.readOnly evm
      (if o.returns = true then { r.evm with returnData := r.res } else r.evm) := by
    split
    · exact ⟨hkeeps.depth, hkeeps.flag, hkeeps.extended, hkeeps.unmoved⟩
    · exact hkeeps
  rw [conclude]
  split
  · exact ⟨hle, hafter⟩
  split
  · exact ⟨hle, hafter⟩
  next hreverts =>
    split
    · exact ⟨hle, hafter⟩
    next hhalts =>
      exact ⟨hlt (Bool.not_eq_true _ ▸ hhalts) (Bool.not_eq_true _ ▸ hreverts), hafter, hm, haddress⟩

theorem meter_spec (scope : Scope) (hs : Sound w env op o) (hp : Placed evm.db.accessList)
    (hm : Sized scope.memory) (hsize : requiredMemory o scope.stack = .ok size)
    (hloud : isWrite op = true → ¬ Quiet w env evm.readOnly evm.db) :
    Settles (Quiet w env evm.readOnly evm.db) (Fit env evm.db scope.contract.address)
      (fun m => Keeps w env evm.readOnly evm m.evm ∧ ∀ cost, m.cost = .ok cost →
        Sized (grown m.memory size) ∧ extra op m.evm scope.stack ≤ cost.toNat)
      (meter o env evm scope size) := by
  obtain ⟨hdvd, hnone, _⟩ := requiredMemory_eq_ok hsize
  have hzero : usesMemory op = false → size = 0 := fun h => hnone (hs.memory h)
  rw [meter]
  obtain ⟨hgas, hmemory, hcall⟩ | ⟨f, hgas, hf⟩ := hs.meters
  · rw [hgas]
    refine ⟨.refl evm, fun cost _ => ?_⟩
    rw [hzero hmemory, grown_zero, extra_of_not_call hcall]
    exact ⟨hm, zero_le _⟩
  rw [hgas]
  exact hf evm scope size hp hm hdvd hzero hloud

theorem priced_spec {contract contract' : Contract} {cost : UInt64} {memory : Memory}
    (hs : Sound w env op o) (hp : Placed evm.db.accessList) (hhalt : isHalt op = false)
    (hmetered : meter o env evm { scope with contract } size = .ok ⟨.ok cost, evm', memory⟩)
    (hextra : extra op evm' scope.stack ≤ cost.toNat)
    (hpaid : contract.gas.toNat + o.constantGas.toNat = scope.contract.gas.toNat)
    (hpaid' : contract'.gas.toNat + cost.toNat = contract.gas.toNat) :
    contract'.gas.toNat + extra op evm' scope.stack < scope.contract.gas.toNat := by
  by_cases hnests : nests op = true
  · have hconstant := hs.nested hnests
    omega
  have hcall : isCall op = false := Bool.not_eq_true _ ▸ fun h => hnests (nests_of_call h)
  rw [extra_of_not_call hcall]
  obtain h | hconstant | ⟨f, hf, hcharges⟩ := hs.priced
  · rw [hhalt] at h
    cases h
  · omega
  rw [meter, hf] at hmetered
  have hcost := hcharges evm { scope with contract } size _ cost hp hmetered rfl
  omega

theorem execute_spec (scope : Scope) (hs : Sound w env op o) (hm : Sized scope.memory) (hp : Placed evm.db.accessList)
    (hstack : o.minStack ≤ scope.stack.length)
    (hmemory : ∀ f, o.memorySize = some f → ∃ n, f scope.stack = some n ∧
      n.toNat ≤ scope.memory.store.length)
    (hloud : isWrite op = true → ¬ Quiet w env evm.readOnly evm.db)
    (htarget : isCall op = true → Orderly env → Listed env evm.db (back scope.stack 1).bytes20)
    (hstill : op = OpCode.call → Quiet w env evm.readOnly evm.db → back scope.stack 2 = 0) {limit : ℕ}
    (hruns : Runs w env run limit) (hle : scope.contract.gas.toNat + extra op evm scope.stack ≤ limit)
    (hlt : isHalt op = false → scope.contract.gas.toNat + extra op evm scope.stack < limit) :
    Settles (Quiet w env evm.readOnly evm.db) (Fit env evm.db scope.contract.address)
      (fun r => Keeps w env evm.readOnly evm r.evm ∧ Sized r.scope.memory ∧
        r.scope.contract.address = scope.contract.address ∧ r.scope.contract.gas.toNat ≤ limit ∧
        (o.halts = false → o.reverts = false → r.scope.contract.gas.toNat < limit))
      (o.execute run env evm scope) := by
  have hexec := hs.executes run evm scope limit ⟨hp, hm, hstack, hmemory, hloud, htarget, hstill⟩
    fun h => ⟨hruns, hlt (not_halt_of_nests h)⟩
  refine hexec.mono (fun r hr => ⟨hr.1, hr.2.1, hr.2.2.1, hr.2.2.2.trans hle, fun hhalts hreverts => ?_⟩) id id
  refine lt_of_le_of_lt hr.2.2.2 (hlt ?_)
  by_contra hhalt
  rw [Bool.not_eq_false] at hhalt
  obtain h | h := hs.halts hhalt
  · rw [hhalts] at h
    cases h
  rw [hreverts] at h
  cases h

theorem perform_spec (hs : Sound w env op o) (hp : Placed evm.db.accessList) (hm : Sized scope.memory)
    (hstack : o.minStack ≤ scope.stack.length)
    (hloud : isWrite op = true → ¬ Quiet w env evm.readOnly evm.db)
    (htarget : ∀ contract size m, meter o env evm { scope with contract } size = .ok m → isCall op = true →
      Orderly env → Listed env m.evm.db (back scope.stack 1).bytes20)
    (hstill : op = OpCode.call → Quiet w env evm.readOnly evm.db → back scope.stack 2 = 0)
    (hruns : Runs w env run scope.contract.gas.toNat) :
    Settles (Quiet w env evm.readOnly evm.db) (Fit env evm.db scope.contract.address) (Progress w env evm scope) (perform run env o evm scope) := by
  rw [perform]
  cases hfirst : useGas scope.contract o.constantGas with
  | none => exact progress_failing .outOfGas (.refl evm) (le_rfl)
  | some contract =>
    obtain ⟨hcontract, hpaid⟩ := useGas_eq_some hfirst
    cases hsize : requiredMemory o scope.stack with
    | error err => exact progress_failing err (.refl evm) (by omega)
    | ok size =>
      dsimp only
      obtain ⟨_, _, hcovers⟩ := requiredMemory_eq_ok hsize
      have hmeter := meter_spec { scope with contract } hs hp hm hsize hloud
      cases hmetered : meter o env evm { scope with contract } size with
      | error e =>
        rw [hmetered, hcontract] at hmeter
        cases e <;> exact hmeter
      | ok m =>
        rw [hmetered] at hmeter
        obtain ⟨cost, evm', memory⟩ := m
        obtain ⟨hkeeps, hcost⟩ := hmeter
        dsimp only [bind, Except.bind]
        cases cost with
        | error e => exact progress_failing .outOfGas hkeeps (by omega)
        | ok cost =>
          obtain ⟨hsized, hbound⟩ := hcost cost rfl
          have hextra : extra op evm' scope.stack ≤ cost.toNat := hbound
          dsimp only
          cases hsecond : useGas contract cost with
          | none => exact progress_failing .outOfGas hkeeps (by omega)
          | some contract' =>
            obtain ⟨hcontract', hpaid'⟩ := useGas_eq_some hsecond
            have haddress : contract'.address = scope.contract.address := by
              rw [hcontract', hcontract]
            have hgas : contract'.gas.toNat + extra op evm' scope.stack ≤ scope.contract.gas.toNat := by
              omega
            have hless (hhalt : isHalt op = false) :
                contract'.gas.toNat + extra op evm' scope.stack < scope.contract.gas.toNat :=
              priced_spec hs hp hhalt hmetered hextra hpaid hpaid'
            have hquiet : Quiet w env evm'.readOnly evm'.db ↔ Quiet w env evm.readOnly evm.db := by
              rw [hkeeps.flag]
              exact ⟨fun hq => by_contra fun hn => Keeps.loud hkeeps hn hq, hkeeps.quiet⟩
            have hcovered (f : MemorySizeFunc) (hf : o.memorySize = some f) : ∃ n, f scope.stack = some n ∧
                n.toNat ≤ (grown memory size).store.length := by
              obtain ⟨n, hn, hle⟩ := hcovers f hf
              refine ⟨n, hn, ?_⟩
              rw [length_grown]
              exact hle.trans (le_max_right _ _)
            have hexec := execute_spec { scope with contract := contract', memory := grown memory size }
              hs hsized (hkeeps.placed hp) hstack hcovered (fun hw hq => hloud hw (hquiet.mp hq))
              (htarget contract size _ hmetered) (fun hop hq => hstill hop (hquiet.mp hq)) hruns hgas hless
            have hfit (h : Fit env evm.db scope.contract.address) : Fit env evm'.db contract'.address := by
              rw [haddress]
              exact hkeeps.fit h
            refine (hexec.relax hquiet.mpr hfit).bind fun r hr => ?_
            have hafter : Keeps w env evm.readOnly evm r.evm := by
              have h := hr.1
              rw [hkeeps.flag] at h
              exact hkeeps.trans h
            exact progress_conclude hafter hr.2.1 (hr.2.2.1.trans haddress) hr.2.2.2.1 hr.2.2.2.2

theorem validate_lookup (h : validate table env evm scope = .ok o) :
    table.lookup (scope.contract.getOp scope.pc) = some o := by
  rw [validate] at h
  split at h
  · cases h
  · next hlookup =>
    split_ifs at h
    cases h
    exact hlookup

theorem validate_eq_ok (h : validate table env evm scope = .ok o) :
    (scope.contract.getOp scope.pc, o) ∈ table ∧ o.minStack ≤ scope.stack.length ∧
      ((evm.readOnly && env.rules.isByzantium) = true →
        o.writes = false ∧ (scope.contract.getOp scope.pc = OpCode.call → back scope.stack 2 = 0)) := by
  rw [validate] at h
  cases hlookup : table.lookup (scope.contract.getOp scope.pc) with
  | none =>
    rw [hlookup] at h
    cases h
  | some o' =>
    rw [hlookup] at h
    dsimp only at h
    split at h
    · cases h
    next hmin =>
      split at h
      · cases h
      split at h
      · cases h
      next hprotected =>
        cases h
        refine ⟨?_, Nat.le_of_not_lt hmin, fun hro => ⟨?_, fun hop => ?_⟩⟩
        · obtain ⟨l₁, l₂, htable, _⟩ := lookup_eq_some_iff.mp hlookup
          rw [htable]
          exact mem_append_right _ mem_cons_self
        · by_contra hwrites
          exact hprotected ⟨hro, .inl (Bool.not_eq_false _ ▸ hwrites)⟩
        by_contra hvalue
        exact hprotected ⟨hro, .inr ⟨hop, hvalue⟩⟩

set_option maxRecDepth 4000 in
/-- From Berlin on a call is charged for the access to its callee. -/
theorem lookup_calls {rules : Rules} (huses : usesAccessList rules = true) (hcall : isCall op = true) :
    ∃ o due, (instructionSet rules).lookup op = some o ∧
      o.dynamicGas = some (makeCallVariantGasCallEIP2929 (callVariant due)) := by
  have hmem := of_decide_eq_true hcall
  simp only [mem_cons, not_mem_nil, or_false] at hmem
  rw [instructionSet]
  iterate 2
    split
    · obtain rfl | rfl | rfl | rfl := hmem <;> exact ⟨_, _, rfl, rfl⟩
  next hlondon hberlin =>
    rw [usesAccessList, Bool.or_eq_true] at huses
    exact (huses.elim hlondon hberlin).elim

theorem step_spec (hC : AddressesDistinct env.crypto) (hE : env.rules.isEIP150 = true)
    (hp : Placed evm.db.accessList) (hm : Sized scope.memory)
    (hruns : Runs w env run scope.contract.gas.toNat) :
    Settles (Quiet w env evm.readOnly evm.db) (Fit env evm.db scope.contract.address) (Progress w env evm scope)
      (step (instructionSet env.rules) run env evm scope) := by
  have htable : SoundTable w env (instructionSet env.rules) := sound_instructionSet hC hE
  rw [step]
  cases hvalid : validate (instructionSet env.rules) env evm scope with
  | error err => exact progress_failing err (.refl evm) (le_rfl)
  | ok o =>
    obtain ⟨hmem, hstack, hprotected⟩ := validate_eq_ok hvalid
    have hs := htable _ hmem
    have hguard (hq : Quiet w env evm.readOnly evm.db) : (evm.readOnly && env.rules.isByzantium) = true := by
      rw [hq.1, hq.2.1]
      rfl
    refine perform_spec hs hp hm hstack (fun hwrite hq => ?_) (fun contract size m hmetered hcall _ huses => ?_)
      (fun hop hq => ?_) hruns
    · have h := hs.writes hwrite
      rw [(hprotected (hguard hq)).1] at h
      cases h
    · obtain ⟨o', due, hlookup, hgas⟩ := lookup_calls huses hcall
      cases (validate_lookup hvalid).symm.trans hlookup
      rw [meter, hgas] at hmetered
      exact @listed_callEIP2929 env due evm { scope with contract } size m hmetered
    · exact (hprotected (hguard hq)).2 hop

end

section

theorem runs_enter {loop} {limit : ℕ}
    (h : ∀ evm scope, Placed evm.db.accessList → Sized scope.memory → scope.contract.gas.toNat < limit →
      Settles (Quiet w env evm.readOnly evm.db) (Fit env evm.db scope.contract.address)
        (Returned w env evm.readOnly evm scope.contract.gas) (loop evm scope)) : Runs w env (enter loop) limit := by
  intro evm contract readOnly hp hgas
  rw [enter]
  set inner : Evm := { evm with depth := evm.depth + 1, readOnly := evm.readOnly || readOnly, returnData := [] }
  have hrun : Settles (Quiet w env (evm.readOnly || readOnly) evm.db) (Fit env evm.db contract.address)
      (Returned w env (evm.readOnly || readOnly) inner contract.gas)
      (runCode loop inner contract) := by
    rw [runCode]
    split
    · exact ⟨le_rfl, .refl inner⟩
    · exact h inner ⟨0, [], Memory.new, contract⟩ hp Sized.new hgas
  refine hrun.bind fun r hr => ?_
  refine ⟨hr.1, ?_, ?_, hr.2.extended, hr.2.unmoved⟩
  · change r.evm.depth - 1 = evm.depth
    rw [hr.2.depth]
    rfl
  change (if (readOnly && !evm.readOnly) = true then false else r.evm.readOnly) = evm.readOnly
  rw [hr.2.flag]
  change (if (readOnly && !evm.readOnly) = true then false else evm.readOnly || readOnly) = evm.readOnly
  cases readOnly <;> cases evm.readOnly <;> rfl

variable (hC : AddressesDistinct env.crypto) (hE : env.rules.isEIP150 = true)
include hC hE

theorem loop_spec (fuel : ℕ) (evm : Evm) (scope : Scope)
    (hp : Placed evm.db.accessList) (hm : Sized scope.memory) (hgas : scope.contract.gas.toNat < fuel) :
    Settles (Quiet w env evm.readOnly evm.db) (Fit env evm.db scope.contract.address)
      (Returned w env evm.readOnly evm scope.contract.gas) (loop (instructionSet env.rules) env fuel evm scope) := by
  induction fuel generalizing evm scope with
  | zero => exact absurd hgas (not_lt_zero _)
  | succ fuel ih =>
    -- the callees of the step have less gas than the contract
    have hruns : Runs w env (enter (loop (instructionSet env.rules) env fuel)) scope.contract.gas.toNat :=
      runs_enter fun evm' scope' hp' hm' hlt => ih evm' scope' hp' hm' (by omega)
    rw [loop]
    refine (step_spec hC hE hp hm hruns).bind fun outcome hprogress => ?_
    cases outcome with
    | finished r => exact hprogress
    | going evm' scope' =>
      obtain ⟨hlt, hkeeps, hm', haddress⟩ := hprogress
      have hrest := ih evm' scope' (hkeeps.placed hp) hm' (by omega)
      rw [hkeeps.flag, haddress] at hrest
      refine hrest.mono (fun r hr => ⟨?_, hkeeps.trans hr.2⟩) hkeeps.quiet hkeeps.fit
      exact hr.1.trans (le_of_lt hlt)

theorem runs_interpreter (limit : ℕ) : Runs w env (interpreterRun env) limit := by
  intro evm contract readOnly hp _
  exact runs_enter (loop_spec hC hE (contract.gas.toNat + 1)) evm contract readOnly hp (lt_succ_self _)

end

section

/-- A static call returns, and leaves the state as it was. -/
theorem staticCall_unmoved {env : Env} (hC : AddressesDistinct env.crypto) (hE : env.rules.isEIP150 = true)
    (hbyzantium : env.rules.isByzantium = true) (evm : Evm) (hp : Placed evm.db.accessList)
    (hB : Coherent env.crypto env.backend evm.db.trie) (caller : ContractRef) (addr : Address) (input : Bytes)
    (gas : UInt64) :
    ∃ r, staticCall (interpreterRun env) env evm caller addr input gas = .ok r ∧
      Unmoved env.crypto env.backend evm.db r.evm.db ∧ r.evm.readOnly = evm.readOnly := by
  have hruns : Runs True env (interpreterRun env) (gas.toNat + 1) := runs_interpreter hC hE _
  have hquiet : Quiet True env true evm.db := ⟨rfl, hbyzantium, hB, trivial⟩
  have h := staticCall_spec hC hruns (lt_succ_self gas.toNat) hp caller addr input
  cases hx : staticCall (interpreterRun env) env evm caller addr input gas with
  | ok r =>
    rw [hx] at h
    exact ⟨r, rfl, h.2.unmoved hquiet, h.2.flag⟩
  | error e =>
    rw [hx] at h
    cases e with
    | sstore e => exact (h.1 hquiet).elim
    | validator p => exact (h.1 hquiet).elim
    | noReturn => exact h.elim
    | panic p => exact h.elim

end

section

def berlinRules : Rules where
  isHomestead := true
  isEIP150 := true
  isEIP158 := true
  isByzantium := true
  isConstantinople := true
  isPetersburg := true
  isIstanbul := true
  isBerlin := true
  isLondon := false

def sampleEnv : Env where
  crypto := alignedHashes
  backend := emptyBackend
  rules := berlinRules
  canCreate := none
  extraValidator := none
  getHash := fun _ => zeros 32
  coinbase := zeros 20
  gasLimit := 30000000
  blockNumber := 1
  time := 1
  difficulty := 1
  baseFee := 0
  origin := hexToAddress 1
  gasPrice := 0
  chainID := 1
  noRecursion := false
  enablePreimageRecording := false
  precompile := fun _ => none

def writing : StateDB :=
  (StateDB.new fun _ => some none).setCode alignedHashes emptyBackend (hexToAddress 0x77) [0x60, 1, 0x60, 0, 0x55]

def sampleEvm : Evm := ⟨writing, 0, false, [], 0⟩

theorem staticCall_unmoved_sample : ∃ r, staticCall (interpreterRun sampleEnv) sampleEnv sampleEvm
      (.account (hexToAddress 1)) (hexToAddress 0x77) [] 100000 = .ok r ∧
    Unmoved alignedHashes emptyBackend writing r.evm.db ∧ r.evm.readOnly = false :=
  staticCall_unmoved alignedHashes_distinct rfl rfl sampleEvm placed_new (coherent_of_none rfl _) _ _ _ _

/-- The instruction boundaries of a frame, with the number of instructions before them. -/
inductive Boundary (env : Env) (evm : Evm) (contract : Contract) : ℕ → Evm → Scope → Prop
  | start : Boundary env evm contract 0 evm ⟨0, [], Memory.new, contract⟩
  | next {n : ℕ} {e e' : Evm} {scope scope' : Scope} (h : Boundary env evm contract n e scope)
      (hs : step (instructionSet env.rules) (interpreterRun env) env e scope = .ok (.going e' scope')) :
      Boundary env evm contract (n + 1) e' scope'

/-- At every boundary the memory has whole words with their fee noted, and every instruction used gas. -/
theorem boundary_sized {env : Env} (hC : AddressesDistinct env.crypto) (hE : env.rules.isEIP150 = true)
    {evm e : Evm} {contract : Contract} {n : ℕ} {scope : Scope} (hp : Placed evm.db.accessList)
    (h : Boundary env evm contract n e scope) :
    Sized scope.memory ∧ n + scope.contract.gas.toNat ≤ contract.gas.toNat ∧ e.depth = evm.depth ∧
      e.readOnly = evm.readOnly ∧ Placed e.db.accessList := by
  induction h with
  | start => exact ⟨.new, (zero_add _).le, rfl, rfl, hp⟩
  | next _ hs ih =>
    obtain ⟨hm, hgas, hdepth, hflag, hplaced⟩ := ih
    have hstep := step_spec (w := True) hC hE hplaced hm (runs_interpreter hC hE _)
    rw [hs] at hstep
    obtain ⟨hlt, hkeeps, hm', _⟩ := hstep
    exact ⟨hm', by omega, hkeeps.depth.trans hdepth, hkeeps.flag.trans hflag, hkeeps.placed hplaced⟩

/-- `MSIZE MSIZE MSTORE`. -/
def storing : Contract := ⟨zeros 20, zeros 20, [0x59, 0x59, 0x52], [], 100, 0⟩

theorem boundary_sized_mstore : ∃ e scope, Boundary sampleEnv sampleEvm storing 3 e scope ∧ Sized scope.memory := by
  have h₁ : Boundary sampleEnv sampleEvm storing 1 _ _ := .next .start rfl
  have h₂ := h₁.next rfl
  have h₃ := h₂.next rfl
  exact ⟨_, _, h₃, (boundary_sized alignedHashes_distinct rfl placed_new h₃).1⟩

end

end Geth.Vm.Termination
