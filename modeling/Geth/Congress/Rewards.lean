import Geth.Congress.SystemCalls
import Geth.Vm.Transfers

namespace Geth.Congress.Rewards

open Lib.BigEndian Lib.Balances Common.Basic Params.Config Types.Block State.Journal State.Revert
open State.Snapshots State.Commit State.Ledger
open Core.TransitionDb (feeRecoder)
open SystemCalls (SysError getValidatorAddr rewardPoolContractAddr validatorsContractAddr)
open Vm.Machine Vm.Interpreter Vm.Calls Vm.Transfers Vm.Effects Vm.Termination Function Option
open Vm.SstoreGas (Placed placed_new)

structure Engine where
  chainConfig : ChainConfig
  feeReceiver : Option Address
  packDistribute : List Address → List UInt64 → Except SysError Bytes

inductive RewardError where
  | pack (e : SysError)
  | vm (e : VmError)

/-- `ExecuteMsg`: a call from outside, after which the state is finalised. -/
def executeMsg (env : Env) (sender target : Address) (value : ℤ) (gas : UInt64) (data : Bytes)
    (db : StateDB) : Except Stop (Option VmError × StateDB) := do
  let r ← call (interpreterRun env) env ⟨db, 0, false, [], 0⟩ (.account sender) target data gas value
  return (r.err, finalise env.crypto env.backend true r.evm.db)

section

variable (env : Env) (c : Engine) (header : Header)

/-- All that is in the fee account goes to the receiver. -/
def payOut (receiver : Address) (db : StateDB) : StateDB :=
  let fee := db.getBalance env.crypto env.backend feeRecoder
  (db.addBalance env.crypto env.backend receiver fee).setBalance env.crypto env.backend feeRecoder 0

/-- Whether fees go through the sealer to the validators contract. -/
def contractMode : Bool :=
  c.feeReceiver.isNone && !c.chainConfig.isRewardPool header.number

/-- The call of the validators contract, once the sealer has the fees. -/
def distribute (addr : List Address) (gass : List UInt64) (fee : ℤ) (db : StateDB) :
    Except Stop (Option RewardError × StateDB) :=
  match c.packDistribute addr gass with
  | .error e => .ok (some (.pack e), db)
  | .ok data => do
    let (err, db) ← executeMsg env header.coinbase (getValidatorAddr header.number c.chainConfig)
      fee 0xFFFFFFFFFFFFFFFF data db
    return (err.map .vm, db)

/-- The error that is returned, and the state. The engine on the state database as it is. -/
def trySendBlockReward (addr : List Address) (gass : List UInt64) (db : StateDB) :
    Except Stop (Option RewardError × StateDB) :=
  let fee := db.getBalance env.crypto env.backend feeRecoder
  if fee ≤ 0 then .ok (none, db)
  else match c.feeReceiver with
    | some receiver => .ok (none, payOut env receiver db)
    | none =>
      if c.chainConfig.isRewardPool header.number then .ok (none, payOut env rewardPoolContractAddr db)
      else distribute env c header addr gass fee (payOut env header.coinbase db)

end

section

variable {env : Env} {c : Engine} {header : Header} {addr : List Address} {gass : List UInt64}
  {db db' : StateDB} {err : Option RewardError} {fee : ℤ}

def collected (env : Env) (db : StateDB) : ℤ := db.getBalance env.crypto env.backend feeRecoder

theorem ledger_payOut (receiver : Address) (db : StateDB) :
    ledger env.crypto env.backend (payOut env receiver db) =
      update (credit (ledger env.crypto env.backend db) receiver (collected env db)) feeRecoder 0 := by
  rw [payOut, ledger_setBalance, ledger_addBalance]
  rfl

theorem placed_payOut (hC : AddressesDistinct env.crypto) (receiver : Address)
    (hp : Placed db.accessList) : Placed (payOut env receiver db).accessList := by
  have hadd := extends_addBalance (B := env.backend) (s := db) (a := receiver) hC (collected env db)
  have hset : ∀ s : StateDB, Extends env.crypto env.backend s
      (s.setBalance env.crypto env.backend feeRecoder 0) := fun s =>
    extends_update hC (reversible_setBalance hC s feeRecoder 0) ⟨rfl, rfl⟩
  exact (hadd.trans (hset _)).placed hp

theorem validatorAddr_ne (number : BigPtr) (config : ChainConfig) :
    getValidatorAddr number config ≠ feeRecoder := by
  rw [getValidatorAddr]
  split <;> decide

/-- The code of the validators contract was run to its end, and when it started the contract
held the fees. -/
def Reached (env : Env) (c : Engine) (header : Header) (addr : List Address) (gass : List UInt64)
    (db db' : StateDB) : Prop :=
  let contract := getValidatorAddr header.number c.chainConfig
  ∃ data db₁ r, c.packDistribute addr gass = .ok data ∧
    executing env ⟨db₁, 0, false, [], 0⟩ contract data 0xFFFFFFFFFFFFFFFF
      (callee (interpreterRun env) (.account header.coinbase) contract data 0xFFFFFFFFFFFFFFFF
        (collected env db)) = .ok r ∧
    r.err = none ∧ db' = finalise env.crypto env.backend true r.evm.db ∧
    ledger env.crypto env.backend db₁ contract =
      ledger env.crypto env.backend db contract + collected env db ∧
    ledger env.crypto env.backend db₁ feeRecoder = 0

/-- The call of the validators contract succeeds on the state with the fees moved. -/
def Distributes (env : Env) (c : Engine) (header : Header) (addr : List Address) (gass : List UInt64)
    (db : StateDB) : Prop :=
  ∃ data r, c.packDistribute addr gass = .ok data ∧
    call (interpreterRun env) env ⟨payOut env header.coinbase db, 0, false, [], 0⟩
      (.account header.coinbase) (getValidatorAddr header.number c.chainConfig) data
      0xFFFFFFFFFFFFFFFF (collected env db) = .ok r ∧ r.err = none

theorem debit_payOut (b : Ledger Address) {sealer account} (h : sealer ≠ account) (fee : ℤ) :
    debit (update (credit b sealer fee) account 0) sealer fee = update b account 0 := by
  funext a
  by_cases ha : a = sealer
  · rw [ha, debit_self, update_of_ne h, update_of_ne h, credit_self]
    ring
  rw [debit_of_ne ha]
  by_cases hb : a = account
  · rw [hb, update_self, update_self]
  · rw [update_of_ne hb, update_of_ne hb, credit_of_ne ha]

theorem reached_of_call {data} {r : Ran} (hfee : 0 < collected env db)
    (hpack : c.packDistribute addr gass = .ok data)
    (h : call (interpreterRun env) env ⟨payOut env header.coinbase db, 0, false, [], 0⟩
      (.account header.coinbase) (getValidatorAddr header.number c.chainConfig) data
      0xFFFFFFFFFFFFFFFF (collected env db) = .ok r) (hnone : r.err = none) :
    Reached env c header addr gass db (finalise env.crypto env.backend true r.evm.db) := by
  set contract := getValidatorAddr header.number c.chainConfig with hcontract
  have hne : contract ≠ feeRecoder := validatorAddr_ne _ _
  rcases call_cases h with ⟨-, hrefused⟩ | ⟨-, hzero, -⟩ | ⟨hcover, r₀, hrun, hfinish⟩
  · exact absurd (hrefused hnone).2 (Nat.lt_irrefl 0)
  · exact absurd hzero (ne_of_gt hfee)
  have heq := finish_succeeded hfinish hnone
  subst heq
  -- a sealer with the address of the fee account could not pay
  have hsealer : header.coinbase ≠ feeRecoder := by
    intro hsame
    have hcovered := hcover (ne_of_gt hfee)
    rw [canTransfer, decide_eq_true_eq] at hcovered
    change _ ≤ ledger env.crypto env.backend (payOut env header.coinbase db) header.coinbase at hcovered
    rw [ledger_payOut, hsame, update_self] at hcovered
    omega
  have hpaid : ledger env.crypto env.backend (paid env (payOut env header.coinbase db)
      header.coinbase contract (collected env db)) =
      credit (update (ledger env.crypto env.backend db) feeRecoder 0) contract (collected env db) := by
    rw [ledger_paid, ledger_payOut, Lib.Balances.transfer, debit_payOut _ hsealer]
  refine ⟨data, _, r, hpack, hrun, hnone, rfl, ?_, ?_⟩
  · exact (congrFun hpaid contract).trans (by rw [credit_self, update_of_ne hne])
  exact (congrFun hpaid feeRecoder).trans (by rw [credit_of_ne (Ne.symm hne), update_self])

theorem distribute_cases (h : distribute env c header addr gass fee db = .ok (err, db')) :
    (∃ e, c.packDistribute addr gass = .error e ∧ err = some (.pack e) ∧ db' = db) ∨
    ∃ data r, c.packDistribute addr gass = .ok data ∧
      call (interpreterRun env) env ⟨db, 0, false, [], 0⟩ (.account header.coinbase)
        (getValidatorAddr header.number c.chainConfig) data 0xFFFFFFFFFFFFFFFF fee = .ok r ∧
      err = r.err.map .vm ∧ db' = finalise env.crypto env.backend true r.evm.db := by
  rw [distribute] at h
  cases hpack : c.packDistribute addr gass with
  | error e =>
    rw [hpack] at h
    cases h
    exact .inl ⟨e, rfl, rfl, rfl⟩
  | ok data =>
    rw [hpack] at h
    obtain ⟨⟨vmErr, db₁⟩, hexec, h⟩ := bind_eq_ok.mp h
    cases h
    obtain ⟨r, hcall, hr⟩ := bind_eq_ok.mp hexec
    cases hr
    exact .inr ⟨data, r, rfl, hcall, rfl, rfl⟩

theorem distribute_failed (hC : AddressesDistinct env.crypto) (hE : env.rules.isEIP150 = true)
    (hp : Placed db.accessList)
    (h : distribute env c header addr gass fee (payOut env header.coinbase db) = .ok (err, db'))
    (herr : err ≠ none) : ledger env.crypto env.backend db' feeRecoder = 0 := by
  have hempty : ledger env.crypto env.backend (payOut env header.coinbase db) feeRecoder = 0 := by
    rw [ledger_payOut, update_self]
  rcases distribute_cases h with ⟨e, -, -, rfl⟩ | ⟨data, r, -, hcall, hvm, rfl⟩
  · exact hempty
  have hfail : r.err ≠ none := fun hnone => herr (by rw [hvm, hnone]; rfl)
  have hkept := call_failed hC (runs_interpreter (w := False) hC hE (2 ^ 64))
    (UInt64.toNat_lt _) (placed_payOut hC header.coinbase hp) hcall hfail
  rcases finalise_ledger true r.evm.db feeRecoder with hsame | hzero
  · rw [hsame, hkept, hempty]
  · exact hzero

theorem distributes_iff
    (h : distribute env c header addr gass (collected env db) (payOut env header.coinbase db) =
      .ok (err, db')) : Distributes env c header addr gass db ↔ err = none := by
  rcases distribute_cases h with ⟨e, hpack, rfl, -⟩ | ⟨data, r, hpack, hcall, rfl, -⟩
  · refine iff_of_false ?_ (by simp)
    rintro ⟨data, r, hok, -⟩
    rw [hpack] at hok
    cases hok
  rw [map_eq_none_iff]
  constructor
  · rintro ⟨data', r', hpack', hcall', hnone⟩
    rw [hpack] at hpack'
    cases hpack'
    rw [hcall] at hcall'
    cases hcall'
    exact hnone
  · exact fun hnone => ⟨data, r, hpack, hcall, hnone⟩

theorem reached_of_distribute (hfee : 0 < collected env db)
    (h : distribute env c header addr gass (collected env db) (payOut env header.coinbase db) =
      .ok (err, db')) (hnone : err = none) : Reached env c header addr gass db db' := by
  rcases distribute_cases h with ⟨e, -, herr, -⟩ | ⟨data, r, hpack, hcall, herr, rfl⟩
  · rw [herr] at hnone
    cases hnone
  rw [herr, map_eq_none_iff] at hnone
  exact reached_of_call hfee hpack hcall hnone

/-- The balances survive an error only if there is none: the fee account is emptied before
anything can fail. Without an error the fees have reached the contract. -/
theorem trySendBlockReward_unchanged_iff (env : Env) (hC : AddressesDistinct env.crypto)
    (hE : env.rules.isEIP150 = true) (c : Engine) (header : Header) (addr : List Address)
    (gass : List UInt64) (db : StateDB) (hp : Placed db.accessList) {err : Option RewardError}
    {db' : StateDB} (h : trySendBlockReward env c header addr gass db = .ok (err, db')) :
    ((err ≠ none → ledger env.crypto env.backend db' = ledger env.crypto env.backend db) ↔
      (0 < collected env db → contractMode c header = true →
        Distributes env c header addr gass db)) ∧
    (err = none → 0 < collected env db → contractMode c header = true →
      Reached env c header addr gass db db') := by
  have hfine : ∀ db', (none : Option RewardError) = err → (err ≠ none → ledger env.crypto env.backend db' =
      ledger env.crypto env.backend db) := fun _ hnone herr => absurd hnone.symm herr
  rw [trySendBlockReward] at h
  change (if collected env db ≤ 0 then _ else _) = _ at h
  by_cases hfee : collected env db ≤ 0
  · rw [if_pos hfee] at h
    cases h
    have hnot : ¬ 0 < collected env db := not_lt.mpr hfee
    exact ⟨iff_of_true (hfine _ rfl) (fun hpos => absurd hpos hnot), fun _ hpos => absurd hpos hnot⟩
  rw [if_neg hfee] at h
  cases hreceiver : c.feeReceiver with
  | some receiver =>
    rw [hreceiver] at h
    cases h
    have hmode : contractMode c header ≠ true := by simp [contractMode, hreceiver]
    exact ⟨iff_of_true (hfine _ rfl) (fun _ hm => absurd hm hmode), fun _ _ hm => absurd hm hmode⟩
  | none =>
    rw [hreceiver] at h
    by_cases hpool : c.chainConfig.isRewardPool header.number = true
    · rw [if_pos hpool] at h
      cases h
      have hmode : contractMode c header ≠ true := by simp [contractMode, hpool]
      exact ⟨iff_of_true (hfine _ rfl) (fun _ hm => absurd hm hmode), fun _ _ hm => absurd hm hmode⟩
    rw [if_neg hpool] at h
    have hmode : contractMode c header = true := by simp [contractMode, hreceiver, hpool]
    have hpos : 0 < collected env db := not_le.mp hfee
    refine ⟨?_, fun hnone _ _ => reached_of_distribute hpos h hnone⟩
    constructor
    · intro hsame _ _
      rw [distributes_iff h]
      by_contra herr
      have hempty := distribute_failed hC hE hp h herr
      rw [hsame herr] at hempty
      exact absurd hempty (ne_of_gt hpos)
    intro hdist herr
    exact absurd ((distributes_iff h).mp (hdist hpos hmode)) herr

end

section

def sealedBy : Header := { Header.zero with coinbase := hexToAddress 1, number := some 9 }

def sampleEngine : Engine := ⟨istanbulConfig none, none, fun _ _ => .ok []⟩

def withFees (code : Bytes) : StateDB :=
  ((StateDB.new fun _ => some none).addBalance alignedHashes emptyBackend feeRecoder 5).setCode
    alignedHashes emptyBackend validatorsContractAddr code

/-- The contract reverts: an error is returned and the sealer has the fees. -/
theorem trySendBlockReward_loses_fees :
    let db := withFees [0x60, 0, 0x60, 0, 0xfd]
    ∃ e db', trySendBlockReward sampleEnv sampleEngine sealedBy [] [] db = .ok (some e, db') ∧
      db.getBalance alignedHashes emptyBackend feeRecoder = 5 ∧
      db'.getBalance alignedHashes emptyBackend feeRecoder = 0 ∧
      db.getBalance alignedHashes emptyBackend (hexToAddress 1) = 0 ∧
      db'.getBalance alignedHashes emptyBackend (hexToAddress 1) = 5 := by
  intro db
  obtain ⟨⟨err, db'⟩, hr, htest⟩ := exists_ok_of_any
    (x := trySendBlockReward sampleEnv sampleEngine sealedBy [] [] db)
    (p := fun r => r.1.isSome && decide (r.2.getBalance alignedHashes emptyBackend feeRecoder = 0 ∧
      r.2.getBalance alignedHashes emptyBackend (hexToAddress 1) = 5)) (by decide +kernel)
  rw [Bool.and_eq_true, decide_eq_true_eq] at htest
  obtain ⟨e, he⟩ := isSome_iff_exists.mp htest.1
  subst he
  exact ⟨e, db', hr, by decide +kernel, htest.2.1, by decide +kernel, htest.2.2⟩

theorem placed_withFees (code : Bytes) : Placed (withFees code).accessList :=
  ((extends_addBalance alignedHashes_distinct 5).trans (extends_setCode alignedHashes_distinct code)).placed
    placed_new

/-- The contract runs and returns. -/
theorem trySendBlockReward_unchanged_sample :
    let db := withFees [0x60, 1, 0x50, 0]
    ∃ db', trySendBlockReward sampleEnv sampleEngine sealedBy [] [] db = .ok (none, db') ∧
      Reached sampleEnv sampleEngine sealedBy [] [] db db' := by
  intro db
  obtain ⟨⟨err, db'⟩, hr, htest⟩ := exists_ok_of_any
    (x := trySendBlockReward sampleEnv sampleEngine sealedBy [] [] db)
    (p := fun r => r.1.isNone) (by decide +kernel)
  have hnone : err = none := isNone_iff_eq_none.mp htest
  have hresult := trySendBlockReward_unchanged_iff sampleEnv alignedHashes_distinct rfl sampleEngine
    sealedBy [] [] db (placed_withFees _) hr
  subst hnone
  exact ⟨db', hr, hresult.2 rfl (by decide +kernel) (by decide +kernel)⟩

end

end Geth.Congress.Rewards
