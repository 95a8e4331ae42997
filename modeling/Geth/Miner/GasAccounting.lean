import Geth.Miner.CommitWork

namespace Geth.Miner.GasAccounting

open Lib.BigEndian Lib.Programs Common.Basic Types.Block Types.TxData
open Types.PriceAndNonce Core.Evm Core.TransitionDb Core.Process CommitWork Relation
open Congress.SystemCalls Congress.Assembly UInt64 Nat

variable {ω : Type}

section

variable {C : Crypto} {I : Interpreter ω} {env : Env ω} {msg : Message env.context.baseFee}
    {gp' amount : UInt64}
variable {gp : UInt64} {state : World ω} {st : StateTransition ω} {t : Transition ω}

theorem subGas_eq_ok (h : subGas gp amount = .ok gp') : gp'.toNat + amount.toNat = gp.toNat := by
  rw [subGas] at h
  split at h
  · cases h
  rename_i hle
  cases h
  have hle := UInt64.not_lt.mp hle
  rw [UInt64.toNat_sub_of_le _ _ hle]
  have := le_iff_toNat_le.mp hle
  omega

theorem addGas_eq_ok (h : addGas gp amount = .ok gp') : gp'.toNat = gp.toNat + amount.toNat := by
  rw [addGas] at h
  split at h
  · cases h
  rename_i hle
  cases h
  have hmax : maxUint64.toNat = 2 ^ 64 - 1 := rfl
  have hamount := amount.toNat_lt
  have hsub : amount ≤ maxUint64 := le_iff_toNat_le.mpr (by omega)
  rw [UInt64.not_lt, le_iff_toNat_le, UInt64.toNat_sub_of_le _ _ hsub] at hle
  rw [UInt64.toNat_add, mod_eq_of_lt (by omega)]

theorem preCheck_gp (h : preCheck C env msg (newStateTransition env msg gp state) = .ok st) :
    st.gp.toNat + msg.gas.toNat = gp.toNat := by
  obtain ⟨_, _, h⟩ := bind_eq_ok.mp h
  obtain ⟨_, _, h⟩ := bind_eq_ok.mp h
  obtain ⟨st₁, hmeta, h⟩ := bind_eq_ok.mp h
  have hgp : st₁.gp = gp := (metaTransactionCheck_eq_ok hmeta rfl).2.1
  split at h
  · rw [buyGasMeta] at h
    split at h
    · cases h
    obtain ⟨gp', hsub, h⟩ := bind_eq_ok.mp h
    cases h
    rw [← hgp]
    exact subGas_eq_ok hsub
  rw [buyGas] at h
  split at h
  · cases h
  obtain ⟨gp', hsub, h⟩ := bind_eq_ok.mp h
  cases h
  rw [← hgp]
  exact subGas_eq_ok hsub

theorem refundGas_gp {q} {st'}
    (h : refundGas env msg q st = .ok st') : st'.gp.toNat = st.gp.toNat + st'.gas.toNat := by
  obtain ⟨gp', hadd, h⟩ := bind_eq_ok.mp h
  cases h
  exact addGas_eq_ok hadd

theorem transitionDb_gp (h : transitionDb C I env msg gp state = .ok t) :
    t.result.usedGas.toNat + t.refunded.gp.toNat = gp.toNat := by
  have hstages := transitionDb_stages h
  obtain ⟨hcheck, -, ⟨gas, -, hran⟩, ⟨q, hrefund⟩, -, hused⟩ := transitionDb_parts h
  have hbought := preCheck_gp hcheck
  have hback := refundGas_gp hrefund
  rw [show t.called.gp = t.checked.gp by rw [hran]] at hback
  have hle := le_iff_toNat_le.mp hstages.gas_le
  rw [hused, StateTransition.gasUsed, hstages.initialGas, UInt64.toNat_sub_of_le _ _ hstages.gas_le]
  omega

end

/-- What was used and what is left make up the limit of the block. -/
def Exact (env : Environment ω) : Prop :=
  env.header.gasUsed.toNat + env.gasPool.toNat = env.header.gasLimit.toNat

def boughtGas (C : Crypto) (w : Worker ω) (tx : Transaction) (env : Environment ω) : ℕ :=
  match w.posa.newEVMBlockContext env.header with
  | .error _ => 0
  | .ok context =>
    match asMessage C (txSigner w.posa env.header) context.baseFee tx with
    | .error _ => 0
    | .ok msg =>
      let evm : Env ω := ⟨w.posa.chainConfig, w.noBaseFee, context, ⟨msg.sender, msg.gasPrice⟩⟩
      match preCheck C evm msg (newStateTransition evm msg env.gasPool env.state) with
      | .ok _ => msg.gas.toNat
      | .error _ => 0

def lostGas (C : Crypto) (w : Worker ω) (tx : Transaction) (env : Environment ω) : ℕ :=
  if skipsProtected w tx env then 0
  else match precheckTx C w tx env env.state with
    | .error _ _ => 0
    | .ok _ state =>
      match commitTransaction C w tx { env with state := state } with
      | (none, _) => 0
      | (some _, _) => boughtGas C w tx { env with state := state }

def KeepsGas (C : Crypto) (w : Worker ω) (r : Round ω) : Prop :=
  ∀ tx, r.queue.peek = some tx → lostGas C w tx r.env = 0

section

variable {C : Crypto} {w : Worker ω} {tx : Transaction} {q q' : TransactionsByPriceAndNonce}
variable {env env' : Environment ω} {interrupt : ℕ → Interrupt × Interrupt} {r r' : Round ω}

theorem gasPoolAfterError_add (C : Crypto) (w : Worker ω) (tx : Transaction) (env : Environment ω) :
    (gasPoolAfterError C w tx env).toNat + boughtGas C w tx env = env.gasPool.toNat := by
  rw [gasPoolAfterError, boughtGas]
  cases w.posa.newEVMBlockContext env.header with
  | error e => rfl
  | ok context =>
    dsimp only
    cases asMessage C (txSigner w.posa env.header) context.baseFee tx with
    | error e => rfl
    | ok msg =>
      dsimp only [refusedGasPool]
      let evm : Env ω := ⟨w.posa.chainConfig, w.noBaseFee, context, ⟨msg.sender, msg.gasPrice⟩⟩
      cases hcheck : preCheck C evm msg (newStateTransition evm msg env.gasPool env.state) with
      | error e => rfl
      | ok st => exact preCheck_gp hcheck

theorem commitTransaction_exact (h : Exact env) (hok : commitTransaction C w tx env = (none, env')) :
    Exact env' := by
  rw [commitTransaction] at hok
  cases happly : applyPoolTx C w tx env env.state with
  | error e state =>
    rw [happly] at hok
    cases hok
  | ok p state =>
    rw [happly] at hok
    cases hok
    obtain ⟨context, _, _, happly⟩ := bind_ok.mp happly
    obtain ⟨msg, _, _, happly⟩ := bind_ok.mp happly
    obtain ⟨_, _, _, happly⟩ := bind_ok.mp happly
    obtain ⟨t, _, htransition, happly⟩ := bind_ok.mp happly
    obtain ⟨_, _, _, happly⟩ := bind_ok.mp happly
    obtain ⟨rfl, _⟩ := pure_ok.mp happly
    obtain ⟨htransition, _⟩ := ofExcept_ok.mp htransition
    have hgp := transitionDb_gp (mapError_eq_ok.mp htransition)
    have hlimit := env.header.gasLimit.toNat_lt
    dsimp only [Exact] at h hgp ⊢
    rw [UInt64.toNat_add, mod_eq_of_lt (by omega)]
    omega

theorem commitTransaction_refused {e} (herr : commitTransaction C w tx env = (some e, env')) :
    env' = { env with gasPool := gasPoolAfterError C w tx env } := by
  rw [commitTransaction] at herr
  split at herr
  · cases herr
  cases herr
  rfl

theorem tryTransaction_exact_iff (h : Exact env)
    (htry : tryTransaction C w tx q env = .ok (q', env')) : Exact env' ↔ lostGas C w tx env = 0 := by
  rw [tryTransaction] at htry
  rw [lostGas]
  split at htry
  next hskip =>
    obtain ⟨_, _, htry⟩ := bind_eq_ok.mp htry
    cases htry
    exact iff_of_true h (if_pos hskip)
  next hskip =>
    rw [if_neg hskip]
    cases hchecked : precheckTx C w tx env env.state with
    | error e state =>
      rw [hchecked] at htry
      obtain ⟨_, _, htry⟩ := bind_eq_ok.mp htry
      obtain ⟨_, _, htry⟩ := bind_eq_ok.mp htry
      cases htry
      exact iff_of_true h rfl
    | ok u state =>
      rw [hchecked] at htry
      have hstart : Exact { env with state := state } := h
      dsimp only at htry ⊢
      rcases hc : commitTransaction C w tx { env with state := state } with ⟨err, env₁⟩
      rw [hc] at htry
      cases err with
      | none =>
        obtain ⟨_, _, htry⟩ := bind_eq_ok.mp htry
        cases htry
        have hexact : Exact env₁ := commitTransaction_exact hstart hc
        exact iff_of_true hexact rfl
      | some e =>
        have henv : env' = env₁ := by
          obtain ⟨_, _, htry⟩ := bind_eq_ok.mp htry
          split at htry <;> obtain ⟨_, _, htry⟩ := bind_eq_ok.mp htry <;> cases htry <;> rfl
        have hgas := gasPoolAfterError_add C w tx { env with state }
        rw [henv, commitTransaction_refused hc]
        dsimp only [Exact] at h hgas ⊢
        omega

theorem next_exact_iff (h : Exact r.env) (hnext : Next C w interrupt r r') :
    Exact r'.env ↔ KeepsGas C w r := by
  rw [Next, iteration] at hnext
  split at hnext
  · cases hnext
  split at hnext
  · cases hnext
  cases hpeek : r.queue.peek with
  | none =>
    rw [hpeek] at hnext
    cases hnext
  | some tx =>
    rw [hpeek] at hnext
    obtain ⟨⟨queue, env⟩, htry, hnext⟩ := bind_eq_ok.mp hnext
    cases hnext
    rw [tryTransaction_exact_iff h htry, KeepsGas, hpeek]
    simp

theorem rounds_exact_iff (h : Exact r.env) : (∀ r', ReflTransGen (Next C w interrupt) r r' → Exact r'.env) ↔
      ∀ r₁ r₂, ReflTransGen (Next C w interrupt) r r₁ → Next C w interrupt r₁ r₂ → KeepsGas C w r₁ := by
  constructor
  · intro hall r₁ r₂ hr₁ hnext
    exact (next_exact_iff (hall r₁ hr₁) hnext).mp (hall r₂ (hr₁.tail hnext))
  intro hkeeps r' hr'
  induction hr' with
  | refl => exact h
  | tail hr₁ hnext ih => exact (next_exact_iff ih hnext).mpr (hkeeps _ _ hr₁ hnext)

theorem commitLoop_reaches {discard : Bool} (h : commitLoop C w interrupt r = .ok (discard, env')) :
    ∃ r', ReflTransGen (Next C w interrupt) r r' ∧ r'.env = env' := by
  fun_induction commitLoop C w interrupt r with
  | case1 r p hit => cases h
  | case2 r discard env hit =>
    cases h
    exact ⟨r, .refl, (iteration_finished hit).1.symm⟩
  | case3 r r₁ hit ih =>
    obtain ⟨r', hr', henv⟩ := ih h
    exact ⟨r', hr'.head hit, henv⟩

end

/-- The accounting is exact after every transaction of a run exactly when no transaction is refused
after its gas was bought. A refused transaction leaves the state and the used gas, and it leaves the
gas pool exactly when it did not buy gas. -/
theorem commitTransactions_gas_exact_iff (C : Crypto) (w : Worker ω)
    (interrupt : ℕ → Interrupt × Interrupt) (txs : TransactionsByPriceAndNonce)
    (env : Environment ω) (h : Exact env) :
    ((∀ r, ReflTransGen (Next C w interrupt) ⟨0, txs, env⟩ r → Exact r.env) ↔
      ∀ r r', ReflTransGen (Next C w interrupt) ⟨0, txs, env⟩ r → Next C w interrupt r r' →
        KeepsGas C w r) ∧
    (∀ discard env', commitTransactions C w interrupt txs env = .ok (discard, env') →
      ∃ r, ReflTransGen (Next C w interrupt) ⟨0, txs, env⟩ r ∧ r.env = env') ∧
    ∀ tx env₁ e env₂, commitTransaction C w tx env₁ = (some e, env₂) →
      env₂.state = env₁.state ∧ env₂.header = env₁.header ∧
        (env₂.gasPool = env₁.gasPool ↔ boughtGas C w tx env₁ = 0) := by
  refine ⟨rounds_exact_iff h, fun _ _ => commitLoop_reaches, fun tx env₁ e env₂ herr => ?_⟩
  have hgas := gasPoolAfterError_add C w tx env₁
  rw [commitTransaction_refused herr, ← UInt64.toNat_inj]
  exact ⟨rfl, rfl, by dsimp only; omega⟩

theorem makeCurrent_exact {w : Worker ω} {header : Header} {env : Environment ω} {state s : World ω}
    (h : makeCurrent w header state = .ok env s) (hzero : header.gasUsed = 0) : Exact env := by
  obtain ⟨_, _, _, h⟩ := bind_ok.mp h
  obtain ⟨_, _, _, h⟩ := bind_ok.mp h
  obtain ⟨_, _, _, h⟩ := bind_ok.mp h
  obtain ⟨rfl, _⟩ := pure_ok.mp h
  rw [Exact, hzero]
  exact zero_add _

def gasTx (gas : UInt64) (v r s : ℤ) : Transaction :=
  .legacy ⟨0, 0, gas, some sysGovToAddr, 0, .empty, v, r, s⟩

/-- Not enough gas for any transaction. -/
def lowGasTx : Transaction :=
  gasTx 1000 37 0x16f51342bad2662de7ce75e2b28da95fa1c0822feba93cbc12c101f55e002299
    0x79de52c673db237a2d514273cb12403ec73528e05db6cc41d854656ede396bbf

def plainTx : Transaction :=
  gasTx 21000 38 0xa34101455ed49ecebdee81f128d3063e008728fac1db70c27f2fbc7a1950ff36
    0x7948bf642e4e2ad0890e2d0e07aa56d7f1bceea5cf06367772222a8b07e5368b

def gasCrypto : Crypto :=
  let lowSigned := hexToHash 0x8a64d2575be66ea525461b0114e38291fe736f3be786c4109d1a3cecd1eedb6b
  let plainSigned := hexToHash 0xf3e5797f3010ec26b7074ffd6eea3d342fd2426aa7ea50bcd1ca59b0b80745ba
  Crypto.ofTables
    (((ofNat 32 0xdf80808203e894000000000000000000000000000000000000ffff8080018080).toList, lowSigned) ::
      ((ofNat 32 0xdf808082520894000000000000000000000000000000000000ffff8080018080).toList, plainSigned) ::
      ((ofNat 97 0xf85f808082520894000000000000000000000000000000000000ffff808026a0a34101455ed49ecebdee81f128d3063e008728fac1db70c27f2fbc7a1950ff36a07948bf642e4e2ad0890e2d0e07aa56d7f1bceea5cf06367772222a8b07e5368b).toList,
        hexToHash 0x63376b09893b2086e1c279e0faf374c5c0edb5c1fc0b53ae920b46b72c5eff5f) ::
      sampleKeys.map (fun k => (k.1.toList.drop 1, k.2)))
    [((lowSigned, (ofNat 65 0x16f51342bad2662de7ce75e2b28da95fa1c0822feba93cbc12c101f55e00229979de52c673db237a2d514273cb12403ec73528e05db6cc41d854656ede396bbf00).toList), pubOne),
      ((plainSigned, (ofNat 65 0xa34101455ed49ecebdee81f128d3063e008728fac1db70c27f2fbc7a1950ff367948bf642e4e2ad0890e2d0e07aa56d7f1bceea5cf06367772222a8b07e5368b01).toList), pubOne)]

def freshEnv : Environment Unit :=
  ⟨plainHeader, sampleState, none, 30000000, 0, [], []⟩

def roundOf (tx : Transaction) : Round Unit :=
  ⟨0, pendingQueue gasCrypto (sampleWorker addressTwo) [⟨addressOne, ⟨tx, 0⟩, []⟩] freshEnv.header, freshEnv⟩

theorem stops_of_empty {C : Crypto} {w : Worker ω} {interrupt : ℕ → Interrupt × Interrupt} {r r' : Round ω}
    (h : r.queue.peek = none) : ¬Next C w interrupt r r' := by
  intro hnext
  rw [Next, iteration, h] at hnext
  split at hnext
  · cases hnext
  split at hnext <;> cases hnext

/-- A transaction that is executed, and then none is left. -/
theorem commitTransactions_gas_exact_plain : Exact freshEnv ∧
    (∃ r, Next gasCrypto (sampleWorker addressTwo) samplePending.localSignals (roundOf plainTx) r ∧
      r.env.txs = [plainTx]) ∧
    ∀ r, ReflTransGen (Next gasCrypto (sampleWorker addressTwo) samplePending.localSignals)
      (roundOf plainTx) r → Exact r.env := by
  obtain ⟨⟨q, env⟩, htry, hp⟩ := exists_ok_of_any
    (x := tryTransaction gasCrypto (sampleWorker addressTwo) plainTx (roundOf plainTx).queue freshEnv)
    (p := fun out => decide (out.2.txs = [plainTx] ∧ out.1.peek = none)) (by decide +kernel)
  have hpeek : (roundOf plainTx).queue.peek = some plainTx := by decide +kernel
  have hnext : Next gasCrypto (sampleWorker addressTwo) samplePending.localSignals (roundOf plainTx)
      ⟨1, q, env⟩ := by
    rw [Next, iteration, if_neg (by decide), if_neg (by decide), hpeek]
    exact congrArg (Except.map (fun out => Outcome.next ⟨1, out.1, out.2⟩)) htry
  obtain ⟨htxs, hempty⟩ := of_decide_eq_true hp
  refine ⟨rfl, ⟨_, hnext, htxs⟩, ?_⟩
  refine (commitTransactions_gas_exact_iff gasCrypto (sampleWorker addressTwo)
    samplePending.localSignals (roundOf plainTx).queue freshEnv rfl).1.mpr fun r r' hr hlast => ?_
  obtain rfl | ⟨r₁, hfirst, hrest⟩ := hr.cases_head
  · intro tx htx
    cases hpeek.symm.trans htx
    decide +kernel
  cases Except.ok.inj (hnext.symm.trans hfirst)
  obtain rfl | ⟨_, hsecond, _⟩ := hrest.cases_head
  · exact absurd hlast (stops_of_empty hempty)
  · exact absurd hsecond (stops_of_empty hempty)

theorem commitTransactions_loses_gas : Exact freshEnv ∧ ∃ r, Next gasCrypto
    (sampleWorker addressTwo) samplePending.localSignals (roundOf lowGasTx) r ∧
    r.env.header.gasLimit = 30000000 ∧ r.env.header.gasUsed = 0 ∧ r.env.gasPool = 29999000 ∧
    r.env.txs = [] := by
  obtain ⟨⟨q, env⟩, htry, hp⟩ := exists_ok_of_any
    (x := tryTransaction gasCrypto (sampleWorker addressTwo) lowGasTx (roundOf lowGasTx).queue freshEnv)
    (p := fun out => decide (out.2.header.gasLimit = 30000000 ∧ out.2.header.gasUsed = 0 ∧
      out.2.gasPool = 29999000 ∧ out.2.txs = [])) (by decide +kernel)
  refine ⟨rfl, ⟨1, q, env⟩, ?_, of_decide_eq_true hp⟩
  have hpeek : (roundOf lowGasTx).queue.peek = some lowGasTx := by decide +kernel
  rw [Next, iteration, if_neg (by decide), if_neg (by decide), hpeek]
  exact congrArg (Except.map (fun out => Outcome.next ⟨1, out.1, out.2⟩)) htry

end Geth.Miner.GasAccounting
