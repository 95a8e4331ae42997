import Geth.Core.Process
import Geth.Types.PriceAndNonce

namespace Geth.Miner.CommitWork

open Lib.BigEndian Lib.Programs Common.Basic Types.Block Types.TxData
open Types.Receipts Types.PriceAndNonce Core.Evm Core.TransitionDb Core.Process
open Congress.SnapshotApply Congress.SystemCalls Congress.Finalize Congress.Assembly List Bool Option

variable {ω : Type}

structure Worker (ω : Type) where
  posa : Posa ω
  hooks : ContractHooks ω
  noBaseFee : Bool
  coinbase : Address

/-- The work on a block. The signer is that of the header's number. -/
structure Environment (ω : Type) where
  header : Header
  state : World ω
  extraValidator : Option EvmExtraValidator
  gasPool : UInt64
  tcount : ℕ
  txs : List Transaction
  receipts : List Receipt

inductive Interrupt where
  | commitInterruptNone | commitInterruptNewHead | commitInterruptResubmit
  deriving DecidableEq

section

variable (C : Crypto) (w : Worker ω)

/-- `core.ApplyTransaction` for the worker's own coinbase. -/
def applyPoolTx (tx : Transaction) (env : Environment ω) : Run ω Progress := do
  let context ← ofExcept ((w.posa.newEVMBlockContext env.header).mapError .engine)
  let msg ← ofExcept ((asMessage C (txSigner w.posa env.header) context.baseFee tx).mapError
    (.message env.tcount (tx.hash C)))
  applyTransaction C w.posa w.noBaseFee env.header (env.header.hash C)
    { context with coinbase := w.coinbase, extraValidator := env.extraValidator } env.tcount tx msg
    ⟨env.gasPool, env.header.gasUsed, env.receipts, [], env.txs, []⟩

/-- The gas pool after a message that was refused. Gas that was bought before
the error is not put back. -/
def refusedGasPool (context : BlockContext ω) (msg : Message context.baseFee) (gp : UInt64)
    (state : World ω) : UInt64 :=
  let env : Env ω := ⟨w.posa.chainConfig, w.noBaseFee, context, ⟨msg.sender, msg.gasPrice⟩⟩
  match preCheck C env msg (newStateTransition env msg gp state) with
  | .ok checked => checked.gp
  | .error _ => gp

def gasPoolAfterError (tx : Transaction) (env : Environment ω) : UInt64 :=
  match w.posa.newEVMBlockContext env.header with
  | .error _ => env.gasPool
  | .ok context =>
    match asMessage C (txSigner w.posa env.header) context.baseFee tx with
    | .error _ => env.gasPool
    | .ok msg => refusedGasPool C w context msg env.gasPool env.state

def commitTransaction (tx : Transaction) (env : Environment ω) : Option ProcessError × Environment ω :=
  match applyPoolTx C w tx env env.state with
  | .ok p state => (none, { env with
      state := state
      header := { env.header with gasUsed := p.usedGas }
      gasPool := p.gp
      txs := p.commonTxs
      receipts := p.receipts })
  | .error e _ => (some e, { env with gasPool := gasPoolAfterError C w tx env })

def notPanic : ProcessError → Except Panic Unit
  | .transition _ _ (.panicked p) => .error p
  | .engine (.panicked p) => .error p
  | _ => .ok ()

def givesUpAccount : ProcessError → Bool
  | .transition _ _ .gasLimitReached => true
  | .transition _ _ (.nonceTooHigh _ _ _) => true
  | .message _ _ .errTxTypeNotSupported => true
  | _ => false

def precheckTx (tx : Transaction) (env : Environment ω) : Run ω Unit := do
  validateTx w.posa w.hooks (senderOrZero C (txSigner w.posa env.header) tx) tx env.header
    (env.header.number.getD 0)
  mapError .engine (w.posa.prepareState (tx.hash C) env.tcount)

def skipsProtected (tx : Transaction) (env : Environment ω) : Bool :=
  tx.isProtected && !w.posa.chainConfig.isEIP155 env.header.number

def tryTransaction (tx : Transaction) (q : TransactionsByPriceAndNonce) (env : Environment ω) :
    Except Panic (TransactionsByPriceAndNonce × Environment ω) :=
  if skipsProtected w tx env then do return (← q.pop, env)
  else match precheckTx C w tx env env.state with
    | .error e state => do
      notPanic e
      return (← q.pop, { env with state := state })
    | .ok _ state =>
      match commitTransaction C w tx { env with state := state } with
      | (none, env) => do return (← q.shift C, { env with tcount := env.tcount + 1 })
      | (some e, env) => do
        notPanic e
        if givesUpAccount e then return (← q.pop, env) else return (← q.shift C, env)

/-- Where the loop stands: the number of its iterations, what is left and what
was done. -/
structure Round (ω : Type) where
  round : ℕ
  queue : TransactionsByPriceAndNonce
  env : Environment ω

inductive Outcome (ω : Type) where
  | finished (discard : Bool) (env : Environment ω)
  | next (r : Round ω)

/-- The signal is read when an iteration starts, and again when the loop
returns because of it. -/
def iteration (interrupt : ℕ → Interrupt × Interrupt) (r : Round ω) : Except Panic (Outcome ω) :=
  if (interrupt r.round).1 ≠ .commitInterruptNone then
    .ok (.finished (decide ((interrupt r.round).2 = .commitInterruptNewHead)) r.env)
  else if r.env.gasPool < txGas then .ok (.finished false r.env)
  else match r.queue.peek with
    | none => .ok (.finished false r.env)
    | some tx => do
      let (queue, env) ← tryTransaction C w tx r.queue r.env
      return .next ⟨r.round + 1, queue, env⟩

/-- Whether a transaction passes the filters and is executed without an error. -/
def executes (tx : Transaction) (env : Environment ω) : Bool :=
  !skipsProtected w tx env &&
    match precheckTx C w tx env env.state with
    | .error _ _ => false
    | .ok _ state => (commitTransaction C w tx { env with state := state }).1.isNone

end

section

variable {C : Crypto} {w : Worker ω} {tx : Transaction} {q q' : TransactionsByPriceAndNonce}
variable {env env' : Environment ω} {interrupt : ℕ → Interrupt × Interrupt} {r r' : Round ω}

/-- A later state of the work on the same block, with the given transactions
added to it. -/
structure Extends (env env' : Environment ω) (added : List Transaction) : Prop where
  txs : env'.txs = env.txs ++ added
  coinbase : env'.header.coinbase = env.header.coinbase
  number : env'.header.number = env.header.number

theorem commitTransaction_extends (C : Crypto) (w : Worker ω) (tx : Transaction)
    (env : Environment ω) (state : World ω) :
    Extends env (commitTransaction C w tx { env with state := state }).2
      (bif (commitTransaction C w tx { env with state := state }).1.isNone then [tx] else []) := by
  rw [commitTransaction]
  cases h : applyPoolTx C w tx { env with state := state } state with
  | error e state' => exact ⟨(append_nil _).symm, rfl, rfl⟩
  | ok p state' =>
    obtain ⟨context, w₁, _, h⟩ := bind_ok.mp h
    obtain ⟨msg, w₂, _, h⟩ := bind_ok.mp h
    exact ⟨(applyTransaction_ok h).1, rfl, rfl⟩

theorem tryTransaction_ok (h : tryTransaction C w tx q env = .ok (q', env')) :
    (q.pop = .ok q' ∨ q.shift C = .ok q') ∧
      Extends env env' (bif executes C w tx env then [tx] else []) := by
  rw [tryTransaction] at h
  rw [executes]
  by_cases hskip : skipsProtected w tx env = true
  · rw [if_pos hskip] at h
    obtain ⟨q₁, hq, h⟩ := bind_eq_ok.mp h
    cases h
    rw [hskip]
    exact ⟨.inl hq, (append_nil _).symm, rfl, rfl⟩
  rw [if_neg hskip] at h
  rw [not_eq_true] at hskip
  rw [hskip, Bool.not_false, Bool.true_and]
  cases hchecked : precheckTx C w tx env env.state with
  | error e state =>
    rw [hchecked] at h
    obtain ⟨_, _, h⟩ := bind_eq_ok.mp h
    obtain ⟨q₁, hq, h⟩ := bind_eq_ok.mp h
    cases h
    exact ⟨.inl hq, (append_nil _).symm, rfl, rfl⟩
  | ok u state =>
    rw [hchecked] at h
    have hext := commitTransaction_extends C w tx env state
    dsimp only at h ⊢
    rcases hc : commitTransaction C w tx { env with state := state } with ⟨err, env₁⟩
    rw [hc] at h hext
    cases err with
    | none =>
      obtain ⟨q₁, hq, h⟩ := bind_eq_ok.mp h
      cases h
      exact ⟨.inr hq, hext.txs, hext.coinbase, hext.number⟩
    | some e =>
      obtain ⟨_, _, h⟩ := bind_eq_ok.mp h
      split at h
      · obtain ⟨q₁, hq, h⟩ := bind_eq_ok.mp h
        cases h
        exact ⟨.inl hq, hext⟩
      obtain ⟨q₁, hq, h⟩ := bind_eq_ok.mp h
      cases h
      exact ⟨.inr hq, hext⟩

def executed (C : Crypto) (w : Worker ω) (interrupt : ℕ → Interrupt × Interrupt) (r : Round ω) :
    Option Transaction :=
  if (interrupt r.round).1 ≠ .commitInterruptNone ∨ r.env.gasPool < txGas then none
  else r.queue.peek.filter (executes C w · r.env)

theorem advance_contents (h : q.pop = .ok q' ∨ q.shift C = .ok q') :
    ∃ head, q.heads[0]? = some head ∧ (head.tx :: q'.contents).Perm q.contents := by
  rcases h with h | h
  · exact pop_contents h
  · exact shift_contents h

theorem iteration_next (h : iteration C w interrupt r = .ok (.next r')) :
    r'.queue.contents.length < r.queue.contents.length ∧ (∀ t ∈ r'.queue.contents, t ∈ r.queue.contents) ∧
      (∀ tx ∈ executed C w interrupt r, ∃ t ∈ r.queue.contents, t.tx = tx) ∧
      Extends r.env r'.env (executed C w interrupt r).toList := by
  rw [iteration] at h
  split at h
  · cases h
  rename_i hsignal
  split at h
  · cases h
  rename_i hgas
  rw [executed, if_neg (not_or.mpr ⟨hsignal, hgas⟩)]
  cases hpeek : r.queue.peek with
  | none =>
    rw [hpeek] at h
    cases h
  | some tx =>
    rw [hpeek] at h
    obtain ⟨⟨queue, env⟩, htry, h⟩ := bind_eq_ok.mp h
    cases h
    obtain ⟨hqueue, hext⟩ := tryTransaction_ok htry
    obtain ⟨head, hhead, hperm⟩ := advance_contents hqueue
    have htx : head.tx.tx = tx := by
      rw [TransactionsByPriceAndNonce.peek, hhead] at hpeek
      exact some.inj hpeek
    refine ⟨?_, fun t ht => hperm.subset (mem_cons_of_mem _ ht), ?_, ?_⟩
    · rw [← hperm.length_eq]
      exact Nat.lt_succ_self _
    · intro tx' htx'
      refine ⟨head.tx, hperm.subset mem_cons_self, ?_⟩
      rw [htx]
      exact some.inj (filter_eq_some_iff.mp htx').1
    cases hex : executes C w tx r.env with
    | true => simpa [Option.filter, hex] using hext
    | false => simpa [Option.filter, hex] using hext

theorem iteration_finished {discard : Bool} (h : iteration C w interrupt r = .ok (.finished discard env)) :
    env = r.env ∧ executed C w interrupt r = none := by
  rw [iteration] at h
  rw [executed]
  split at h
  · rename_i hsignal
    cases h
    exact ⟨rfl, if_pos (.inl hsignal)⟩
  split at h
  · rename_i hgas
    cases h
    exact ⟨rfl, if_pos (.inr hgas)⟩
  cases hpeek : r.queue.peek with
  | none =>
    rw [hpeek] at h
    cases h
    refine ⟨rfl, ?_⟩
    split <;> rfl
  | some tx =>
    rw [hpeek] at h
    obtain ⟨_, _, h⟩ := bind_eq_ok.mp h
    cases h

end

section

variable (C : Crypto) (w : Worker ω)

/-- The loop ends, since every iteration uses up a transaction. -/
def commitLoop (interrupt : ℕ → Interrupt × Interrupt) (r : Round ω) :
    Except Panic (Bool × Environment ω) :=
  match _h : iteration C w interrupt r with
  | .error p => .error p
  | .ok (.finished discard env) => .ok (discard, env)
  | .ok (.next r') => commitLoop interrupt r'
termination_by r.queue.contents.length
decreasing_by exact (iteration_next _h).1

def commitTransactions (interrupt : ℕ → Interrupt × Interrupt) (txs : TransactionsByPriceAndNonce)
    (env : Environment ω) : Except Panic (Bool × Environment ω) :=
  commitLoop C w interrupt ⟨0, txs, env⟩

def pendingQueue (txs : List AccountTxs) (header : Header) : TransactionsByPriceAndNonce :=
  newTransactionsByPriceAndNonce C (txSigner w.posa header) txs header.baseFee

def commitPending (interrupt : ℕ → Interrupt × Interrupt) (txs : List AccountTxs)
    (env : Environment ω) : Except Panic (Bool × Environment ω) :=
  if txs.length = 0 then .ok (false, env)
  else commitTransactions C w interrupt (pendingQueue C w txs env.header) env

/-- The pending transactions, split by who sent them, and the signals that
arrive while each part is tried. -/
structure Pending where
  locals : List AccountTxs
  remotes : List AccountTxs
  localSignals : ℕ → Interrupt × Interrupt
  remoteSignals : ℕ → Interrupt × Interrupt

def fillBlock (pending : Pending) (env : Environment ω) : Except Panic (Bool × Environment ω) := do
  let (discard, env) ← commitPending C w pending.localSignals pending.locals env
  if discard then return (true, env)
  else commitPending C w pending.remoteSignals pending.remotes env

def makeCurrent (header : Header) : Run ω (Environment ω) := do
  mapError .engine (preHandle w.posa w.hooks header (header.number.getD 0))
  let extraValidator ← mapError .engine (w.hooks.createEvmExtraValidator header)
  return ⟨header, ← get, extraValidator, header.gasLimit, 0, [], []⟩

structure Task (ω : Type) where
  env : Environment ω
  block : Finalized

def commit (hasher : TrieHasher) (env : Environment ω) : Except ProcessError (Task ω) :=
  match finalizeAndAssemble C w.posa env.header hasher env.txs env.receipts env.state with
  | .error e _ => .error (.engine e)
  | .ok block _ => .ok ⟨env, block⟩

/-- Build a block on a head state. Nothing comes of it when a new head arrives. -/
def commitNewWork (hasher : TrieHasher) (draft : Header) (now : UInt64) (pending : Pending)
    (state : World ω) : Except ProcessError (Option (Task ω)) := do
  let header ← (prepare w.posa draft now).mapError .engine
  match makeCurrent w header state with
  | .error e _ => .error e
  | .ok env _ => do
    let (discard, env) ← (fillBlock C w pending env).mapError (fun p => .engine (.panicked p))
    if discard then return none
    else do
      let task ← commit C w hasher env
      return some task

end

section

variable {C : Crypto} {w : Worker ω} {interrupt : ℕ → Interrupt × Interrupt} {r r' : Round ω}
    {added : List Transaction} {pending : Pending} {hasher : TrieHasher} {draft : Header} {now : UInt64}
    {state s : World ω} {c : Posa ω}
variable {env env' : Environment ω} {discard : Bool} {header header' : Header}

def Next (C : Crypto) (w : Worker ω) (interrupt : ℕ → Interrupt × Interrupt) (r r' : Round ω) : Prop :=
  iteration C w interrupt r = .ok (.next r')

theorem Extends.trans {added'} {env₂} (h : Extends env env' added) (h' : Extends env' env₂ added') :
    Extends env env₂ (added ++ added') :=
  ⟨by rw [h'.txs, h.txs, append_assoc], h'.coinbase.trans h.coinbase, h'.number.trans h.number⟩

/-- The iterations over a part of the pending transactions. -/
def Visits (C : Crypto) (w : Worker ω) (interrupt : ℕ → Interrupt × Interrupt)
    (txs : List AccountTxs) (env : Environment ω) (r : Round ω) : Prop :=
  txs.length ≠ 0 ∧ Relation.ReflTransGen (Next C w interrupt) ⟨0, pendingQueue C w txs env.header, env⟩ r

end

def sampleWorker (validator : Address) : Worker Unit :=
  ⟨{ plainPosa with validator := validator }, noHooks, false, validator⟩

def samplePending : Pending where
  locals := [⟨addressOne, ⟨signedSysTx, 0⟩, []⟩]
  remotes := []
  localSignals _ := (.commitInterruptNone, .commitInterruptNone)
  remoteSignals _ := (.commitInterruptNone, .commitInterruptNone)

end Geth.Miner.CommitWork
