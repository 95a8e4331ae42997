import Geth.Congress.Assembly
import Geth.Rlp.RoundTrip

namespace Geth.Congress.TraceSysTx

open Lib.BigEndian Lib.Programs Common.Basic Rlp.Encode Rlp.Writer Types.Block Types.Receipts
open Types.TxData Core.Evm SystemCalls Finalize Assembly UInt8
open Rlp.Reader (StreamError decodeBytes)
open Rlp.RoundTrip (decodeBytes_eq_ok)

variable {ω : Type} (p : Proposal)

def proposalTy : Ty :=
  .struct (.cons .bigInt (.cons .bigInt (.cons (.array 20 (.uint .w8)) (.cons (.array 20 (.uint .w8))
    (.cons .bigInt (.cons (.slice (.uint .w8)) .nil))))))

def Proposal.val (p : Proposal) : proposalTy.Val :=
  (p.id, p.action, p.source.map UInt8.toBitVec, p.target.map UInt8.toBitVec, p.value,
    p.data.map UInt8.toBitVec, ())

def Proposal.ofVal (v : proposalTy.Val) : Proposal :=
  ⟨v.1, v.2.1, v.2.2.1.map UInt8.ofBitVec, v.2.2.2.1.map UInt8.ofBitVec, v.2.2.2.2.1,
    v.2.2.2.2.2.1.map UInt8.ofBitVec⟩

inductive TraceError where
  | vm (e : VmError)
  | unsupportedAction
  deriving DecidableEq

structure Traced (ω : Type) where
  ret : Bytes
  vmerr : Option TraceError
  state : World ω

/-- An error of the result is the one that `DecodeBytes` returns. -/
def applySysTx (C : Crypto) (c : Posa ω) (evm : Env ω) (txIndex : ℕ) (sender : Address)
    (tx : Transaction) (state : World ω) : Except StreamError (Traced ω) := do
  let prop := Proposal.ofVal (← decodeBytes proposalTy tx.data.data)
  let state := state.setNonce sender (state.nonce sender + 1)
  if bigUint64 prop.action = 0 then
    let state := { state with
      thash := tx.hash C, txIndex := txIndex, rest := c.ops.newAccessList state.rest }
    let context := { evm.context with extraValidator := none }
    let r := c.interpreter.call { evm with context, txContext := ⟨prop.source, 0⟩ } prop.source
      prop.target prop.data tx.gas prop.value.toNat state
    return ⟨r.ret, r.err.map .vm, c.ops.finalise true r.state⟩
  else if bigUint64 prop.action = 1 then return ⟨[], none, (c.ops.erase prop.target state).2⟩
  else return ⟨[], some .unsupportedAction, state⟩

/-- A machine for the block, with any validator of events and any fields of a transaction. -/
def BuiltFor (c : Posa ω) (header : Header) (evm : Env ω) : Prop :=
  evm.chainConfig = c.chainConfig ∧
    c.newEVMBlockContext header = .ok { evm.context with extraValidator := none }

/-- Calls do not look at the setting of the tracer that waives the base fee. -/
def IgnoresBaseFee (I : Interpreter ω) : Prop :=
  ∀ env flag caller addr input gas value w,
    I.call { env with noBaseFee := flag } caller addr input gas value w =
      I.call env caller addr input gas value w

/-- Whether the erase of a proposal succeeds on the state in which it is replayed. -/
def erases (c : Posa ω) (prop : Proposal) (sender : Address) (w : World ω) : Bool :=
  (c.ops.erase prop.target (w.setNonce sender (w.nonce sender + 1))).1

theorem map_toBitVec (b : Bytes) : (b.map UInt8.toBitVec).map UInt8.ofBitVec = b :=
  List.map_map.trans (List.map_id b)

theorem toList_toBitVec {n : ℕ} (a : FixedBytes n) :
    (a.map UInt8.toBitVec).toList.map UInt8.ofBitVec = a.toList := by
  rw [List.Vector.toList_map, map_toBitVec]

theorem ofVal_val : Proposal.ofVal (Proposal.val p) = p := by
  have hvec {n : ℕ} (a : FixedBytes n) : (a.map toBitVec).map ofBitVec = a :=
    List.Vector.eq _ _ ((List.Vector.toList_map ..).trans (toList_toBitVec a))
  obtain ⟨id, action, source, target, value, data⟩ := p
  exact (Proposal.mk.injEq ..).mpr ⟨rfl, rfl, hvec source, hvec target, rfl, map_toBitVec data⟩

theorem encodeToBytes_val : encodeToBytes proposalTy (Proposal.val p) = write p.toValue := by
  have hitems : itemOf proposalTy (Proposal.val p) = item p.toValue := by
    have hdata : (p.data.map toBitVec).map byteEquiv = p.data := map_toBitVec p.data
    have haddr (a : Address) : (a.map toBitVec).toList.map byteEquiv = a.toList :=
      toList_toBitVec a
    simp only [proposalTy, Proposal.val, Proposal.toValue, itemOf, itemsOf, item, itemAll, Ty.byte]
    erw [haddr, haddr, hdata]
    cases bigIntItem (some p.id) with
    | error e => rfl
    | ok i =>
      cases bigIntItem (some p.action) with
      | error e => rfl
      | ok j => cases bigIntItem (some p.value) <;> rfl
  rw [encodeToBytes_eq, write_eq, hitems]

theorem decodeBytes_encodeProposal {prop} {b} (h : encodeProposal prop = .ok b) :
    decodeBytes proposalTy b.data = .ok (Proposal.val prop) := by
  obtain ⟨bytes, hwrite, h⟩ := bind_eq_ok.mp h
  obtain rfl := makeSlice_eq_ok h
  refine (decodeBytes_eq_ok (by have := b.len_lt; omega)).mpr ?_
  rw [encodeToBytes_val]
  exact mapError_eq_ok.mp hwrite

section

variable {C : Crypto} {c : Posa ω} {header : Header} {prop : Proposal} {i : ℕ} {tx : Transaction}
variable {sender : Address} {evm : Env ω} {w w' : World ω} {r : Receipt}

theorem attempt_executeMsg {context} {source target} {value : ℕ} {gas} {data} {call}
    (hcontext : c.newEVMBlockContext header = .ok context)
    (hcall : c.interpreter.call ⟨c.chainConfig, false, context, ⟨source, 0⟩⟩ source target data gas value
      w = call) :
    ∃ res, attempt SysError.isReturned (c.executeMsg header source target value gas data) w =
      .ok res (c.ops.finalise true call.state) ∧ res.isOk = call.err.isNone := by
  rw [attempt, Posa.executeMsg, hcontext]
  dsimp only [ofExcept, bind, EStateM.bind, get, getThe, MonadStateOf.get, EStateM.get, pure, EStateM.pure]
  rw [hcall]
  cases call.err with
  | none => exact ⟨_, rfl, rfl⟩
  | some e => exact ⟨_, rfl, rfl⟩

theorem status_newReceipt (failed : Bool) (used : UInt64) :
    (newReceipt [] failed used).status = receiptStatusSuccessful ↔ failed = false := by
  cases failed <;> simp [newReceipt, receiptStatus, receiptStatusFailed, receiptStatusSuccessful]

/-- The tracer takes the gas from the transaction, and drops what `Erase` returns; in all else it does
what the block's replay of the proposal does. -/
theorem applySysTx_reproduces (h : replayProposal C c header prop i tx w = .ok r w')
    (hsender : c.signer.sender C tx = .ok sender) (hevm : BuiltFor c header evm)
    (hignores : IgnoresBaseFee c.interpreter)
    (hgas : bigUint64 prop.action = 0 → tx.gas = header.gasLimit) :
    ∃ out, applySysTx C c evm i sender tx w = .ok out ∧ out.state = w' ∧
      ((out.vmerr = none ↔ r.status = receiptStatusSuccessful) ↔
        (bigUint64 prop.action = 1 → erases c prop sender w = true)) := by
  obtain ⟨sender', propRLP, r', hs, henc, hdata, hrun, rfl⟩ := replayProposal_parts h
  obtain rfl := Except.ok.inj (hsender.symm.trans hs)
  rw [applySysTx, ← hdata, decodeBytes_encodeProposal henc]
  rw [runAction] at hrun
  dsimp only [bind, Except.bind]
  rw [ofVal_val]
  split at hrun
  · rename_i haction
    rw [if_pos haction]
    obtain ⟨_, w₁, hprep, hrun⟩ := bind_ok.mp hrun
    cases hprep
    obtain ⟨res, w₂, htry, hrun⟩ := bind_ok.mp hrun
    obtain ⟨w₃, w₄, hget, hrun⟩ := bind_ok.mp hrun
    obtain ⟨rfl, rfl⟩ := get_ok.mp hget
    obtain ⟨rfl, rfl⟩ := pure_ok.mp hrun
    obtain ⟨res', htry', hres⟩ := attempt_executeMsg hevm.2 rfl
    obtain ⟨rfl, rfl⟩ := EStateM.Result.ok.inj (htry.symm.trans htry')
    rw [hgas haction, hevm.1]
    have hcall := hignores ⟨c.chainConfig, false, { evm.context with extraValidator := none },
      ⟨prop.source, 0⟩⟩ evm.noBaseFee
    rw [hcall]
    refine ⟨_, rfl, rfl, iff_of_true ?_ fun herase => ?_⟩
    · refine Iff.trans ?_ (status_newReceipt (!res.isOk) header.gasUsed).symm
      rw [hres, Option.map_eq_none_iff, Bool.not_eq_false', Option.isNone_iff_eq_none]
    rw [haction] at herase
    cases herase
  rename_i hcall
  rw [if_neg hcall]
  split at hrun
  · rename_i haction
    rw [if_pos haction]
    cases hrun
    refine ⟨_, rfl, rfl, ?_⟩
    rw [status_newReceipt, Bool.not_eq_false', erases]
    simp [haction]
  rename_i herase
  rw [if_neg herase]
  cases hrun
  refine ⟨_, rfl, rfl, iff_of_true ?_ fun haction => absurd haction herase⟩
  exact iff_of_false (Option.some_ne_none _) ((status_newReceipt true _).not.mpr (by decide))

end

def sampleEvm (gasLimit : UInt64) : Env Unit where
  chainConfig := (samplePosa false).chainConfig
  noBaseFee := true
  context := {
    getHash _ := zeros 32
    coinbase := addressOne
    gasLimit := gasLimit
    blockNumber := 200
    time := 600
    difficulty := 2
    baseFee := none
    canCreate := some (samplePosa false).canCreate
    extraValidator := none }
  txContext := ⟨zeros 20, 0⟩

theorem applySysTx_reproduces_call : ∃ r w' out,
    replayProposal sysCrypto (samplePosa false) epochHeader sampleProposal 0 signedSysTx sampleState =
      .ok r w' ∧
    applySysTx sysCrypto (samplePosa false) (sampleEvm 30000000) 0 addressOne signedSysTx sampleState =
      .ok out ∧
    out.state = w' ∧ (out.vmerr = none ↔ r.status = receiptStatusSuccessful) := by
  obtain ⟨r, w', hreplay, _⟩ := exists_ok_of_okAnd (p := fun _ => true) (r := replayProposal sysCrypto
    (samplePosa false) epochHeader sampleProposal 0 signedSysTx sampleState) (by decide +kernel)
  have hsender : (samplePosa false).signer.sender sysCrypto signedSysTx = .ok addressOne := by
    decide +kernel
  have hevm : BuiltFor (samplePosa false) epochHeader (sampleEvm 30000000) := ⟨rfl, rfl⟩
  obtain ⟨out, hout, hstate, hiff⟩ := applySysTx_reproduces hreplay hsender hevm
    (fun _ _ _ _ _ _ _ _ => rfl) fun _ => rfl
  exact ⟨r, w', out, hreplay, hout, hstate, hiff.mpr fun haction => absurd haction (by decide)⟩

def thirstyPosa : Posa Unit :=
  { samplePosa false with
    interpreter := { scripted false with
      call _ _ _ _ gas _ w :=
        ⟨[], 0, UInt64.zero_le, if gas ≤ 20000000 then some .outOfGas else none, w⟩ } }

def smallHeader : Header := { epochHeader with gasLimit := 20000000 }

theorem applySysTx_other_gas : BuiltFor thirstyPosa smallHeader (sampleEvm 20000000) ∧
    IgnoresBaseFee thirstyPosa.interpreter ∧ ∃ r w' out,
      replayProposal sysCrypto thirstyPosa smallHeader sampleProposal 0 signedSysTx sampleState =
        .ok r w' ∧ r.status = receiptStatusFailed ∧
      applySysTx sysCrypto thirstyPosa (sampleEvm 20000000) 0 addressOne signedSysTx sampleState =
        .ok out ∧ out.vmerr = none := by
  obtain ⟨r, w', hreplay, hr⟩ := exists_ok_of_okAnd (p := fun r : Receipt =>
    decide (r.status = receiptStatusFailed)) (r := replayProposal sysCrypto thirstyPosa smallHeader
      sampleProposal 0 signedSysTx sampleState) (by decide +kernel)
  obtain ⟨out, hout, hvm⟩ := exists_ok_of_any (p := fun out => decide (out.vmerr = none))
    (x := applySysTx sysCrypto thirstyPosa (sampleEvm 20000000) 0 addressOne signedSysTx sampleState)
    (by decide +kernel)
  exact ⟨⟨rfl, rfl⟩, fun _ _ _ _ _ _ _ _ => rfl, r, w', out, hreplay, of_decide_eq_true hr, hout,
    of_decide_eq_true hvm⟩

end Geth.Congress.TraceSysTx
