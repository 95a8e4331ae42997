import Geth.Lib.Heap
import Geth.Types.Signing

namespace Geth.Types.PriceAndNonce

open Lib Lib.BigEndian Common.Basic TxData Signing List

structure PoolTx where
  tx : Transaction
  time : Int

structure AccountTxs where
  sender : Address
  first : PoolTx
  later : List PoolTx

def AccountTxs.all (a : AccountTxs) : List PoolTx := a.first :: a.later

structure TxWithMinerFee where
  tx : PoolTx
  minerFee : Int

/-- What the sealer gets for a unit of gas, if the transaction pays the base fee. -/
def effectiveGasTip (tx : Transaction) : BigPtr → Option Int
  | none => some tx.gasTipCap
  | some baseFee =>
    if tx.gasFeeCap < baseFee then none else some (min tx.gasTipCap (tx.gasFeeCap - baseFee))

def newTxWithMinerFee (tx : PoolTx) (baseFee : BigPtr) : Option TxWithMinerFee :=
  (effectiveGasTip tx.tx baseFee).map (⟨tx, ·⟩)

/-- Higher prices first; equal ones by the time they were seen. -/
def TxWithMinerFee.less (a b : TxWithMinerFee) : Bool :=
  if a.minerFee = b.minerFee then decide (a.tx.time < b.tx.time)
  else decide (b.minerFee < a.minerFee)

/-- `types.Sender` where its error is dropped. -/
def senderOrZero (C : Crypto) (signer : Signer) (tx : Transaction) : Address :=
  (signer.sender C tx).toOption.getD (zeros 20)

/-- Transactions in the order of their prices, with those of an account in the
order of their nonces. -/
structure TransactionsByPriceAndNonce where
  txs : List (Address × List PoolTx)
  heads : Array TxWithMinerFee
  signer : Signer
  baseFee : BigPtr

/-- The next transaction of an account whose entry is kept. -/
def AccountTxs.wrapped (C : Crypto) (signer : Signer) (baseFee : BigPtr) (a : AccountTxs) :
    Option TxWithMinerFee :=
  if senderOrZero C signer a.first.tx = a.sender then newTxWithMinerFee a.first baseFee else none

/-- The accounts come in the order in which the map is traversed. -/
def newTransactionsByPriceAndNonce (C : Crypto) (signer : Signer) (txs : List AccountTxs)
    (baseFee : BigPtr) : TransactionsByPriceAndNonce :=
  let kept := txs.filter fun a => (a.wrapped C signer baseFee).isSome
  { txs := kept.map fun a => (a.sender, a.later)
    heads := Heap.init TxWithMinerFee.less (kept.filterMap (·.wrapped C signer baseFee)).toArray
    signer := signer
    baseFee := baseFee }

def advanceAccount (acc : Address) : List (Address × List PoolTx) → List (Address × List PoolTx)
  | [] => []
  | (a, txs) :: rest =>
    if a = acc then (a, txs.tail) :: rest else (a, txs) :: advanceAccount acc rest

def nextOf (acc : Address) (txs : List (Address × List PoolTx)) : Option PoolTx :=
  (txs.lookup acc).bind List.head?

namespace TransactionsByPriceAndNonce

variable (q : TransactionsByPriceAndNonce)

def peek : Option Transaction := q.heads[0]?.map (·.tx.tx)

def pop : Except Panic TransactionsByPriceAndNonce :=
  if q.heads.size = 0 then .error .indexRange
  else .ok { q with heads := Heap.pop TxWithMinerFee.less q.heads }

def shift (C : Crypto) : Except Panic TransactionsByPriceAndNonce :=
  match q.heads[0]? with
  | none => .error .indexRange
  | some head =>
    let acc := senderOrZero C q.signer head.tx.tx
    match (nextOf acc q.txs).bind (newTxWithMinerFee · q.baseFee) with
    | some wrapped => .ok { q with
        txs := advanceAccount acc q.txs
        heads := Heap.fix TxWithMinerFee.less (q.heads.setIfInBounds 0 wrapped) 0 }
    | none => q.pop

def contents : List PoolTx := q.heads.toList.map TxWithMinerFee.tx ++ q.txs.flatMap Prod.snd

end TransactionsByPriceAndNonce

section

variable {C : Crypto} {signer : Signer} {baseFee : BigPtr} {q q' : TransactionsByPriceAndNonce}
    {w : TxWithMinerFee} {t : PoolTx}

theorem newTxWithMinerFee_tx {tx} (h : newTxWithMinerFee tx baseFee = some w) : w.tx = tx := by
  obtain ⟨fee, _, rfl⟩ := Option.map_eq_some_iff.mp h
  rfl

theorem advanceAccount_perm {acc} {txs} (h : nextOf acc txs = some t) :
    (txs.flatMap Prod.snd).Perm (t :: (advanceAccount acc txs).flatMap Prod.snd) := by
  induction txs with
  | nil => cases h
  | cons e rest ih =>
    obtain ⟨a, l⟩ := e
    rw [nextOf, lookup_cons] at h
    rw [advanceAccount]
    by_cases hacc : a = acc
    · rw [if_pos hacc]
      rw [hacc, beq_self_eq_true] at h
      cases l with
      | nil => cases h
      | cons t' l =>
        cases h
        exact .refl _
    rw [if_neg hacc]
    rw [beq_false_of_ne (Ne.symm hacc)] at h
    exact ((ih h).append_left l).trans perm_middle

theorem pop_contents (h : q.pop = .ok q') :
    ∃ head, q.heads[0]? = some head ∧ (head.tx :: q'.contents).Perm q.contents := by
  rw [TransactionsByPriceAndNonce.pop] at h
  split at h
  · cases h
  rename_i hsize
  cases h
  obtain ⟨head, l, hl⟩ : ∃ a l, q.heads.toList = a :: l :=
    exists_cons_of_ne_nil fun hnil => hsize (by rw [← Array.length_toList, hnil]; rfl)
  have hperm := Heap.pop_perm TxWithMinerFee.less (Nat.pos_of_ne_zero hsize)
  rw [hl, tail_cons] at hperm
  refine ⟨head, by rw [← Array.getElem?_toList, hl]; rfl, ?_⟩
  rw [TransactionsByPriceAndNonce.contents, TransactionsByPriceAndNonce.contents, hl]
  exact ((hperm.map _).append_right _).cons _

theorem shift_contents (h : q.shift C = .ok q') :
    ∃ head, q.heads[0]? = some head ∧ (head.tx :: q'.contents).Perm q.contents := by
  rw [TransactionsByPriceAndNonce.shift] at h
  cases hhead : q.heads[0]? with
  | none =>
    rw [hhead] at h
    cases h
  | some head =>
    rw [hhead] at h
    dsimp only at h
    cases hnext : (nextOf (senderOrZero C q.signer head.tx.tx) q.txs).bind
        (newTxWithMinerFee · q.baseFee) with
    | none =>
      rw [hnext] at h
      rw [← hhead]
      exact pop_contents h
    | some wrapped =>
      rw [hnext] at h
      cases h
      obtain ⟨t, ht, hwrap⟩ := Option.bind_eq_some_iff.mp hnext
      obtain ⟨l, hl⟩ : ∃ l, q.heads.toList = head :: l := by
        rw [← Array.getElem?_toList] at hhead
        cases hq : q.heads.toList with
        | nil =>
          rw [hq] at hhead
          cases hhead
        | cons a l =>
          rw [hq] at hhead
          cases hhead
          exact ⟨l, rfl⟩
      refine ⟨head, rfl, ?_⟩
      have hfix := Heap.fix_perm TxWithMinerFee.less (q.heads.setIfInBounds 0 wrapped) 0
      rw [Array.toList_setIfInBounds, hl, set_cons_zero] at hfix
      have hrest := advanceAccount_perm ht
      rw [← newTxWithMinerFee_tx hwrap] at hrest
      rw [TransactionsByPriceAndNonce.contents, TransactionsByPriceAndNonce.contents, hl]
      -- the next transaction leaves the list of its account and joins the heads
      refine List.Perm.cons _ ?_
      refine ((hfix.map TxWithMinerFee.tx).append_right _).trans ?_
      exact (perm_middle.symm).trans (hrest.symm.append_left _)

/-- What a run of `Shift` (`true`) and `Pop` calls hands out, and what is left. -/
def handOut (C : Crypto) : List Bool → TransactionsByPriceAndNonce → List PoolTx × TransactionsByPriceAndNonce
  | [], q => ([], q)
  | again :: script, q =>
    match q.heads[0]?, if again then q.shift C else q.pop with
    | some head, .ok q' =>
      let (txs, left) := handOut C script q'
      (head.tx :: txs, left)
    | _, _ => ([], q)

theorem handOut_perm (C : Crypto) (script : List Bool) (q : TransactionsByPriceAndNonce) :
    ((handOut C script q).1 ++ (handOut C script q).2.contents).Perm q.contents := by
  induction script generalizing q with
  | nil => exact .refl _
  | cons again script ih =>
    rw [handOut]
    split
    next head q' hhead hcall =>
      have hstep : ∃ head, q.heads[0]? = some head ∧ (head.tx :: q'.contents).Perm q.contents := by
        cases again with
        | true => exact shift_contents hcall
        | false => exact pop_contents hcall
      obtain ⟨head', hhead', hperm⟩ := hstep
      cases hhead.symm.trans hhead'
      exact ((ih q').cons head.tx).trans hperm
    next => exact .refl _

end

end Geth.Types.PriceAndNonce
