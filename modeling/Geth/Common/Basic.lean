import Geth.Lib.BigEndian

namespace Geth.Common.Basic

open Lib.BigEndian

abbrev Address := FixedBytes 20
abbrev Hash := FixedBytes 32
abbrev Bloom := FixedBytes 256
abbrev BlockNonce := FixedBytes 8
abbrev PubKey := FixedBytes 65

def hexToAddress (v : Nat) : Address := ofNat 20 v
def hexToHash (v : Nat) : Hash := ofNat 32 v

/-- A Go slice. Its length is an `int`, so it stays below 2^63. -/
@[ext] structure Slice (α : Type) where
  data : List α
  len_lt : data.length < 2 ^ 63
  deriving DecidableEq

def Slice.empty {α : Type} : Slice α := ⟨[], by simp⟩

inductive Panic where
  | nilPointer | divideByZero | sliceBounds | makeSliceLen | indexRange | explicit
  deriving DecidableEq, Repr

/-- `*big.Int`; `none` is the nil pointer. -/
abbrev BigPtr := Option Int

/-- `big.Int.Uint64`: the low 64 bits of the absolute value. -/
def bigUint64 (i : Int) : UInt64 := UInt64.ofNat i.natAbs

/-- The hash function and the curve operation, both from outside the
repository's own Go code. `recoverPubkey` is `none` where it returns an error. -/
structure Crypto where
  keccak256 : Bytes → Hash
  recoverPubkey : Hash → Bytes → Option PubKey

def Crypto.pubkeyToAddress (C : Crypto) (pub : PubKey) : Address :=
  copyInto 20 ((C.keccak256 (pub.toList.drop 1)).toList.drop 12)

/-- Cryptography given by finitely many recorded values. -/
def Crypto.ofTables (hashes : List (Bytes × Hash)) (keys : List ((Hash × Bytes) × PubKey)) : Crypto where
  keccak256 b := (hashes.lookup b).getD (zeros 32)
  recoverPubkey h sig := keys.lookup (h, sig)

def pubOne : PubKey := ofNat 65 0x0479be667ef9dcbbac55a06295ce870b07029bfcdb2dce28d959f2815b16f81798483ada7726a3c4655da4fbfc0e1108a8fd17b448a68554199c47d08ffb10d4b8
def pubTwo : PubKey := ofNat 65 0x04c6047f9441ed7d6d3045406e95c07cd85c778e4b8cef3ca7abac09b95c709ee51ae168fea63dc339a3c58419466ceaeef7f632653266d0e1236431a950cfe52a

def addressOne : Address := hexToAddress 0x7e5f4552091a69125d5dfcb7b8c2659029395bdf
def addressTwo : Address := hexToAddress 0x2b5ad5c4795c026514f8317c7a215e218dccd6cf

def sampleKeys : List (PubKey × Hash) :=
  [(pubOne, hexToHash 0xc0a6c424ac7157ae408398df7e5f4552091a69125d5dfcb7b8c2659029395bdf),
    (pubTwo, hexToHash 0xeedf1a9c68b3f4a8b1a1032b2b5ad5c4795c026514f8317c7a215e218dccd6cf)]

variable {ε α : Type} {x : Except ε α}

theorem bind_eq_ok {β : Type} {f} {b : β} : (x >>= f) = .ok b ↔ ∃ a, x = .ok a ∧ f a = .ok b := by
  cases x with
  | error e => simp [bind, Except.bind]
  | ok a => simp [bind, Except.bind]

theorem mapError_eq_ok {ε' : Type} {f : ε → ε'} {a : α} : x.mapError f = .ok a ↔ x = .ok a := by
  cases x with
  | error e => simp [Except.mapError]
  | ok b => simp [Except.mapError]

theorem exists_of_isOk (h : x.isOk = true) : ∃ a, x = .ok a := by
  cases x with
  | error e => cases h
  | ok a => exact ⟨a, rfl⟩

theorem exists_ok_of_any {p} (h : x.toOption.any p = true) : ∃ a, x = .ok a ∧ p a = true := by
  cases x with
  | error e => cases h
  | ok a => exact ⟨a, rfl, h⟩

end Geth.Common.Basic
