import Geth.Rlp.Stream

namespace Geth.Types.Block

open Lib.BigEndian Common.Basic Rlp.Encode

structure Header where
  parentHash : Hash
  uncleHash : Hash
  coinbase : Address
  root : Hash
  txHash : Hash
  receiptHash : Hash
  bloom : Bloom
  difficulty : BigPtr
  number : BigPtr
  gasLimit : UInt64
  gasUsed : UInt64
  time : UInt64
  extra : Slice UInt8
  mixDigest : Hash
  nonce : BlockNonce
  baseFee : BigPtr
  deriving DecidableEq

def Header.zero : Header where
  parentHash := zeros 32
  uncleHash := zeros 32
  coinbase := zeros 20
  root := zeros 32
  txHash := zeros 32
  receiptHash := zeros 32
  bloom := zeros 256
  difficulty := none
  number := none
  gasLimit := 0
  gasUsed := 0
  time := 0
  extra := Slice.empty
  mixDigest := zeros 32
  nonce := zeros 8
  baseFee := none

def copyHeader (h : Header) : Header :=
  { h with difficulty := some (h.difficulty.getD 0), number := some (h.number.getD 0) }

def extraVanity : Nat := 32
def extraSeal : Nat := 65

/-- The fields of a header up to the optional last one, in encoding order. -/
def Header.fields (h : Header) : List Value :=
  [.array h.parentHash.toList, .array h.uncleHash.toList, .array h.coinbase.toList,
    .array h.root.toList, .array h.txHash.toList, .array h.receiptHash.toList,
    .array h.bloom.toList, .bigInt h.difficulty, .bigInt h.number, .uint h.gasLimit,
    .uint h.gasUsed, .uint h.time, .bytes h.extra.data, .array h.mixDigest.toList,
    .array h.nonce.toList]

/-- `BaseFee` is tagged optional: nil leaves the list one element shorter. -/
def Header.value (h : Header) : Value :=
  match h.baseFee with
  | none => .list h.fields
  | some fee => .list (h.fields ++ [.bigInt (some fee)])

/-- `rlpHash` drops the encoder's error and hashes what was written, which
is nothing when the value cannot be encoded. -/
def rlpHash (C : Crypto) (v : Value) : Hash :=
  match write v with
  | .ok b => C.keccak256 b
  | .error _ => C.keccak256 []

def Header.hash (C : Crypto) (h : Header) : Hash := rlpHash C h.value

def calcUncleHashNil (C : Crypto) : Hash := rlpHash C (.list [])

end Geth.Types.Block
