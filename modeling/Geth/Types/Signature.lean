import Geth.Types.Block

namespace Geth.Types.Signature

open Lib.BigEndian Common.Basic

inductive TxError where
  | errInvalidSig
  | errTxTypeNotSupported
  | errInvalidChainId
  | errRecover
  | invalidPublicKey
  deriving DecidableEq, Repr

def secp256k1N : Int := 0xfffffffffffffffffffffffffffffffebaaedce6af48a03bbfd25e8cd0364141
def secp256k1halfN : Int := secp256k1N / 2

/-- `big.Int.BitLen`, of the absolute value. -/
def bigBitLen (i : Int) : Nat := bitLen i.natAbs

def validateSignatureValues (v : UInt8) (r s : Int) (homestead : Bool) : Bool :=
  if r < 1 ∨ s < 1 then false
  else if homestead ∧ secp256k1halfN < s then false
  else decide (r < secp256k1N ∧ s < secp256k1N ∧ (v = 0 ∨ v = 1))

def isProtectedV (v : Int) : Bool :=
  if bigBitLen v ≤ 8 then
    let u := bigUint64 v
    decide (u ≠ 27 ∧ u ≠ 28 ∧ u ≠ 1 ∧ u ≠ 0)
  else true

/-- The chain id in the `V` of a protected signature. Short values are
computed on machine words, which wrap below 35. -/
def deriveChainId (v : Int) : Int :=
  if bigBitLen v ≤ 64 then
    let u := bigUint64 v
    if u = 27 ∨ u = 28 then 0 else ((u - 35) / 2).toNat
  else (v - 35) / 2

def recoverPlain (C : Crypto) (sighash : Hash) (R S Vb : Int) (homestead : Bool) :
    Except TxError Address :=
  if 8 < bigBitLen Vb then .error .errInvalidSig
  else
    let V := UInt8.ofNat (bigUint64 Vb - 27).toNat
    if validateSignatureValues V R S homestead then
      let sig := (ofNat 32 R.natAbs).toList ++ (ofNat 32 S.natAbs).toList ++ [V]
      match C.recoverPubkey sighash sig with
      | none => .error .errRecover
      | some pub =>
        if pub.toList.head? ≠ some 4 then .error .invalidPublicKey
        else .ok (C.pubkeyToAddress pub)
    else .error .errInvalidSig

end Geth.Types.Signature
