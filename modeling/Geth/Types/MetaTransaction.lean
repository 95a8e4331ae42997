import Geth.Types.Signature

namespace Geth.Types.MetaTransaction

open Lib.BigEndian Common.Basic Rlp.Encode Rlp.Stream Block Signature

inductive MetaError where
  | errInvalidMetaDataLen
  | rlp (e : DecodeError)
  | feePercent (found : UInt64)
  | expired (current limit : UInt64)
  | errInvalidMetaSig
  deriving DecidableEq, Repr

/-- The fee payer covers `feePercent` hundredths of a percent of the fee, for
blocks up to the limit. -/
structure MetaData where
  blockNumLimit : UInt64
  feePercent : UInt64
  v : Nat
  r : Nat
  s : Nat
  payload : Bytes
  deriving DecidableEq

def big10000 : UInt64 := 10000
def metaPrefixBytesLen : Nat := 17

def metaPrefix : Bytes := (ofNat 17 0x234d6574615472616e73616374696f6e23).toList

def isMetaTransaction (data : Bytes) : Bool :=
  decide (metaPrefixBytesLen ≤ data.length ∧ data.take metaPrefixBytesLen = metaPrefix)

def decodeMetaFields (content : Bytes) : Except DecodeError MetaData := do
  let (blockNumLimit, s) ← field (uint64 true content)
  let (feePercent, s) ← field (uint64 true s)
  let (v, s) ← field (bigInt true s)
  let (r, s) ← field (bigInt true s)
  let (sv, s) ← field (bigInt true s)
  let (payload, s) ← field (bytes true s)
  listEnd s
  return ⟨blockNumLimit, feePercent, v, r, sv, payload⟩

/-- `rlp.DecodeBytes`: one value and nothing behind it. -/
def decodeBytes (b : Bytes) : Except DecodeError MetaData := do
  let (content, rest) ← list false b
  let metaData ← decodeMetaFields content
  if rest = [] then .ok metaData else .error .moreThanOneValue

def decodeMetaData (encodedData : Bytes) (blockNumber : Int) : Except MetaError MetaData :=
  if encodedData.length ≤ metaPrefixBytesLen then .error .errInvalidMetaDataLen
  else do
    let metaData ← (decodeBytes (encodedData.drop metaPrefixBytesLen)).mapError .rlp
    if big10000 < metaData.feePercent then .error (.feePercent metaData.feePercent)
    else if metaData.blockNumLimit < bigUint64 blockNumber then
      .error (.expired (bigUint64 blockNumber) metaData.blockNumLimit)
    else .ok metaData

/-- What the fee payer of a meta transaction signs. -/
def metaFields (m : MetaData) (nonce : UInt64) (gasPrice : Int) (gas : UInt64) (toAddr : Option Address)
    (value : Int) (payload : Bytes) (sender : Address) (chainID : Int) : List Value :=
  [.uint nonce, .bigInt (some gasPrice), .uint gas, .arrayPtr (toAddr.map List.Vector.toList),
    .bigInt (some value), .bytes payload, .array sender.toList, .uint m.feePercent,
    .uint m.blockNumLimit, .bigInt (some chainID)]

def parseMetaData (C : Crypto) (m : MetaData) (nonce : UInt64) (gasPrice : Int) (gas : UInt64)
    (toAddr : Option Address) (value : Int) (payload : Bytes) (sender : Address) (chainID : Int) :
    Except MetaError Address :=
  let hash := rlpHash C (.list (metaFields m nonce gasPrice gas toAddr value payload sender chainID))
  match recoverPlain C hash m.r m.s (m.v - chainID * 2 - 8) true with
  | .error _ => .error .errInvalidMetaSig
  | .ok addr => .ok addr

end Geth.Types.MetaTransaction
