import Geth.Types.Signature

namespace Geth.Types.TxData

open Common.Basic Rlp.Encode Block Signature

structure AccessTuple where
  address : Address
  storageKeys : List Hash
  deriving DecidableEq

abbrev AccessList := List AccessTuple

structure LegacyTx where
  nonce : UInt64
  gasPrice : Int
  gas : UInt64
  toAddr : Option Address
  value : Int
  data : Slice UInt8
  v : Int
  r : Int
  s : Int
  deriving DecidableEq

structure AccessListTx extends LegacyTx where
  chainID : Int
  accessList : AccessList
  deriving DecidableEq

structure DynamicFeeTx where
  chainID : Int
  nonce : UInt64
  gasTipCap : Int
  gasFeeCap : Int
  gas : UInt64
  toAddr : Option Address
  value : Int
  data : Slice UInt8
  accessList : AccessList
  v : Int
  r : Int
  s : Int
  deriving DecidableEq

/-- A transaction as decoding or the package's constructors leave it: no
integer is a nil pointer. The caches and the local time are left out. -/
inductive Transaction where
  | legacy (inner : LegacyTx)
  | accessList (inner : AccessListTx)
  | dynamicFee (inner : DynamicFeeTx)
  deriving DecidableEq

namespace Transaction

def type : Transaction → UInt8
  | .legacy _ => 0
  | .accessList _ => 1
  | .dynamicFee _ => 2

def chainId : Transaction → Int
  | .legacy tx => deriveChainId tx.v
  | .accessList tx => tx.chainID
  | .dynamicFee tx => tx.chainID

def accesses : Transaction → AccessList
  | .legacy _ => []
  | .accessList tx => tx.accessList
  | .dynamicFee tx => tx.accessList

def data : Transaction → Slice UInt8
  | .legacy tx => tx.data
  | .accessList tx => tx.data
  | .dynamicFee tx => tx.data

def gas : Transaction → UInt64
  | .legacy tx => tx.gas
  | .accessList tx => tx.gas
  | .dynamicFee tx => tx.gas

def gasPrice : Transaction → Int
  | .legacy tx => tx.gasPrice
  | .accessList tx => tx.gasPrice
  | .dynamicFee tx => tx.gasFeeCap

def gasTipCap : Transaction → Int
  | .legacy tx => tx.gasPrice
  | .accessList tx => tx.gasPrice
  | .dynamicFee tx => tx.gasTipCap

def gasFeeCap : Transaction → Int
  | .legacy tx => tx.gasPrice
  | .accessList tx => tx.gasPrice
  | .dynamicFee tx => tx.gasFeeCap

def value : Transaction → Int
  | .legacy tx => tx.value
  | .accessList tx => tx.value
  | .dynamicFee tx => tx.value

def nonce : Transaction → UInt64
  | .legacy tx => tx.nonce
  | .accessList tx => tx.nonce
  | .dynamicFee tx => tx.nonce

def toAddr : Transaction → Option Address
  | .legacy tx => tx.toAddr
  | .accessList tx => tx.toAddr
  | .dynamicFee tx => tx.toAddr

def rawSignatureValues : Transaction → Int × Int × Int
  | .legacy tx => (tx.v, tx.r, tx.s)
  | .accessList tx => (tx.v, tx.r, tx.s)
  | .dynamicFee tx => (tx.v, tx.r, tx.s)

def isProtected : Transaction → Bool
  | .legacy tx => isProtectedV tx.v
  | _ => true

end Transaction

def accessListValue (al : AccessList) : Value :=
  .list (al.map fun t =>
    .list [.array t.address.toList, .list (t.storageKeys.map fun k => .array k.toList)])

def toValue (toAddr : Option Address) : Value := .arrayPtr (toAddr.map List.Vector.toList)

def signatureFields (tx : Transaction) : List Value :=
  let (v, r, s) := tx.rawSignatureValues
  [.bigInt (some v), .bigInt (some r), .bigInt (some s)]

def innerValue : Transaction → Value
  | .legacy tx => .list ([.uint tx.nonce, .bigInt (some tx.gasPrice), .uint tx.gas, toValue tx.toAddr,
      .bigInt (some tx.value), .bytes tx.data.data] ++ signatureFields (.legacy tx))
  | .accessList tx => .list ([.bigInt (some tx.chainID), .uint tx.nonce, .bigInt (some tx.gasPrice),
      .uint tx.gas, toValue tx.toAddr, .bigInt (some tx.value), .bytes tx.data.data,
      accessListValue tx.accessList] ++ signatureFields (.accessList tx))
  | .dynamicFee tx => .list ([.bigInt (some tx.chainID), .uint tx.nonce,
      .bigInt (some tx.gasTipCap), .bigInt (some tx.gasFeeCap), .uint tx.gas, toValue tx.toAddr,
      .bigInt (some tx.value), .bytes tx.data.data, accessListValue tx.accessList] ++
      signatureFields (.dynamicFee tx))

/-- Like `rlpHash`, with a type byte written before the encoding. -/
def prefixedRlpHash (C : Crypto) (tag : UInt8) (v : Value) : Hash :=
  match write v with
  | .ok b => C.keccak256 (tag :: b)
  | .error _ => C.keccak256 [tag]

def Transaction.hash (C : Crypto) (tx : Transaction) : Hash :=
  match tx with
  | .legacy _ => rlpHash C (innerValue tx)
  | _ => prefixedRlpHash C tx.type (innerValue tx)

end Geth.Types.TxData
