import Geth.Types.TxData

namespace Geth.Types.Receipts

open Lib.BigEndian Common.Basic Block

structure Log where
  address : Address
  topics : List Hash
  data : Bytes
  blockNumber : UInt64
  txHash : Hash
  txIndex : ℕ
  blockHash : Hash
  index : ℕ
  deriving DecidableEq

structure Receipt where
  type : UInt8
  postState : Bytes
  status : UInt64
  cumulativeGasUsed : UInt64
  bloom : Bloom
  logs : List Log
  txHash : Hash
  contractAddress : Address
  gasUsed : UInt64
  blockHash : Hash
  blockNumber : BigPtr
  transactionIndex : ℕ
  deriving DecidableEq

def receiptStatusFailed : UInt64 := 0
def receiptStatusSuccessful : UInt64 := 1

def receiptStatus (failed : Bool) : UInt64 :=
  if failed then receiptStatusFailed else receiptStatusSuccessful

/-- A legacy receipt with the given outcome and zero values otherwise. -/
def newReceipt (root : Bytes) (failed : Bool) (cumulativeGasUsed : UInt64) : Receipt where
  type := 0
  postState := root
  status := receiptStatus failed
  cumulativeGasUsed := cumulativeGasUsed
  bloom := zeros 256
  logs := []
  txHash := zeros 32
  contractAddress := zeros 20
  gasUsed := 0
  blockHash := zeros 32
  blockNumber := none
  transactionIndex := 0

structure ConsensusLog where
  address : Address
  topics : List Hash
  data : Bytes
  deriving DecidableEq

structure ConsensusFields where
  type : UInt8
  postState : Bytes
  status : UInt64
  cumulativeGasUsed : UInt64
  bloom : Bloom
  logs : List ConsensusLog
  deriving DecidableEq

def Log.consensus (l : Log) : ConsensusLog := ⟨l.address, l.topics, l.data⟩

def Receipt.consensus (r : Receipt) : ConsensusFields :=
  ⟨r.type, r.postState, r.status, r.cumulativeGasUsed, r.bloom, r.logs.map Log.consensus⟩

/-- The byte of the filter and the bit in it that the `k`th pair of bytes of a
hash selects. -/
def bloomValue (hash : Hash) (k : ℕ) : Fin 256 × UInt8 :=
  let hi := hash.toList.getD (2 * k) 0
  let lo := hash.toList.getD (2 * k + 1) 0
  (Fin.ofNat 256 (256 - (hi.toNat * 256 + lo.toNat) % 2048 / 8 - 1), 1 <<< (lo &&& 7))

def setBit (b : Bloom) (v : Fin 256 × UInt8) : Bloom := b.set v.1 (b.get v.1 ||| v.2)

def bloomAdd (C : Crypto) (b : Bloom) (d : Bytes) : Bloom :=
  let hash := C.keccak256 d
  setBit (setBit (setBit b (bloomValue hash 0)) (bloomValue hash 1)) (bloomValue hash 2)

def bloomAddLog (C : Crypto) (b : Bloom) (l : Log) : Bloom :=
  l.topics.foldl (fun b t => bloomAdd C b t.toList) (bloomAdd C b l.address.toList)

def createBloom (C : Crypto) (receipts : List Receipt) : Bloom :=
  (receipts.flatMap Receipt.logs).foldl (bloomAddLog C) (zeros 256)

def createAddress (C : Crypto) (b : Address) (nonce : UInt64) : Address :=
  copyInto 20 ((rlpHash C (.list [.array b.toList, .uint nonce])).toList.drop 12)

def Log.atBlock (blockHash : Hash) (l : Log) : Log := { l with blockHash := blockHash }

theorem foldl_bloomAddLog_atBlock (C : Crypto) (blockHash : Hash) (logs : List Log) (b : Bloom) :
    (logs.map (Log.atBlock blockHash)).foldl (bloomAddLog C) b = logs.foldl (bloomAddLog C) b := by
  rw [List.foldl_map]
  rfl

end Geth.Types.Receipts
