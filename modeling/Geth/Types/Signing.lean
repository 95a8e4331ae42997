import Geth.Params.Config
import Geth.Types.MetaTransaction
import Geth.Types.TxData

namespace Geth.Types.Signing

open Lib.BigEndian Common.Basic Params.Config Rlp.Encode Rlp.Stream Block Signature MetaTransaction
open TxData List

/-- The signers with their chain ids. Each of the last three embeds the one
before it. -/
inductive Signer where
  | frontier
  | homestead
  | eip155 (chainId : Int)
  | eip2930 (chainId : Int)
  | london (chainId : Int)
  deriving DecidableEq

/-- A nil chain id is replaced by zero. -/
def newEIP155Signer (chainId : BigPtr) : Signer := .eip155 (chainId.getD 0)
def newEIP2930Signer (chainId : BigPtr) : Signer := .eip2930 (chainId.getD 0)
def newLondonSigner (chainId : BigPtr) : Signer := .london (chainId.getD 0)

def makeSigner (config : ChainConfig) (blockNumber : BigPtr) : Signer :=
  if config.isLondon blockNumber then newLondonSigner config.chainID
  else if config.isBerlin blockNumber then newEIP2930Signer config.chainID
  else if config.isEIP155 blockNumber then newEIP155Signer config.chainID
  else if config.isHomestead blockNumber then .homestead
  else .frontier

def latestSigner (config : ChainConfig) : Signer :=
  if config.chainID ≠ none then
    if config.londonBlock ≠ none then newLondonSigner config.chainID
    else if config.berlinBlock ≠ none then newEIP2930Signer config.chainID
    else if config.eip155Block ≠ none then newEIP155Signer config.chainID
    else .homestead
  else .homestead

def latestSignerForChainID : BigPtr → Signer
  | none => .homestead
  | some id => newLondonSigner (some id)

def plainFields (tx : Transaction) (data : Bytes) : List Value :=
  [.uint tx.nonce, .bigInt (some tx.gasPrice), .uint tx.gas, toValue tx.toAddr,
    .bigInt (some tx.value), .bytes data]

def protectedFields (chainId : Int) (tx : Transaction) (data : Bytes) : List Value :=
  plainFields tx data ++ [.bigInt (some chainId), .uint 0, .uint 0]

/-- The call data that is signed: the payload where the data can be decoded as
a meta transaction. -/
def signedData (data : Bytes) : Bytes :=
  if isMetaTransaction data then
    match decodeMetaData data 0 with
    | .ok m => m.payload
    | .error _ => data
  else data

def frontierHash (C : Crypto) (tx : Transaction) : Hash :=
  rlpHash C (.list (plainFields tx tx.data.data))

def eip155Hash (C : Crypto) (chainId : Int) (tx : Transaction) : Hash :=
  rlpHash C (.list (protectedFields chainId tx (signedData tx.data.data)))

def eip2930Hash (C : Crypto) (chainId : Int) (tx : Transaction) : Hash :=
  match tx with
  | .legacy _ => rlpHash C (.list (protectedFields chainId tx tx.data.data))
  | .accessList _ => prefixedRlpHash C tx.type (.list ([.bigInt (some chainId)] ++
      plainFields tx tx.data.data ++ [accessListValue tx.accesses]))
  | .dynamicFee _ => zeros 32

def londonHash (C : Crypto) (chainId : Int) (tx : Transaction) : Hash :=
  match tx with
  | .dynamicFee _ => prefixedRlpHash C tx.type (.list [.bigInt (some chainId), .uint tx.nonce,
      .bigInt (some tx.gasTipCap), .bigInt (some tx.gasFeeCap), .uint tx.gas, toValue tx.toAddr,
      .bigInt (some tx.value), .bytes tx.data.data, accessListValue tx.accesses])
  | _ => eip2930Hash C chainId tx

def Signer.hash (C : Crypto) : Signer → Transaction → Hash
  | .frontier, tx => frontierHash C tx
  | .homestead, tx => frontierHash C tx
  | .eip155 id, tx => eip155Hash C id tx
  | .eip2930 id, tx => eip2930Hash C id tx
  | .london id, tx => londonHash C id tx

def plainSender (C : Crypto) (homestead : Bool) (tx : Transaction) : Except TxError Address :=
  if tx.type ≠ 0 then .error .errTxTypeNotSupported
  else
    let (v, r, s) := tx.rawSignatureValues
    recoverPlain C (frontierHash C tx) r s v homestead

def eip155Sender (C : Crypto) (chainId : Int) (tx : Transaction) : Except TxError Address :=
  if tx.type ≠ 0 then .error .errTxTypeNotSupported
  else if !tx.isProtected then plainSender C true tx
  else if tx.chainId ≠ chainId then .error .errInvalidChainId
  else
    let (v, r, s) := tx.rawSignatureValues
    recoverPlain C (eip155Hash C chainId tx) r s (v - chainId * 2 - 8) true

def eip2930Sender (C : Crypto) (chainId : Int) (tx : Transaction) : Except TxError Address :=
  let (v, r, s) := tx.rawSignatureValues
  match tx with
  | .legacy _ =>
    if !tx.isProtected then plainSender C true tx
    else if tx.chainId ≠ chainId then .error .errInvalidChainId
    else recoverPlain C (eip2930Hash C chainId tx) r s (v - chainId * 2 - 8) true
  | .accessList _ =>
    if tx.chainId ≠ chainId then .error .errInvalidChainId
    else recoverPlain C (eip2930Hash C chainId tx) r s (v + 27) true
  | .dynamicFee _ => .error .errTxTypeNotSupported

def londonSender (C : Crypto) (chainId : Int) (tx : Transaction) : Except TxError Address :=
  match tx with
  | .dynamicFee _ =>
    let (v, r, s) := tx.rawSignatureValues
    if tx.chainId ≠ chainId then .error .errInvalidChainId
    else recoverPlain C (londonHash C chainId tx) r s (v + 27) true
  | _ => eip2930Sender C chainId tx

def Signer.sender (C : Crypto) : Signer → Transaction → Except TxError Address
  | .frontier, tx => plainSender C false tx
  | .homestead, tx => plainSender C true tx
  | .eip155 id, tx => eip155Sender C id tx
  | .eip2930 id, tx => eip2930Sender C id tx
  | .london id, tx => londonSender C id tx

/-- Data that the oldest of the three signers does not sign as it is. -/
def CarriesMeta (data : Bytes) : Prop :=
  isMetaTransaction data = true ∧ ∃ m, decodeMetaData data 0 = .ok m

theorem signedData_of_not {data} (h : ¬ CarriesMeta data) : signedData data = data := by
  rw [signedData]
  split
  · rename_i hm
    cases hd : decodeMetaData data 0 with
    | error e => rfl
    | ok m => exact (h ⟨hm, m, hd⟩).elim
  · rfl

theorem decodeMetaFields_length {content} {m}
    (h : decodeMetaFields content = .ok m) : m.payload.length ≤ content.length := by
  obtain ⟨⟨_, s₁⟩, h₁, h⟩ := bind_eq_ok.mp h
  obtain ⟨⟨_, s₂⟩, h₂, h⟩ := bind_eq_ok.mp h
  obtain ⟨⟨_, s₃⟩, h₃, h⟩ := bind_eq_ok.mp h
  obtain ⟨⟨_, s₄⟩, h₄, h⟩ := bind_eq_ok.mp h
  obtain ⟨⟨_, s₅⟩, h₅, h⟩ := bind_eq_ok.mp h
  obtain ⟨⟨payload, s₆⟩, h₆, h⟩ := bind_eq_ok.mp h
  obtain ⟨_, _, h⟩ := bind_eq_ok.mp h
  cases h
  have l₁ := uint64_length (field_eq_ok.mp h₁)
  have l₂ := uint64_length (field_eq_ok.mp h₂)
  have l₃ := bigInt_length (field_eq_ok.mp h₃)
  have l₄ := bigInt_length (field_eq_ok.mp h₄)
  have l₅ := bigInt_length (field_eq_ok.mp h₅)
  have l₆ := bytes_length (field_eq_ok.mp h₆)
  dsimp only
  omega

theorem decodeMetaData_length {data} {n : Int} {m}
    (h : decodeMetaData data n = .ok m) : m.payload.length + 1 < data.length := by
  rw [decodeMetaData] at h
  split at h
  · cases h
  rename_i hlen
  obtain ⟨m', hm, h⟩ := bind_eq_ok.mp h
  obtain ⟨⟨content, rest⟩, hl, hd⟩ := bind_eq_ok.mp (mapError_eq_ok.mp hm)
  obtain ⟨m'', hf, hd⟩ := bind_eq_ok.mp hd
  have hcontent := list_length hl
  have hfields := decodeMetaFields_length hf
  rw [length_drop] at hcontent
  have he : m = m'' := by
    split at hd
    · cases hd
      split at h
      · cases h
      split at h
      · cases h
      · cases h; rfl
    · cases hd
  subst he
  have hp : metaPrefixBytesLen = 17 := rfl
  omega

def Encodable (chainId : Int) (tx : Transaction) : Prop :=
  0 ≤ tx.gasPrice ∧ 0 ≤ tx.value ∧ 0 ≤ chainId

variable {chainId id : Int} {tx : Transaction} {C : Crypto} {config : ChainConfig} {number : BigPtr}

theorem itemAll_protectedFields (h : Encodable chainId tx) :
    ∃ before after, ∀ data, itemAll (protectedFields chainId tx data) =
      .ok (before ++ .str data :: after) := by
  obtain ⟨hp, hv, hc⟩ := h
  refine ⟨[.str (natBytes tx.nonce.toNat), .str (natBytes tx.gasPrice.toNat),
    .str (natBytes tx.gas.toNat), .str ((tx.toAddr.map List.Vector.toList).getD []),
    .str (natBytes tx.value.toNat)], [.str (natBytes chainId.toNat), .str (natBytes 0),
    .str (natBytes 0)], fun data => ?_⟩
  simp [protectedFields, plainFields, toValue, itemAll, item, bigIntItem, not_lt.mpr hp,
    not_lt.mpr hv, not_lt.mpr hc, bind, Except.bind, pure, Except.pure]

theorem itemAll_negative (h : ¬ Encodable chainId tx)
    (data : Bytes) : itemAll (protectedFields chainId tx data) = .error .negativeBigInt := by
  simp only [protectedFields, plainFields, toValue, cons_append, nil_append, itemAll, item,
    bigIntItem, bind, Except.bind, pure, Except.pure]
  by_cases hp : tx.gasPrice < 0
  · simp [hp]
  by_cases hv : tx.value < 0
  · simp [hp, hv]
  by_cases hc : chainId < 0
  · simp [hp, hv, hc]
  · exact (h ⟨not_lt.mp hp, not_lt.mp hv, not_lt.mp hc⟩).elim

theorem rlpHash_negative (h : ¬ Encodable chainId tx) (C : Crypto) (data : Bytes) :
    rlpHash C (.list (protectedFields chainId tx data)) = C.keccak256 [] := by
  rw [rlpHash, write_eq, item, itemAll_negative h]
  rfl

def preimage (chainId : Int) (tx : Transaction) (data : Bytes) : Bytes :=
  (write (.list (protectedFields chainId tx data))).toOption.getD []

theorem rlpHash_preimage (C : Crypto) (chainId : Int) (tx : Transaction) (data : Bytes) :
    rlpHash C (.list (protectedFields chainId tx data)) = C.keccak256 (preimage chainId tx data) := by
  rw [rlpHash, preimage]
  cases write (.list (protectedFields chainId tx data)) <;> rfl

theorem preimage_length_lt (h : Encodable chainId tx) {p d} (hlt : p.length + 1 < d.length) :
    (preimage chainId tx p).length < (preimage chainId tx d).length := by
  obtain ⟨before, after, hitems⟩ := itemAll_protectedFields h
  have hpre (b : Bytes) : preimage chainId tx b = encode (.list (before ++ .str b :: after)) := by
    rw [preimage, write_eq, item, hitems b]
    rfl
  rw [hpre, hpre]
  apply encode_list_length_lt
  have hs := encodeString_length_lt hlt
  simp only [encodeAll_append, encodeAll, encode, length_append]
  omega

/-- The three signers of a chain id treat a transaction alike, and so do the
ones that are picked for a block, for the pool and for the engine. -/
structure SignersAgree (C : Crypto) (id : Int) (tx : Transaction) : Prop where
  hash_eip2930 : (Signer.eip155 id).hash C tx = (Signer.eip2930 id).hash C tx
  hash_london : (Signer.eip2930 id).hash C tx = (Signer.london id).hash C tx
  sender_eip2930 : (Signer.eip155 id).sender C tx = (Signer.eip2930 id).sender C tx
  sender_london : (Signer.eip2930 id).sender C tx = (Signer.london id).sender C tx
  chosen : ∀ (config : ChainConfig) (number : BigPtr), config.chainID = some id →
    (config.isLondon number ∨ config.isBerlin number ∨ config.isEIP155 number) →
    (makeSigner config number).sender C tx = (latestSigner config).sender C tx ∧
      (latestSigner config).sender C tx = (latestSignerForChainID config.chainID).sender C tx

theorem isForked_scheduled {s head} (h : isForked s head = true) : s ≠ none := by
  rintro rfl
  cases h

theorem eip155Sender_eq {tx} (h : eip155Hash C id (.legacy tx) = eip2930Hash C id (.legacy tx)) :
    eip155Sender C id (.legacy tx) = eip2930Sender C id (.legacy tx) := by
  simp only [eip155Sender, eip2930Sender, h]
  rfl

theorem eip155Hash_eq {tx} (h : ¬ (CarriesMeta tx.data.data ∧ Encodable id (.legacy tx))) :
    eip155Hash C id (.legacy tx) = eip2930Hash C id (.legacy tx) := by
  by_cases he : Encodable id (.legacy tx)
  · have hd := signedData_of_not (fun hm => h ⟨hm, he⟩)
    simp only [eip155Hash, eip2930Hash, Transaction.data, hd]
  · simp only [eip155Hash, eip2930Hash, rlpHash_negative he]

section

variable (hid : config.chainID = some id)
    (hfork : config.isLondon number ∨ config.isBerlin number ∨ config.isEIP155 number)
include hid hfork

/-- Where EIP-155 or a later fork is active, one of the three is picked. -/
theorem makeSigner_mem : makeSigner config number ∈ [Signer.eip155 id, .eip2930 id, .london id] := by
  rw [makeSigner]
  split
  · simp [newLondonSigner, hid]
  split
  · simp [newEIP2930Signer, hid]
  split
  · simp [newEIP155Signer, hid]
  rename_i hl hb he
  exact (hfork.elim hl (fun hf => hf.elim hb he)).elim

theorem latestSigner_mem : latestSigner config ∈ [Signer.eip155 id, .eip2930 id, .london id] := by
  have hsome : config.chainID ≠ none := by simp [hid]
  rw [latestSigner, if_pos hsome]
  split
  · simp [newLondonSigner, hid]
  split
  · simp [newEIP2930Signer, hid]
  split
  · simp [newEIP155Signer, hid]
  rename_i hl hb he
  rw [not_not] at hl hb he
  rcases hfork with hf | hf | hf
  · exact (isForked_scheduled hf hl).elim
  · exact (isForked_scheduled hf hb).elim
  · exact (isForked_scheduled hf he).elim

end

theorem sender_eq_london {tx} {s} (h : eip155Hash C id (.legacy tx) = eip2930Hash C id (.legacy tx))
    (hs : s ∈ [Signer.eip155 id, .eip2930 id, .london id]) :
    s.sender C (.legacy tx) = (Signer.london id).sender C (.legacy tx) := by
  simp only [mem_cons, not_mem_nil, or_false] at hs
  rcases hs with rfl | rfl | rfl
  · exact eip155Sender_eq h
  · rfl
  · rfl

/-- The signers agree on a legacy transaction exactly when its call data is no
meta transaction, or when it cannot be encoded at all. The hypothesis is that
the two byte strings that are hashed are no collision. -/
theorem signers_agree_iff {C : Crypto} {id : Int} {tx : LegacyTx}
    (hcol : C.keccak256 (preimage id (.legacy tx) (signedData tx.data.data)) =
        C.keccak256 (preimage id (.legacy tx) tx.data.data) →
      preimage id (.legacy tx) (signedData tx.data.data) = preimage id (.legacy tx) tx.data.data) :
    SignersAgree C id (.legacy tx) ↔
      ¬ (CarriesMeta tx.data.data ∧ Encodable id (.legacy tx)) := by
  refine ⟨?_, fun h => ?_⟩
  · rintro hagree ⟨⟨hm, m, hd⟩, he⟩
    have hhash := hagree.hash_eip2930
    simp only [Signer.hash, eip155Hash, eip2930Hash, Transaction.data, rlpHash_preimage] at hhash
    have hlen := congrArg length (hcol hhash)
    have hsigned : signedData tx.data.data = m.payload := by simp [signedData, hm, hd]
    rw [hsigned] at hlen
    exact absurd hlen (Nat.ne_of_lt (preimage_length_lt he (decodeMetaData_length hd)))
  have hhash := eip155Hash_eq (C := C) h
  refine ⟨hhash, rfl, eip155Sender_eq hhash, rfl, fun config number hid hfork => ?_⟩
  have hmade := sender_eq_london hhash (makeSigner_mem hid hfork)
  have hlatest := sender_eq_london hhash (latestSigner_mem hid hfork)
  refine ⟨hmade.trans hlatest.symm, ?_⟩
  rw [hlatest, hid]
  rfl

def sampleLegacyTx (data : Slice UInt8) : LegacyTx where
  nonce := 0
  gasPrice := 1000
  gas := 100000
  toAddr := some addressTwo
  value := 0
  data := data
  v := 37
  r := 0x5eac059eb188925935b0ed527a5b92f54bddf5e7227d0faf1812a4d304f4598b
  s := 0x7a0e61c5fd6f3fdfd4f7b10b285fb31df019d36818929f7355a35f370bb7283f

/-- Call data that carries the same payload for half of the fee. -/
def sampleMetaData : Slice UInt8 :=
  ⟨(ofNat 93 0x234d6574615472616e73616374696f6e23f84a6482138825a0315f413c51f9ba435013dbf848a6ff6db6f347941950a8da9b97d852589ed483a05aa6e06dfdc533c1aecff906545041243c1fcfa321fc1efdc69a3955e3801203821234).toList, by simp⟩

def sampleMetaTx : LegacyTx := sampleLegacyTx sampleMetaData

/-- The hashes of the transaction without and with its meta data, and the keys
that its signature recovers from them. -/
def metaCrypto : Crypto :=
  let plain := hexToHash 0x03f2284248f9ee677f9d51777dda13423a5e9d73ecb309d38bb36e2e14431ae6
  let full := hexToHash 0x0d1589c500ff9106bd5631f2aa9a31cad9cbb8f14291b437cffcd01a9aa6dd00
  let sig := (ofNat 65 0x5eac059eb188925935b0ed527a5b92f54bddf5e7227d0faf1812a4d304f4598b7a0e61c5fd6f3fdfd4f7b10b285fb31df019d36818929f7355a35f370bb7283f00).toList
  let other : PubKey := ofNat 65 0x0471e6235bc69f935aa0ba03987dafbb6232ba82b57c2276666d35117e1f25c4bdb37ab575556333d0808cf66cb01a9ba976b2e8e73fa990c32c18dc9ea17e351e
  Crypto.ofTables
    ((preimage 1 (.legacy sampleMetaTx) [0x12, 0x34], plain) ::
      (preimage 1 (.legacy sampleMetaTx) sampleMetaData.data, full) ::
      (other.toList.drop 1,
        hexToHash 0x30fbb69523f2ab1023192907c7e8e33d6a5a6dce50e1d8b0d5da12cc9711db3f) ::
      sampleKeys.map (fun k => (k.1.toList.drop 1, k.2)))
    [((plain, sig), pubOne), ((full, sig), other)]

theorem signers_agree_iff_plain :
    SignersAgree metaCrypto 1 (.legacy (sampleLegacyTx ⟨[0x12, 0x34], by decide⟩)) := by
  have hmeta : ¬ CarriesMeta [0x12, 0x34] := fun h => absurd h.1 (by decide)
  have hd : signedData [0x12, 0x34] = [0x12, 0x34] := signedData_of_not hmeta
  refine (signers_agree_iff ?_).mpr (fun h => hmeta h.1)
  intro _
  rw [sampleLegacyTx, hd]

/-- A protected transaction whose sender depends on the signer. -/
theorem signers_disagree_on_meta : isProtectedV sampleMetaTx.v = true ∧
    (Signer.eip155 1).hash metaCrypto (.legacy sampleMetaTx) ≠
      (Signer.eip2930 1).hash metaCrypto (.legacy sampleMetaTx) ∧
    (Signer.eip155 1).sender metaCrypto (.legacy sampleMetaTx) = .ok addressOne ∧
    (Signer.eip2930 1).sender metaCrypto (.legacy sampleMetaTx) =
      .ok (hexToAddress 0xc7e8e33d6a5a6dce50e1d8b0d5da12cc9711db3f) ∧
    (Signer.london 1).sender metaCrypto (.legacy sampleMetaTx) =
      .ok (hexToAddress 0xc7e8e33d6a5a6dce50e1d8b0d5da12cc9711db3f) := by
  refine ⟨by decide, ?_, ?_, ?_, ?_⟩ <;> decide +kernel

end Geth.Types.Signing
