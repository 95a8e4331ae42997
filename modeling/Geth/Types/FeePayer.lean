import Geth.Types.MetaTransaction

namespace Geth.Types.FeePayer

open Lib.BigEndian Common.Basic Rlp.Encode Block Signature MetaTransaction Option

/-- The values of `R` and `S` that are accepted since Homestead. -/
def ValidRS (R S : Int) : Prop := 1 ≤ R ∧ R < secp256k1N ∧ 1 ≤ S ∧ S ≤ secp256k1halfN

/-- The recovery id that `recoverPlain` hands to public-key recovery. -/
def recoveryId (R S Vb : Int) : Option UInt8 :=
  if 8 < bigBitLen Vb then none
  else
    let V := UInt8.ofNat (bigUint64 Vb - 27).toNat
    if validateSignatureValues V R S true then some V else none

def recovered (C : Crypto) (sighash : Hash) (R S : Int) (id : UInt8) : Except TxError Address :=
  match C.recoverPubkey sighash
    ((ofNat 32 R.natAbs).toList ++ (ofNat 32 S.natAbs).toList ++ [id]) with
  | none => .error .errRecover
  | some pub =>
    if pub.toList.head? ≠ some 4 then .error .invalidPublicKey else .ok (C.pubkeyToAddress pub)

theorem recoverPlain_eq (C : Crypto) (sighash : Hash) (R S Vb : Int) : recoverPlain C sighash R S Vb true =
      (recoveryId R S Vb).elim (.error .errInvalidSig) (recovered C sighash R S) := by
  rw [recoverPlain, recoveryId]
  split
  · rfl
  dsimp only
  split <;> rfl

theorem validateSignatureValues_iff (v : UInt8) (R S : Int) :
    validateSignatureValues v R S true = true ↔ ValidRS R S ∧ (v = 0 ∨ v = 1) := by
  have hhalf : secp256k1halfN < secp256k1N := by decide
  rw [validateSignatureValues, ValidRS]
  split
  next hlow => exact iff_of_false Bool.false_ne_true fun h => by omega
  next hlow =>
    split
    next hhigh => exact iff_of_false Bool.false_ne_true fun h => by omega
    next hhigh =>
      rw [decide_eq_true_eq]
      constructor
      · rintro ⟨hr, -, hv⟩
        exact ⟨⟨by omega, hr, by omega, not_lt.mp fun h => hhigh ⟨rfl, h⟩⟩, hv⟩
      rintro ⟨⟨-, hr, -, hs⟩, hv⟩
      exact ⟨hr, hs.trans_lt hhalf, hv⟩

theorem narrowed (n : Fin 256) : (UInt8.ofNat (UInt64.ofNat n.val - 27).toNat = 0 ↔ n.val = 27) ∧
      (UInt8.ofNat (UInt64.ofNat n.val - 27).toNat = 1 ↔ n.val = 28) := by
  revert n
  decide +kernel

theorem recoveryId_eq_some {R S Vb : Int} {id} : recoveryId R S Vb = some id ↔
    ValidRS R S ∧ (id = 0 ∧ Vb.natAbs = 27 ∨ id = 1 ∧ Vb.natAbs = 28) := by
  rw [recoveryId]
  by_cases hlen : Vb.natAbs < 2 ^ 8
  · obtain ⟨h27, h28⟩ := narrowed ⟨Vb.natAbs, hlen⟩
    have hshort : ¬ 8 < bigBitLen Vb := Nat.not_lt.mpr (bitLen_le_iff.mpr hlen)
    rw [if_neg hshort]
    dsimp only at h27 h28 ⊢
    rw [bigUint64]
    split
    next hvalid =>
      obtain ⟨hrs, hv⟩ := (validateSignatureValues_iff _ R S).mp hvalid
      rw [some.injEq]
      constructor
      · rintro rfl
        exact ⟨hrs, hv.imp (fun h => ⟨h, h27.mp h⟩) fun h => ⟨h, h28.mp h⟩⟩
      rintro ⟨-, ⟨rfl, h⟩ | ⟨rfl, h⟩⟩
      · exact h27.mpr h
      · exact h28.mpr h
    next hvalid =>
      refine iff_of_false (by simp) ?_
      rintro ⟨hrs, ⟨-, h⟩ | ⟨-, h⟩⟩
      · exact hvalid ((validateSignatureValues_iff _ R S).mpr ⟨hrs, .inl (h27.mpr h)⟩)
      · exact hvalid ((validateSignatureValues_iff _ R S).mpr ⟨hrs, .inr (h28.mpr h)⟩)
  have hlong : 8 < bigBitLen Vb := Nat.lt_of_not_le fun h => hlen (bitLen_le_iff.mp h)
  rw [if_pos hlong]
  refine iff_of_false (by simp) ?_
  omega

/-- The fields of a transaction that its fee payer signs. -/
structure TxFields where
  nonce : UInt64
  gasPrice : Int
  gas : UInt64
  toAddr : Option Address
  value : Int
  payload : Bytes
  sender : Address

variable {C : Crypto} {t : TxFields} {m : MetaData} {chainID : Int}

def TxFields.parse (t : TxFields) (C : Crypto) (m : MetaData) (chainID : Int) :
    Except MetaError Address :=
  parseMetaData C m t.nonce t.gasPrice t.gas t.toAddr t.value t.payload t.sender chainID

def TxFields.payer (t : TxFields) (C : Crypto) (m : MetaData) (chainID : Int) (id : UInt8) :
    Except TxError Address :=
  recovered C (rlpHash C (.list (metaFields m t.nonce t.gasPrice t.gas t.toAddr t.value t.payload
    t.sender chainID))) m.r m.s id

/-- The recovery id that `ParseMetaData` hands on for the signature in the meta data. -/
def handedId (m : MetaData) (chainID : Int) : Option UInt8 :=
  recoveryId m.r m.s (m.v - chainID * 2 - 8)

theorem parse_eq : t.parse C m chainID = (handedId m chainID).elim (.error .errInvalidMetaSig)
    fun id => (t.payer C m chainID id).mapError fun _ => .errInvalidMetaSig := by
  rw [TxFields.parse, parseMetaData, recoverPlain_eq, ← handedId]
  cases handedId m chainID with
  | none => rfl
  | some id =>
    simp only [elim_some, TxFields.payer]
    split <;> simp_all [Except.mapError]

theorem parse_eq_ok {a} (h : t.parse C m chainID = .ok a) :
    ∃ id, handedId m chainID = some id ∧ t.payer C m chainID id = .ok a := by
  rw [parse_eq] at h
  cases hid : handedId m chainID with
  | none =>
    rw [hid] at h
    cases h
  | some id =>
    rw [hid] at h
    exact ⟨id, rfl, mapError_eq_ok.mp h⟩

theorem handedId_iff {id} : handedId m chainID = some id ↔ ValidRS m.r m.s ∧
    (id = 0 ∧ (m.v = 2 * chainID + 35 ∨ m.v = 2 * chainID - 19) ∨
      id = 1 ∧ (m.v = 2 * chainID + 36 ∨ m.v = 2 * chainID - 20)) := by
  have h27 : (m.v - chainID * 2 - 8).natAbs = 27 ↔
      m.v = 2 * chainID + 35 ∨ m.v = 2 * chainID - 19 := by omega
  have h28 : (m.v - chainID * 2 - 8).natAbs = 28 ↔
      m.v = 2 * chainID + 36 ∨ m.v = 2 * chainID - 20 := by omega
  rw [handedId, recoveryId_eq_some, h27, h28]

theorem handedId_none (hrs : ValidRS m.r m.s) : handedId m chainID = none ↔
    m.v ≠ 2 * chainID + 35 ∧ m.v ≠ 2 * chainID + 36 ∧ m.v ≠ 2 * chainID - 19 ∧ m.v ≠ 2 * chainID - 20 := by
  rw [← not_iff_not, ← ne_eq, ne_none_iff_exists']
  simp only [handedId_iff, hrs, true_and]
  constructor
  · rintro ⟨id, ⟨-, h | h⟩ | ⟨-, h | h⟩⟩ <;> simp [h]
  · intro h
    by_cases h₀ : m.v = 2 * chainID + 35 ∨ m.v = 2 * chainID - 19
    · exact ⟨0, .inl ⟨rfl, h₀⟩⟩
    · exact ⟨1, .inr ⟨rfl, by omega⟩⟩

/-- Below ten no `V` can be the negative of another one. -/
theorem handedId_injective_iff {id} (hid : handedId m chainID = some id) :
    (∀ v : ℕ, handedId { m with v := v } chainID = some id → v = m.v) ↔ chainID ≤ 9 := by
  obtain ⟨hrs, hcases⟩ := handedId_iff.mp hid
  constructor
  · intro hunique
    by_contra hbig
    have hget (v : ℕ) (h : id = 0 ∧ ((v : Int) = 2 * chainID + 35 ∨ (v : Int) = 2 * chainID - 19) ∨
        id = 1 ∧ ((v : Int) = 2 * chainID + 36 ∨ (v : Int) = 2 * chainID - 20)) : v = m.v :=
      hunique v (handedId_iff.mpr ⟨hrs, h⟩)
    obtain ⟨rfl, -⟩ | ⟨rfl, -⟩ := hcases
    · have h₁ := hget (2 * chainID + 35).toNat (.inl ⟨rfl, by omega⟩)
      have h₂ := hget (2 * chainID - 19).toNat (.inl ⟨rfl, by omega⟩)
      omega
    · have h₁ := hget (2 * chainID + 36).toNat (.inr ⟨rfl, by omega⟩)
      have h₂ := hget (2 * chainID - 20).toNat (.inr ⟨rfl, by omega⟩)
      omega
  · intro hsmall v hv'
    obtain ⟨-, hcases'⟩ := handedId_iff.mp hv'
    obtain ⟨rfl, h⟩ | ⟨rfl, h⟩ := hcases
    · obtain ⟨-, h'⟩ | ⟨hne, -⟩ := hcases'
      · dsimp only at h'
        omega
      · cases hne
    · obtain ⟨hne, -⟩ | ⟨-, h'⟩ := hcases'
      · cases hne
      · dsimp only at h'
        omega

/-- One `V` is accepted for each recovery id exactly where the reduced `V` is not the negative of an
accepted one, and no other `V` stands for the same recovery id exactly below chain ten. -/
theorem feePayer_signature_unique (C : Crypto) (t : TxFields) (m : MetaData) (chainID : Int) :
    (t.parse C m chainID = (handedId m chainID).elim (.error .errInvalidMetaSig)
      fun id => (t.payer C m chainID id).mapError fun _ => .errInvalidMetaSig) ∧
    (¬ ValidRS m.r m.s → handedId m chainID = none) ∧
    (ValidRS m.r m.s →
      (((handedId m chainID = some 0 ↔ m.v = 2 * chainID + 35) ∧
          (handedId m chainID = some 1 ↔ m.v = 2 * chainID + 36) ∧
          (m.v ≠ 2 * chainID + 35 → m.v ≠ 2 * chainID + 36 → handedId m chainID = none)) ↔
        m.v ≠ 2 * chainID - 19 ∧ m.v ≠ 2 * chainID - 20)) ∧
    (∀ id, handedId m chainID = some id →
      ((∀ v : ℕ, handedId { m with v := v } chainID = some id → v = m.v) ↔ chainID ≤ 9)) ∧
    (chainID ≤ 9 → (∀ a, t.payer C m chainID 0 = .ok a → t.payer C m chainID 1 ≠ .ok a) →
      ∀ (v : ℕ) (a : Address), t.parse C m chainID = .ok a → t.parse C { m with v := v } chainID = .ok a →
        v = m.v) := by
  refine ⟨parse_eq, fun hrs => ?_, fun hrs => ?_, fun id => handedId_injective_iff, ?_⟩
  · by_contra hid
    obtain ⟨id, hid⟩ := ne_none_iff_exists'.mp hid
    exact hrs (handedId_iff.mp hid).1
  · rw [handedId_none hrs, handedId_iff, handedId_iff]
    have h₀₁ : (0 : UInt8) ≠ 1 := by decide
    simp only [hrs, h₀₁, h₀₁.symm, true_and, false_and, or_false, false_or]
    omega
  · intro hsmall hdiffer v a hm hv'
    obtain ⟨id, hid, hrec⟩ := parse_eq_ok hm
    obtain ⟨id', hid', hrec'⟩ := parse_eq_ok hv'
    obtain rfl : id = id' := by
      obtain ⟨-, ⟨rfl, -⟩ | ⟨rfl, -⟩⟩ := handedId_iff.mp hid <;>
        obtain ⟨-, ⟨rfl, -⟩ | ⟨rfl, -⟩⟩ := handedId_iff.mp hid'
      · rfl
      · exact (hdiffer a hrec hrec').elim
      · exact (hdiffer a hrec' hrec).elim
      · rfl
    exact (handedId_injective_iff hid).mpr hsmall v hid'

def sampleMeta (v : ℕ) : MetaData := ⟨0, 0, v, 1, 1, []⟩

theorem feePayer_signature_unique_ten : handedId (sampleMeta 55) 10 = some 0 ∧
    ¬ ∀ v : ℕ, handedId { sampleMeta 55 with v := v } 10 = some 0 → v = (sampleMeta 55).v := by
  obtain ⟨-, -, h, hunique, -⟩ := feePayer_signature_unique ⟨fun _ => zeros 32, fun _ _ => none⟩
    ⟨0, 0, 0, none, 0, [], zeros 20⟩ (sampleMeta 55) 10
  have hid := ((h ⟨by decide, by decide, by decide, by decide⟩).mpr ⟨by decide, by decide⟩).1.mpr rfl
  exact ⟨hid, fun hall => absurd ((hunique 0 hid).mp hall) (by decide)⟩

/-- On chain ten `V = 1` gives the fee payer that `V = 55` gives. -/
theorem feePayer_second_signature : handedId (sampleMeta 1) 10 = some 0 ∧
    ∀ (C : Crypto) (t : TxFields), t.parse C (sampleMeta 1) 10 = t.parse C (sampleMeta 55) 10 := by
  have hid : handedId (sampleMeta 1) 10 = handedId (sampleMeta 55) 10 := by decide
  refine ⟨by decide, fun C t => ?_⟩
  rw [parse_eq, parse_eq, hid]
  rfl

end Geth.Types.FeePayer
