import Geth.Types.Block

namespace Geth.Congress.SealHash

open Lib.BigEndian Common.Basic Rlp.Encode Rlp.Stream Types.Block

def unsealedExtra (h : Header) : Bytes := h.extra.data.take (h.extra.data.length - extraSeal)

def sigFields (h : Header) : List Value :=
  [.array h.parentHash.toList, .array h.uncleHash.toList, .array h.coinbase.toList,
    .array h.root.toList, .array h.txHash.toList, .array h.receiptHash.toList,
    .array h.bloom.toList, .bigInt h.difficulty, .bigInt h.number, .uint h.gasLimit,
    .uint h.gasUsed, .uint h.time, .bytes (unsealedExtra h), .array h.mixDigest.toList,
    .array h.nonce.toList]

/-- The bytes written for sealing. Slicing panics when the extra data is
shorter than a signature, and so does a header that cannot be encoded. -/
def encodeSigHeader (h : Header) : Except Panic Bytes :=
  if h.extra.data.length < extraSeal then .error .sliceBounds
  else match write (.list (sigFields h)) with
    | .error _ => .error .explicit
    | .ok b => .ok b

/-- The writer is a byte buffer, which panics when it would outgrow a slice. -/
def congressRLP (h : Header) : Except Panic Bytes := do
  let b ← encodeSigHeader h
  if b.length < maxLen then .ok b else .error .makeSliceLen

def sealHash (C : Crypto) (h : Header) : Except Panic Hash := do
  let b ← encodeSigHeader h
  return C.keccak256 b

def AgreeUnsealed (h₁ h₂ : Header) : Prop :=
  { h₁ with extra := Slice.empty } = { h₂ with extra := Slice.empty } ∧
    unsealedExtra h₁ = unsealedExtra h₂

theorem congressRLP_eq_ok {h} {b} (hb : congressRLP h = .ok b) :
    ∃ items, itemAll (sigFields h) = .ok items ∧ b = encode (.list items) ∧ b.length < maxLen := by
  obtain ⟨b', hw, hb⟩ := bind_eq_ok.mp hb
  unfold encodeSigHeader at hw
  split at hw
  · cases hw
  rw [write_eq, item] at hw
  cases hi : itemAll (sigFields h) with
  | error e => simp [hi, bind, Except.bind, Except.map] at hw
  | ok items =>
    simp only [hi, bind, Except.bind, pure, Except.pure, Except.map, Except.ok.injEq] at hw
    split at hb
    · rename_i hlen
      cases hb
      exact ⟨items, rfl, hw.symm, hlen⟩
    · cases hb

theorem sigFields_forall₂ {h₁ h₂} {b} (hb₁ : congressRLP h₁ = .ok b) (hb₂ : congressRLP h₂ = .ok b) :
    List.Forall₂ (fun v w => ∃ i, item v = .ok i ∧ item w = .ok i) (sigFields h₁) (sigFields h₂) := by
  obtain ⟨is, his, hb, hlen⟩ := congressRLP_eq_ok hb₁
  obtain ⟨js, hjs, hb', _⟩ := congressRLP_eq_ok hb₂
  have hlt : b.length < 2 ^ 64 := lt_trans hlen (by decide)
  obtain ⟨he, _⟩ := encode_append_inj (.list is) (.list js) [] []
    (hb ▸ hlt) (hb' ▸ hlt) (by rw [← hb, ← hb'])
  rw [← Item.list.inj he] at hjs
  exact itemAll_forall₂ his hjs

/-- The bytes a sealer signs determine the header, the base fee excepted,
which is not among them. A nil difficulty or number is signed like zero. -/
theorem congressRLP_commits {h₁ h₂ : Header} {b : Bytes}
    (hb₁ : congressRLP h₁ = .ok b) (hb₂ : congressRLP h₂ = .ok b) :
    AgreeUnsealed h₁ h₂ ↔ h₁.baseFee = h₂.baseFee ∧
      (h₁.difficulty = none ↔ h₂.difficulty = none) ∧ (h₁.number = none ↔ h₂.number = none) := by
  constructor
  · rintro ⟨h, _⟩
    simp only [Header.mk.injEq] at h
    obtain ⟨_, _, _, _, _, _, _, hd, hn, _, _, _, _, _, _, hf⟩ := h
    exact ⟨hf, by rw [hd], by rw [hn]⟩
  rintro ⟨hf, hd, hn⟩
  have hall := sigFields_forall₂ hb₁ hb₂
  simp only [sigFields, List.forall₂_cons, List.forall₂_nil_left_iff, and_true] at hall
  obtain ⟨h1, h2, h3, h4, h5, h6, h7, h8, h9, h10, h11, h12, h13, h14, h15⟩ := hall
  refine ⟨?_, item_bytes_inj h13⟩
  simp only [Header.mk.injEq]
  exact ⟨item_array_inj h1, item_array_inj h2, item_array_inj h3, item_array_inj h4,
    item_array_inj h5, item_array_inj h6, item_array_inj h7, item_bigInt_inj hd h8,
    item_bigInt_inj hn h9, item_uint_inj h10, item_uint_inj h11, item_uint_inj h12, trivial,
    item_array_inj h14, item_array_inj h15, hf⟩

def sampleHeader (sig : UInt8) (fee : BigPtr) : Header :=
  { Header.zero with
    difficulty := some 2
    number := some 1
    gasLimit := 30000000
    extra := ⟨List.replicate 32 0 ++ List.replicate 65 sig, by simp⟩
    baseFee := fee }

theorem sampleHeader_encodes : ∃ b, congressRLP (sampleHeader 1 (some 0)) = .ok b :=
  exists_of_isOk (by decide +kernel)

theorem congressRLP_commits_resealed :
    AgreeUnsealed (sampleHeader 1 (some 0)) (sampleHeader 2 (some 0)) := by
  obtain ⟨b, hb⟩ := sampleHeader_encodes
  have hb' : congressRLP (sampleHeader 2 (some 0)) = .ok b := by
    rw [← hb]
    decide +kernel
  exact (congressRLP_commits hb hb').mpr ⟨rfl, Iff.rfl, Iff.rfl⟩

theorem congressRLP_omits_baseFee :
    ¬ ∀ (h₁ h₂ : Header) (b : Bytes), extraSeal ≤ h₁.extra.data.length →
      extraSeal ≤ h₂.extra.data.length → congressRLP h₁ = .ok b → congressRLP h₂ = .ok b →
      AgreeUnsealed h₁ h₂ := by
  intro hall
  obtain ⟨b, hb⟩ := sampleHeader_encodes
  have hagree := hall (sampleHeader 1 (some 0)) (sampleHeader 1 (some 1)) b (by decide) (by decide) hb hb
  exact absurd (congrArg Header.baseFee hagree.1) (by decide)

end Geth.Congress.SealHash
