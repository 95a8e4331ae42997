import Geth.Types.TxData

namespace Geth.Eth.Gasprice

open Common.Basic Types.TxData List

/-- What `update` reads, with the ages of the transactions in nanoseconds. -/
structure Prediction where
  (minTxCntPerBlock fastFactor medianFactor lowFactor minMedianIndex minLowIndex : ℤ)
  (fastPercentile meidanPercentile maxValidPendingSecs avgTxCnt poolPrice : ℤ)
  blockGasLimit : UInt64
  age : Transaction → ℤ

structure Prices where
  (fast median low : UInt64)
  deriving DecidableEq

def wei2GWei (w : ℤ) : UInt64 :=
  let tgwei := bigUint64 (w / 10 ^ 8)
  if tgwei < 10 then 1 else (tgwei * 2 - 10) / 10

/-- The nearest whole gwei, at least 1. -/
def nearest (w : ℤ) : ℕ := max 1 ((w + 5 * 10 ^ 8) / 10 ^ 9).toNat

theorem wei2GWei_toNat {w : ℤ} (h0 : 0 ≤ w) (h : w < 2 ^ 63 * 10 ^ 8) :
    (wei2GWei w).toNat = max 1 ((2 * (w / 10 ^ 8).toNat - 10) / 10) := by
  have ht : (bigUint64 (w / 10 ^ 8)).toNat = (w / 10 ^ 8).toNat := by
    rw [bigUint64, UInt64.toNat_ofNat', Nat.mod_eq_of_lt] <;> omega
  have hdouble : (bigUint64 (w / 10 ^ 8) * 2).toNat = 2 * (w / 10 ^ 8).toNat := by
    rw [UInt64.toNat_mul, ht, show (2 : UInt64).toNat = 2 from rfl]
    omega
  have h10 : (10 : UInt64).toNat = 10 := rfl
  rw [wei2GWei]
  split
  next hlt =>
    rw [UInt64.lt_iff_toNat_lt, ht, h10] at hlt
    change 1 = _
    omega
  next hge =>
    rw [UInt64.lt_iff_toNat_lt, ht, h10] at hge
    rw [UInt64.toNat_div, UInt64.toNat_sub_of_le, hdouble, h10]
    · omega
    rw [UInt64.le_iff_toNat_le, hdouble, h10]
    omega

/-- The formula is right below two gwei, and one too high from there to three. -/
theorem wei2GWei_eq_nearest {w : ℤ} (h0 : 0 ≤ w) (h : w < 3 * 10 ^ 9) :
    (wei2GWei w).toNat = nearest w + if w < 2 * 10 ^ 9 then 0 else 1 := by
  rw [wei2GWei_toNat h0 (by omega), nearest]
  split <;> omega

/-- A published price that is the rounded one, or one more. -/
def Near (w : ℤ) (x : UInt64) : Prop := x.toNat = nearest w ∨ x.toNat = nearest w + 1

instance (w : ℤ) (x : UInt64) : Decidable (Near w x) := inferInstanceAs (Decidable (_ ∨ _))

/-- From three gwei on the formula is too high. -/
theorem not_near_of_le {w : ℤ} (h : 3 * 10 ^ 9 ≤ w) (hlt : w < 2 ^ 63 * 10 ^ 8) :
    ¬ Near w (wei2GWei w) ∧ ¬ Near w (wei2GWei w + 1) := by
  have hx := wei2GWei_toNat (by omega) hlt
  rw [Near, Near, nearest, UInt64.toNat_add, hx, show (1 : UInt64).toNat = 1 from rfl]
  omega

/-- The last one in the place of the one that was taken away. -/
def moved (txs : List Transaction) : List Transaction := txs.getLast?.toList ++ txs.dropLast

theorem moved_perm (txs : List Transaction) : moved txs ~ txs := by
  obtain rfl | ⟨l, x, rfl⟩ := eq_nil_or_concat txs
  · rfl
  · simpa [moved] using (perm_append_singleton x l).symm

def priceAt (byprice : List Transaction) (i : ℤ) : Except Panic UInt64 :=
  match if i < 0 then none else byprice[i.toNat]? with
  | some tx => .ok (wei2GWei tx.gasPrice)
  | none => .error .indexRange

namespace Prediction

variable (p : Prediction)

def invalid (tx : Transaction) : Bool :=
  decide (p.blockGasLimit / 10 * 6 < tx.gas) || decide (p.maxValidPendingSecs * 10 ^ 9 < p.age tx) ||
    decide (tx.gasTipCap < 10 ^ 9)

/-- The loop on the part of the slice that is not decided yet. -/
def filteroutInvalid : List Transaction → List Transaction
  | [] => []
  | tx :: txs => if p.invalid tx then filteroutInvalid (moved txs) else tx :: filteroutInvalid txs
termination_by txs => txs.length
decreasing_by all_goals simp [(moved_perm _).length_eq]

def fastIndex (pendingCnt : ℤ) : ℤ :=
  let fi := p.fastFactor * max p.avgTxCnt p.minTxCntPerBlock
  if pendingCnt ≤ fi then (pendingCnt * p.fastPercentile).tdiv 100 else fi

def medianIndex (pendingCnt : ℤ) : ℤ :=
  let mi := max (p.medianFactor * max p.avgTxCnt p.minTxCntPerBlock) p.minMedianIndex
  if pendingCnt ≤ mi then (pendingCnt * p.meidanPercentile).tdiv 100 else mi

def lowIndex : ℤ := max (p.lowFactor * max p.avgTxCnt p.minTxCntPerBlock) p.minLowIndex

def predict (byprice : List Transaction) : Except Panic Prices :=
  let minPrice := wei2GWei p.poolPrice
  let pendingCnt : ℤ := byprice.length
  if pendingCnt = 0 then .ok ⟨minPrice, minPrice, minPrice⟩
  else do
    let fast ← priceAt byprice (p.fastIndex pendingCnt)
    let fast := if fast = 1 ∧ p.fastIndex pendingCnt < pendingCnt then 2 else fast
    let median ← priceAt byprice (p.medianIndex pendingCnt)
    let low ← (if pendingCnt ≤ p.lowIndex then .ok minPrice else priceAt byprice p.lowIndex)
    let raise := p.medianIndex pendingCnt < pendingCnt ∧ median + 1 < fast ∧ median = low
    return ⟨fast, if raise then median + 1 else median, low⟩

/-- `sort.Sort` may return any order in which the tip caps fall. -/
def Publishes (pending : List Transaction) (r : Except Panic Prices) : Prop :=
  ∃ byprice, byprice ~ p.filteroutInvalid pending ∧
    byprice.Pairwise (fun a b => b.gasTipCap ≤ a.gasTipCap) ∧ r = p.predict byprice

theorem filteroutInvalid_perm (txs : List Transaction) :
    p.filteroutInvalid txs ~ txs.filter (!p.invalid ·) := by
  fun_induction filteroutInvalid with
  | case1 => rfl
  | case2 tx txs h ih =>
    rw [filter_cons_of_neg (by simp [h])]
    exact ih.trans ((moved_perm txs).filter _)
  | case3 tx txs h ih =>
    rw [filter_cons_of_pos (by simp [h])]
    exact ih.cons tx

/-- The price of a pending transaction, or of the pool. -/
def Source (byprice : List Transaction) (w : ℤ) : Prop :=
  w = p.poolPrice ∨ ∃ tx ∈ byprice, w = tx.gasPrice

def readAt (byprice : List Transaction) (i : ℤ) : Option ℤ :=
  (if i < 0 then none else byprice[i.toNat]?).map Transaction.gasPrice

/-- The prices that the fast, the median and the low price are made of. -/
def reads (byprice : List Transaction) : Option (ℤ × ℤ × ℤ) :=
  let pendingCnt : ℤ := byprice.length
  if pendingCnt = 0 then some (p.poolPrice, p.poolPrice, p.poolPrice)
  else do
    let fast ← readAt byprice (p.fastIndex pendingCnt)
    let median ← readAt byprice (p.medianIndex pendingCnt)
    let low ← (if pendingCnt ≤ p.lowIndex then some p.poolPrice else readAt byprice p.lowIndex)
    return (fast, median, low)

variable {byprice : List Transaction} {r : Prices} {x : UInt64}

theorem priceAt_read {i} (h : priceAt byprice i = .ok x) :
    ∃ w, readAt byprice i = some w ∧ x = wei2GWei w ∧ ∃ tx ∈ byprice, w = tx.gasPrice := by
  rw [priceAt] at h
  split at h
  next tx htx =>
    cases h
    refine ⟨tx.gasPrice, by rw [readAt, htx, Option.map_some], rfl, tx, ?_, rfl⟩
    split at htx
    · cases htx
    · exact mem_of_getElem? htx
  next => cases h

/-- A price is raised only where it stays below another one, or to two. -/
theorem predict_reads (h : p.predict byprice = .ok r) :
    ∃ fast median low, p.reads byprice = some (fast, median, low) ∧
      (p.Source byprice fast ∧ p.Source byprice median ∧ p.Source byprice low) ∧
      (r.fast = wei2GWei fast ∨ wei2GWei fast = 1 ∧ r.fast = 2) ∧
      (r.median = wei2GWei median ∨ r.median = wei2GWei median + 1 ∧ wei2GWei median + 1 < r.fast) ∧
      r.low = wei2GWei low := by
  rw [predict] at h
  split at h
  next hempty =>
    cases h
    exact ⟨_, _, _, if_pos hempty, ⟨.inl rfl, .inl rfl, .inl rfl⟩, .inl rfl, .inl rfl, rfl⟩
  next hpending =>
    obtain ⟨fast, hfast, h⟩ := bind_eq_ok.mp h
    obtain ⟨median, hmedian, h⟩ := bind_eq_ok.mp h
    obtain ⟨low, hlow, h⟩ := bind_eq_ok.mp h
    cases h
    obtain ⟨wf, hrf, rfl, hf⟩ := priceAt_read hfast
    obtain ⟨wm, hrm, rfl, hm⟩ := priceAt_read hmedian
    obtain ⟨wl, hrl, rfl, hl⟩ : ∃ wl, (if (byprice.length : ℤ) ≤ p.lowIndex then some p.poolPrice
        else readAt byprice p.lowIndex) = some wl ∧ low = wei2GWei wl ∧ p.Source byprice wl := by
      split at hlow
      next hle =>
        cases hlow
        exact ⟨_, if_pos hle, rfl, .inl rfl⟩
      next hle =>
        obtain ⟨wl, hrl, hwl, hl⟩ := priceAt_read hlow
        exact ⟨wl, by rw [if_neg hle, hrl], hwl, .inr hl⟩
    refine ⟨wf, wm, wl, ?_, ⟨.inr hf, .inr hm, hl⟩, ?_, ?_, rfl⟩
    · rw [reads, if_neg hpending, hrf, hrm, hrl]
      rfl
    · dsimp only
      split
      next hone => exact .inr ⟨hone.1, rfl⟩
      next => exact .inl rfl
    · by_cases hraise : p.medianIndex byprice.length < byprice.length ∧ wei2GWei wm + 1 <
          (if wei2GWei wf = 1 ∧ p.fastIndex byprice.length < byprice.length then 2 else wei2GWei wf) ∧
          wei2GWei wm = wei2GWei wl
      · exact .inr ⟨if_pos hraise, hraise.2.1⟩
      · exact .inl (if_neg hraise)

/-- A price below three gwei. -/
def Low (w : ℤ) : Prop := 0 ≤ w ∧ w < 3 * 10 ^ 9

instance (w : ℤ) : Decidable (Low w) := inferInstanceAs (Decidable (_ ∧ _))

/-- A price with which the formula does not wrap around. -/
def Fits (w : ℤ) : Prop := 0 ≤ w ∧ w < 2 ^ 63 * 10 ^ 8

theorem Low.fits {w : ℤ} (h : Low w) : Fits w := ⟨h.1, h.2.trans (by norm_num)⟩

/-- A price is near the one that it was made of exactly where that is below three gwei. -/
theorem near_reads_iff (h : p.predict byprice = .ok r) {fast median low : ℤ}
    (hreads : p.reads byprice = some (fast, median, low)) (hfits : Fits fast ∧ Fits median ∧ Fits low) :
    (Near fast r.fast ∧ Near median r.median ∧ Near low r.low) ↔ Low fast ∧ Low median ∧ Low low := by
  obtain ⟨_, _, _, hreads', -, hf, hm, hl⟩ := p.predict_reads h
  cases hreads.symm.trans hreads'
  constructor
  · rintro ⟨hnf, hnm, hnl⟩
    obtain ⟨⟨hf0, hfits⟩, ⟨hm0, hmits⟩, hl0, hlits⟩ := hfits
    refine ⟨⟨hf0, ?_⟩, ⟨hm0, ?_⟩, hl0, ?_⟩
    · by_contra hbig
      obtain ⟨hfar, hfar'⟩ := not_near_of_le (not_lt.mp hbig) hfits
      obtain hf | ⟨hone, hf⟩ := hf
      · exact hfar (hf ▸ hnf)
      · rw [hone] at hfar'
        rw [hf] at hnf
        exact hfar' hnf
    · by_contra hbig
      obtain ⟨hfar, hfar'⟩ := not_near_of_le (not_lt.mp hbig) hmits
      obtain hm | ⟨hm, -⟩ := hm
      · exact hfar (hm ▸ hnm)
      · exact hfar' (hm ▸ hnm)
    · by_contra hbig
      exact (not_near_of_le (not_lt.mp hbig) hlits).1 (hl ▸ hnl)
  · rintro ⟨⟨hf0, hflt⟩, ⟨hm0, hmlt⟩, hl0, hllt⟩
    have hroundf := wei2GWei_eq_nearest hf0 hflt
    have hroundm := wei2GWei_eq_nearest hm0 hmlt
    have hroundl := wei2GWei_eq_nearest hl0 hllt
    have htop := wei2GWei_toNat hf0 (by omega)
    have hmid := wei2GWei_toNat hm0 (by omega)
    have hone : (1 : UInt64).toNat = 1 := rfl
    have hfast : r.fast.toNat ≤ 4 ∧ Near fast r.fast := by
      obtain hf | ⟨hf₁, hf⟩ := hf
      · rw [hf]
        refine ⟨by omega, ?_⟩
        rw [Near]
        split at hroundf <;> omega
      · rw [hf₁, hone] at hroundf htop
        rw [hf]
        refine ⟨by decide, .inr ?_⟩
        change 2 = _
        split at hroundf <;> omega
    refine ⟨hfast.2, ?_, ?_⟩
    · obtain hm | ⟨hm, hlt⟩ := hm
      · rw [hm, Near]
        split at hroundm <;> omega
      · -- the median is raised only below the fast price, so that it is at most two before
        have hsum : (wei2GWei median + 1).toNat = (wei2GWei median).toNat + 1 := by
          rw [UInt64.toNat_add, hone]
          omega
        rw [UInt64.lt_iff_toNat_lt, hsum] at hlt
        rw [hm, Near, hsum]
        have hle := hfast.1
        split at hroundm <;> omega
    · rw [hl, Near]
      split at hroundl <;> omega

/-- Whatever the order of equal tips is, the prices at the positions that are read are below three gwei. -/
def Small (txs : List Transaction) : Prop :=
  ∀ byprice, byprice ~ txs → byprice.Pairwise (fun a b => b.gasTipCap ≤ a.gasTipCap) →
    ∀ fast median low, p.reads byprice = some (fast, median, low) → Low fast ∧ Low median ∧ Low low

/-- What is published is the price of a pending transaction or of the pool, rounded and raised by at most one. -/
def Real (pending : List Transaction) : Prop :=
  ∀ r : Prices, p.Publishes pending (.ok r) → ∀ x ∈ [r.fast, r.median, r.low],
    ∃ w, p.Source (pending.filter (!p.invalid ·)) w ∧ Near w x

theorem predicted_real (pending : List Transaction) :
    p.filteroutInvalid pending ~ pending.filter (!p.invalid ·) ∧
      (p.Small (pending.filter (!p.invalid ·)) → p.Real pending) ∧
      ∀ byprice r fast median low, p.predict byprice = .ok r → p.reads byprice = some (fast, median, low) →
        Fits fast ∧ Fits median ∧ Fits low →
        ((Near fast r.fast ∧ Near median r.median ∧ Near low r.low) ↔ Low fast ∧ Low median ∧ Low low) := by
  refine ⟨p.filteroutInvalid_perm pending, fun hsmall r hr x hx => ?_,
    fun _ _ _ _ _ h hreads hfits => p.near_reads_iff h hreads hfits⟩
  obtain ⟨byprice, hperm, hsorted, hpredict⟩ := hr
  have hperm' := hperm.trans (p.filteroutInvalid_perm pending)
  obtain ⟨fast, median, low, hreads, hsource, -⟩ := p.predict_reads hpredict.symm
  obtain ⟨hf, hm, hl⟩ := hsmall byprice hperm' hsorted fast median low hreads
  have hnear := (p.near_reads_iff hpredict.symm hreads ⟨hf.fits, hm.fits, hl.fits⟩).mpr ⟨hf, hm, hl⟩
  simp only [Source, hperm'.mem_iff] at hsource
  simp only [mem_cons, not_mem_nil, or_false] at hx
  obtain rfl | rfl | rfl := hx
  · exact ⟨fast, hsource.1, hnear.1⟩
  · exact ⟨median, hsource.2.1, hnear.2.1⟩
  · exact ⟨low, hsource.2.2, hnear.2.2⟩

def sampleTx (gasPrice : ℤ) : Transaction := .legacy ⟨0, gasPrice, 21000, none, 0, .empty, 0, 0, 0⟩

def samplePrediction : Prediction := ⟨1, 2, 4, 8, 0, 0, 10, 50, 300, 1, 10 ^ 9, 30000000, fun _ => 0⟩

/-- The price of the first of three transactions is not read. -/
theorem predicted_real_hundred_gwei :
    Real samplePrediction [sampleTx (10 ^ 11), sampleTx (2 * 10 ^ 9), sampleTx (2 * 10 ^ 9)] := by
  refine (predicted_real _ _).2.1 fun byprice hperm hsorted fast median low hreads => ?_
  obtain rfl : byprice = [sampleTx (10 ^ 11), sampleTx (2 * 10 ^ 9), sampleTx (2 * 10 ^ 9)] := by
    have hmem {tx} (h : tx ∈ [sampleTx (10 ^ 11), sampleTx (2 * 10 ^ 9), sampleTx (2 * 10 ^ 9)]) :
        tx = sampleTx (10 ^ 11) ∨ tx = sampleTx (2 * 10 ^ 9) := by
      simpa using h
    refine hperm.eq_of_pairwise (fun a b ha hb hab hba => ?_) hsorted (by decide)
    obtain rfl | rfl := hmem (mem_of_mem_filter (hperm.subset ha)) <;> obtain rfl | rfl := hmem hb
    · rfl
    · exact absurd hba (by decide)
    · exact absurd hab (by decide)
    · rfl
  cases hreads
  exact ⟨by decide, by decide, by decide⟩

theorem predicted_real_three_gwei : ¬ Real samplePrediction [sampleTx (3 * 10 ^ 9)] := by
  intro h
  have hfilter := filteroutInvalid_perm samplePrediction [sampleTx (3 * 10 ^ 9)]
  obtain ⟨w, hw, hx⟩ := h ⟨5, 5, 1⟩ ⟨[sampleTx (3 * 10 ^ 9)], hfilter.symm, by simp, by decide⟩ 5 (by simp)
  obtain rfl | ⟨tx, htx, rfl⟩ := hw
  · revert hx
    decide
  · obtain rfl := mem_singleton.mp (mem_of_mem_filter htx)
    revert hx
    decide

end Prediction

end Geth.Eth.Gasprice
