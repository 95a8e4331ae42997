import Geth.Lib.InheritedCache
import Geth.Vm.Machine
import Mathlib.Data.Nat.Bitwise

namespace Geth.Vm.JumpDests

open Lib.BigEndian Common.Basic Machine State.Account Function
open Lib.InheritedCache (Cache Sound add evict)

structure Bitvec where
  size : ℕ
  byte : ℕ → UInt8

namespace Bitvec

def write (bits : Bitvec) (i : ℕ) (b : UInt8) : Except Panic Bitvec :=
  if i < bits.size then .ok { bits with byte := update bits.byte i b } else .error .indexRange

def writeOr (bits : Bitvec) (i : ℕ) (b : UInt8) : Except Panic Bitvec := bits.write i (bits.byte i ||| b)

def lookup : List UInt8 := [0x80, 0x40, 0x20, 0x10, 0x8, 0x4, 0x2, 0x1]

def set1 (bits : Bitvec) (pos : ℕ) : Except Panic Bitvec := bits.writeOr (pos / 8) (lookup.getD (pos % 8) 0)

def setN (flag : UInt16) (bits : Bitvec) (pos : ℕ) : Except Panic Bitvec := do
  let a := flag >>> UInt16.ofNat (pos % 8)
  let bits ← bits.writeOr (pos / 8) (a >>> 8).toUInt8
  if a.toUInt8 ≠ 0 then bits.write (pos / 8 + 1) a.toUInt8 else return bits

def set8 (bits : Bitvec) (pos : ℕ) : Except Panic Bitvec := do
  let a : UInt8 := 0xFF >>> UInt8.ofNat (pos % 8)
  let bits ← bits.writeOr (pos / 8) a
  bits.write (pos / 8 + 1) (~~~a)

def set16 (bits : Bitvec) (pos : ℕ) : Except Panic Bitvec := do
  let a : UInt8 := 0xFF >>> UInt8.ofNat (pos % 8)
  let bits ← bits.writeOr (pos / 8) a
  let bits ← bits.write (pos / 8 + 1) 0xFF
  bits.write (pos / 8 + 2) (~~~a)

def codeSegment (bits : Bitvec) (pos : ℕ) : Except Panic Bool :=
  if pos / 8 < bits.size then .ok (bits.byte (pos / 8) &&& (0x80 >>> UInt8.ofNat (pos % 8)) = 0)
  else .error .indexRange

end Bitvec

open Bitvec List Nat

def setRest (bits : Bitvec) (pc : ℕ) : ℕ → Except Panic Bitvec
  | 1 => bits.set1 pc
  | 2 => bits.setN 0b1100000000000000 pc
  | 3 => bits.setN 0b1110000000000000 pc
  | 4 => bits.setN 0b1111000000000000 pc
  | 5 => bits.setN 0b1111100000000000 pc
  | 6 => bits.setN 0b1111110000000000 pc
  | 7 => bits.setN 0b1111111000000000 pc
  | _ => .ok bits

def setArgument (bits : Bitvec) (pc numbits : ℕ) : Except Panic Bitvec :=
  if 16 ≤ numbits then do setArgument (← bits.set16 pc) (pc + 16) (numbits - 16)
  else if 8 ≤ numbits then do setArgument (← bits.set8 pc) (pc + 8) (numbits - 8)
  else setRest bits pc numbits
termination_by numbits

def codeBitmapInternal (code : Bytes) (pc : ℕ) (bits : Bitvec) : Except Panic Bitvec :=
  if h : pc < code.length then
    let op := code[pc]
    if op < 0x60 ∨ 0x7F < op then codeBitmapInternal code (pc + 1) bits
    else do
      let numbits := (op - 0x60 + 1).toNat
      codeBitmapInternal code (pc + 1 + numbits) (← setArgument bits (pc + 1) numbits)
  else .ok bits
termination_by code.length - pc

def codeBitmap (code : Bytes) : Except Panic Bitvec :=
  codeBitmapInternal code 0 ⟨code.length / 8 + 1 + 4, fun _ => 0⟩

section

def bit (b : UInt8) (k : ℕ) : Bool := b.toNat.testBit (7 - k)

def marked (bits : Bitvec) (p : ℕ) : Bool := bit (bits.byte (p / 8)) (p % 8)

def Free (bits : Bitvec) (pos : ℕ) : Prop := ∀ p, pos ≤ p → marked bits p = false

/-- So many bits are marked from a position on. -/
def Extends (bits bits' : Bitvec) (pos n : ℕ) : Prop :=
  bits'.size = bits.size ∧ ∀ p, marked bits' p = (marked bits p || decide (pos ≤ p ∧ p < pos + n))

def Marks (set : Bitvec → ℕ → Except Panic Bitvec) (n : ℕ) : Prop :=
  ∀ bits pos, Free bits pos → (pos + n) / 8 < bits.size → ∃ bits', set bits pos = .ok bits' ∧ Extends bits bits' pos n

theorem bit_or (a b : UInt8) (k : ℕ) : bit (a ||| b) k = (bit a k || bit b k) := by
  rw [bit, UInt8.toNat_or, testBit_or]
  rfl

theorem marked_update (bits : Bitvec) (i : ℕ) (b : UInt8) (p : ℕ) :
    marked { bits with byte := update bits.byte i b } p = if p / 8 = i then bit b (p % 8) else marked bits p := by
  rw [marked]
  dsimp only
  rw [update_apply]
  split <;> rfl

theorem Extends.free {bits bits' : Bitvec} {pos n : ℕ} (h : Extends bits bits' pos n) (hfree : Free bits pos) :
    Free bits' (pos + n) := by
  intro p hp
  rw [h.2, hfree p (by omega), Bool.false_or]
  exact decide_eq_false (by omega)

/-- The bits of two bytes for a range that begins in the first one. The second one need not be written if the
range ends before. -/
def Masks (n : ℕ) (a b : ℕ → UInt8) (w : ℕ → Bool) : Prop :=
  ∀ r < 8, (∀ k < 8, bit (a r) k = decide (r ≤ k ∧ k < r + n) ∧ bit (b r) k = decide (k + 8 < r + n)) ∧
    if w r then 8 ≤ r + n else b r = 0

instance (n : ℕ) (a b : ℕ → UInt8) (w : ℕ → Bool) : Decidable (Masks n a b w) :=
  inferInstanceAs (Decidable (∀ r < 8, _))

theorem marks_pair {set : Bitvec → ℕ → Except Panic Bitvec} {n : ℕ} {a b : ℕ → UInt8} {w : ℕ → Bool}
    (hbits : Masks n a b w) (hn : n ≤ 8)
    (hset : ∀ bits pos, set bits pos = (bits.writeOr (pos / 8) (a (pos % 8)) >>= fun bits =>
      if w (pos % 8) then bits.write (pos / 8 + 1) (b (pos % 8)) else .ok bits)) : Marks set n := by
  intro bits pos hfree hlen
  obtain ⟨hmask, hw⟩ := hbits (pos % 8) (mod_lt _ (by decide))
  have hor (p : ℕ) : marked { bits with byte := update bits.byte (pos / 8) (bits.byte (pos / 8) ||| a (pos % 8)) } p =
      (marked bits p || decide (p / 8 = pos / 8 ∧ pos ≤ p ∧ p < pos + n)) := by
    rw [marked_update]
    split
    · rename_i hp
      rw [bit_or, ← hp, (hmask (p % 8) (mod_lt _ (by decide))).1]
      congr 1
      exact decide_eq_decide.mpr (by omega)
    · rw [decide_eq_false (by omega), Bool.or_false]
  rw [hset, Bitvec.writeOr, Bitvec.write, if_pos (by omega)]
  split at hw
  · refine ⟨_, (if_pos ‹_›).trans (if_pos (show pos / 8 + 1 < bits.size by omega)), rfl, fun p => ?_⟩
    rw [marked_update _ (pos / 8 + 1)]
    split
    · rw [(hmask (p % 8) (mod_lt _ (by decide))).2, hfree p (by omega), Bool.false_or]
      exact decide_eq_decide.mpr (by omega)
    rw [hor]
    congr 1
    exact decide_eq_decide.mpr (by omega)
  refine ⟨_, if_neg ‹_›, rfl, fun p => ?_⟩
  have hlast := (hmask 0 (by decide)).2
  rw [hw, eq_comm, bit, UInt8.toNat_zero, zero_testBit, decide_eq_false_iff_not] at hlast
  rw [hor]
  congr 1
  exact decide_eq_decide.mpr (by omega)

theorem marks_set1 : Marks set1 1 :=
  marks_pair (show Masks 1 (lookup.getD · 0) (fun _ => 0) (fun _ => false) by decide) (by decide)
    fun _ _ => (bind_pure _).symm

theorem marks_setN {flag : UInt16} {n : ℕ} (h : Masks n (fun r => (flag >>> UInt16.ofNat r >>> 8).toUInt8)
    (fun r => (flag >>> UInt16.ofNat r).toUInt8) (fun r => decide ((flag >>> UInt16.ofNat r).toUInt8 ≠ 0)))
    (hn : n ≤ 8) : Marks (setN flag) n :=
  marks_pair h hn fun _ _ => by
    simp only [decide_eq_true_eq]
    rfl

theorem marks_set8 : Marks set8 8 :=
  marks_pair (show Masks 8 (0xFF >>> UInt8.ofNat ·) (fun r => ~~~(0xFF >>> UInt8.ofNat r)) (fun _ => true) by
    decide) (by decide) fun _ _ => rfl

theorem Marks.seq {f g : Bitvec → ℕ → Except Panic Bitvec} {m n : ℕ} (hf : Marks f m) (hg : Marks g n) :
    Marks (fun bits pos => f bits pos >>= (g · (pos + m))) (m + n) := by
  intro bits pos hfree hlen
  obtain ⟨bits₁, h₁, hext₁⟩ := hf bits pos hfree (by omega)
  obtain ⟨bits₂, h₂, hext₂⟩ := hg bits₁ (pos + m) (hext₁.free hfree) (by rw [hext₁.1, add_assoc]; exact hlen)
  refine ⟨bits₂, bind_eq_ok.mpr ⟨bits₁, h₁, h₂⟩, hext₂.1.trans hext₁.1, fun p => ?_⟩
  rw [hext₂.2, hext₁.2, Bool.or_assoc, ← Bool.decide_or]
  congr 1
  exact decide_eq_decide.mpr (by omega)

/-- The byte in the middle takes both parts. -/
theorem marks_set16 : Marks set16 16 := by
  intro bits pos hfree hlen
  obtain ⟨bits', h, hrest⟩ := marks_set8.seq marks_set8 bits pos hfree hlen
  refine ⟨bits', ?_, hrest⟩
  have hfull (a : UInt8) : ~~~a ||| a = 0xFF := by
    rw [UInt8.not_or_self]
    rfl
  rw [← h]
  simp [set16, set8, Bitvec.writeOr, Bitvec.write, bind, Except.bind, show (pos + 8) / 8 = pos / 8 + 1 by omega,
    show pos / 8 < bits.size by omega, show pos / 8 + 1 < bits.size by omega, hfull]

theorem marks_setRest {n : ℕ} (hn : n < 8) : Marks (setRest · · n) n := by
  intro bits pos hfree hlen
  obtain rfl | rfl | rfl | rfl | rfl | rfl | rfl | rfl :
    n = 0 ∨ n = 1 ∨ n = 2 ∨ n = 3 ∨ n = 4 ∨ n = 5 ∨ n = 6 ∨ n = 7 := by omega
  · exact ⟨bits, rfl, rfl, fun p => by simp⟩
  · exact marks_set1 bits pos hfree hlen
  all_goals exact marks_setN (by decide) (by decide) bits pos hfree hlen

theorem marks_setArgument (n : ℕ) : Marks (setArgument · · n) n := by
  induction n using Nat.strong_induction_on with
  | _ n ih =>
    intro bits pos
    beta_reduce
    rw [setArgument]
    split
    · have h := marks_set16.seq (ih (n - 16) (by omega))
      rw [Nat.add_sub_cancel' ‹_›] at h
      exact h bits pos
    split
    · have h := marks_set8.seq (ih (n - 8) (by omega))
      rw [Nat.add_sub_cancel' ‹_›] at h
      exact h bits pos
    exact marks_setRest (by omega) bits pos

end

section

def argument (op : UInt8) : ℕ := if 0x60 ≤ op.toNat ∧ op.toNat ≤ 0x7F then op.toNat - 0x5F else 0

theorem isCode_skip {code : Bytes} {n p : ℕ} (hp : p < code.length) :
    Contract.isCode code n p = if p < n then false else Contract.isCode (code.drop n) 0 (p - n) := by
  induction code generalizing n p with
  | nil => cases hp
  | cons op code ih =>
    cases n with
    | zero => rfl
    | succ n =>
      cases p with
      | zero => simp [Contract.isCode]
      | succ p =>
        rw [Contract.isCode, ih (by simpa using hp)]
        simp

theorem isCode_drop {code : Bytes} {pc p n : ℕ} (hpc : pc < code.length) (hn : argument code[pc] = n)
    (hp : p < code.length) (hle : pc < p) : Contract.isCode (code.drop pc) 0 (p - pc) =
      if p < pc + 1 + n then false else Contract.isCode (code.drop (pc + 1 + n)) 0 (p - (pc + 1 + n)) := by
  obtain ⟨k, rfl⟩ : ∃ k, p = pc + (k + 1) := ⟨p - pc - 1, by omega⟩
  rw [drop_eq_getElem_cons hpc, Nat.add_sub_cancel_left, Contract.isCode, ← argument, hn,
    isCode_skip (by rw [length_drop]; omega), drop_drop]
  congr 1
  · simp; omega
  · congr 1; omega

theorem argument_eq (op : UInt8) :
    argument op = if op < 0x60 ∨ 0x7F < op then 0 else (op - 0x60 + 1).toNat := by
  have hlt := op.toNat_lt
  simp only [argument, UInt8.lt_iff_toNat_lt, UInt8.toNat_add, UInt8.toNat_sub, UInt8.reduceToNat]
  split <;> split <;> omega

theorem codeBitmapInternal_spec {code : Bytes} {bits : Bitvec} {pc : ℕ} (hfree : Free bits pc)
    (hsize : bits.size = code.length / 8 + 1 + 4) :
    ∃ bits', codeBitmapInternal code pc bits = .ok bits' ∧ bits'.size = bits.size ∧ ∀ p < code.length,
      marked bits' p = if p < pc then marked bits p else !Contract.isCode (code.drop pc) 0 (p - pc) := by
  induction hk : code.length - pc using Nat.strong_induction_on generalizing pc bits with
  | _ k ih =>
    rw [codeBitmapInternal]
    split
    swap
    · exact ⟨bits, rfl, rfl, fun p hp => by rw [if_pos (by omega)]⟩
    rename_i hpc
    obtain ⟨n, hn⟩ : ∃ n, argument code[pc] = n := ⟨_, rfl⟩
    have hle : n ≤ 32 := by
      rw [← hn, argument]
      split <;> omega
    obtain ⟨bits₁, hset, hext⟩ := marks_setArgument n bits (pc + 1) (fun p hp => hfree p (by omega)) (by omega)
    obtain ⟨bits', h', hsize', hmarked'⟩ := ih _ (by omega) (hext.free fun p hp => hfree p (by omega))
      (hext.1.trans hsize) rfl
    refine ⟨bits', ?_, hsize'.trans hext.1, fun p hp => ?_⟩
    · rw [argument_eq] at hn
      dsimp only at hset ⊢
      split at hn
      · subst hn
        rw [setArgument] at hset
        cases hset
        rw [if_pos ‹_›]
        exact h'
      rw [if_neg ‹_›, hn, hset]
      exact h'
    rw [hmarked' p hp, hext.2]
    obtain hlt | rfl | hgt := lt_trichotomy p pc
    · rw [if_pos (by omega), if_pos hlt, decide_eq_false (by omega), Bool.or_false]
    · rw [if_pos (by omega), if_neg (by omega), hfree p le_rfl, decide_eq_false (by omega), Nat.sub_self,
        drop_eq_getElem_cons hp]
      rfl
    rw [if_neg (by omega : ¬p < pc), isCode_drop hpc hn hp hgt, hfree p hgt.le]
    split
    · rw [decide_eq_true (by omega)]
      rfl
    · rfl

theorem codeSegment_eq {bits : Bitvec} {p : ℕ} (h : p / 8 < bits.size) :
    bits.codeSegment p = .ok (!marked bits p) := by
  have hmask : ∀ k < 8, ((0x80 : UInt8) >>> UInt8.ofNat k).toNat = 2 ^ (7 - k) := by decide
  simp only [codeSegment, if_pos h, marked, bit, ← UInt8.toNat_inj, UInt8.toNat_and,
    hmask _ (mod_lt p (by decide : 0 < 8)), and_two_pow]
  cases (bits.byte (p / 8)).toNat.testBit (7 - p % 8) <;> simp

theorem codeBitmap_exact (code : Bytes) : ∃ bits, codeBitmap code = .ok bits ∧
    ∀ p < code.length, bits.codeSegment p = .ok (Contract.isCode code 0 p) := by
  have hfree : Free ⟨code.length / 8 + 1 + 4, fun _ => 0⟩ 0 := fun p _ => by simp [marked, bit]
  obtain ⟨bits, h, hsize, hmarked⟩ := codeBitmapInternal_spec hfree rfl
  dsimp only at hsize
  refine ⟨bits, h, fun p hp => ?_⟩
  rw [codeSegment_eq (by omega), hmarked p hp, if_neg (not_lt_zero p), Bool.not_not]
  rfl

end

section

structure Analyzed extends Contract where
  codeHash : Hash
  analysis : Option Bitvec

/-- The bitmaps that a call shares with its inner calls, and those of the process. -/
structure Caches where
  jumpdests : Cache Hash Bitvec
  codeBitmapCache : Cache Hash Bitvec

/-- It is not asked for the hash of the empty code. -/
def codeBitmapWithCache (s : Caches) (code : Bytes) (codeHash : Hash) : Except Panic (Bitvec × Caches) :=
  match s.codeBitmapCache codeHash with
  | some val => .ok (val, s)
  | none => do
    let val ← codeBitmap code
    return (val, { s with codeBitmapCache := add s.codeBitmapCache codeHash val })

def analyze (C : Crypto) (s : Caches) (c : Analyzed) : Except Panic (Bitvec × Caches) :=
  match c.analysis with
  | some analysis => .ok (analysis, s)
  | none =>
    if c.codeHash ≠ zeros 32 ∧ c.codeHash ≠ emptyCodeHash C then
      match s.jumpdests c.codeHash with
      | some analysis => .ok (analysis, s)
      | none => do
        let (analysis, s) ← codeBitmapWithCache s c.code c.codeHash
        return (analysis, { s with jumpdests := add s.jumpdests c.codeHash analysis })
    else do return (← codeBitmap c.code, s)

def isCode (C : Crypto) (s : Caches) (c : Analyzed) (udest : ℕ) : Except Panic (Bool × Analyzed × Caches) := do
  let (analysis, s) ← analyze C s c
  return (← analysis.codeSegment udest, { c with analysis := some analysis }, s)

def validJumpdest (C : Crypto) (s : Caches) (c : Analyzed) (dest : Word) :
    Except Panic (Bool × Analyzed × Caches) :=
  match dest.uint64WithOverflow with
  | none => .ok (false, c, s)
  | some udest =>
    if c.code.length ≤ udest.toNat then .ok (false, c, s)
    else if c.code[udest.toNat]? ≠ some 0x5B then .ok (false, c, s)
    else isCode C s c udest.toNat

variable (C : Crypto) (codeOf : Hash → Bytes)

/-- The contract has the only code in play with its hash, or no hash. -/
structure Analyzed.Honest (c : Analyzed) : Prop where
  length : c.code.length < 2 ^ 63
  hash : c.codeHash = zeros 32 ∨ codeOf c.codeHash = c.code
  analysis : ∀ bits ∈ c.analysis, codeBitmap c.code = .ok bits

/-- The caches after any queries. Entries may be lost in between, as when another call begins. -/
inductive Reached : Caches → Prop
  | start : Reached ⟨fun _ => none, fun _ => none⟩
  | asked {s s' c c' b} {dest : Word} : Reached s → c.Honest codeOf →
      validJumpdest C s c dest = .ok (b, c', s') → Reached s'
  | lost {s} (l l' : Hash → Bool) : Reached s → Reached ⟨evict l s.jumpdests, evict l' s.codeBitmapCache⟩

def Faithful (s : Caches) : Prop :=
  Sound (fun _ => True) (codeBitmap ∘ codeOf) s.jumpdests ∧
    Sound (fun _ => True) (codeBitmap ∘ codeOf) s.codeBitmapCache

variable {C codeOf} {s s' : Caches} {c : Analyzed}

theorem analyze_spec (hs : Faithful codeOf s) (hc : c.Honest codeOf) :
    ∃ bits s', analyze C s c = .ok (bits, s') ∧ codeBitmap c.code = .ok bits ∧ Faithful codeOf s' := by
  obtain ⟨bits, hbits, -⟩ := codeBitmap_exact c.code
  rw [analyze]
  cases hanalysis : c.analysis with
  | some v => exact ⟨v, s, rfl, hc.analysis v hanalysis, hs⟩
  | none =>
    dsimp only
    split
    swap
    · exact ⟨bits, s, by rw [hbits]; rfl, hbits, hs⟩
    rename_i hne
    have hcode := hc.hash.resolve_left hne.1
    have htrue : (codeBitmap ∘ codeOf) c.codeHash = .ok bits := by rw [comp_apply, hcode, hbits]
    cases hlookup : s.jumpdests c.codeHash with
    | some v => exact ⟨v, s, rfl, hcode ▸ (hs.1 _ v hlookup).2, hs⟩
    | none =>
      rw [codeBitmapWithCache]
      cases hcached : s.codeBitmapCache c.codeHash with
      | some v =>
        have hv := (hs.2 _ v hcached).2
        exact ⟨v, _, rfl, hcode ▸ hv, hs.1.add trivial hv, hs.2⟩
      | none =>
        dsimp only
        rw [hbits]
        exact ⟨bits, _, rfl, rfl, hs.1.add trivial htrue, hs.2.add trivial htrue⟩

theorem validJumpdest_spec (hs : Faithful codeOf s) (hc : c.Honest codeOf) (dest : Word) :
    ∃ c' s', validJumpdest C s c dest = .ok (c.toContract.validJumpdest dest, c', s') ∧ c'.Honest codeOf ∧
      Faithful codeOf s' := by
  have hlength := hc.length
  rw [validJumpdest, Word.uint64WithOverflow, Word.isUint64, Contract.validJumpdest]
  by_cases hword : dest.toNat < 2 ^ 64
  swap
  · rw [if_neg (by rwa [decide_eq_true_eq])]
    exact ⟨c, s, by simp [show ¬dest.toNat < c.code.length by omega], hc, hs⟩
  have hdest : dest.uint64.toNat = dest.toNat := by
    rw [Word.uint64, UInt64.toNat_ofNat', mod_eq_of_lt hword]
  rw [if_pos (decide_eq_true hword)]
  dsimp only
  rw [hdest]
  split
  · exact ⟨c, s, by simp [show ¬dest.toNat < c.code.length by omega], hc, hs⟩
  split
  · exact ⟨c, s, by simp [‹c.code[_]? ≠ _›], hc, hs⟩
  rename_i hlt hop
  obtain ⟨bits, s', hanalyze, hbits, hs'⟩ := analyze_spec (C := C) hs hc
  obtain ⟨bits', hbits', hsegment⟩ := codeBitmap_exact c.code
  obtain rfl : bits = bits' := Except.ok.inj (hbits.symm.trans hbits')
  refine ⟨{ c with analysis := some bits }, s', ?_, ⟨hlength, hc.hash, fun v hv => ?_⟩, hs'⟩
  · rw [isCode, hanalyze, not_ne_iff.mp hop]
    simp [bind, Except.bind, hsegment _ (not_le.mp hlt), not_le.mp hlt, pure, Except.pure]
  cases hv
  exact hbits

theorem faithful_of_reached (h : Reached C codeOf s) : Faithful codeOf s := by
  induction h with
  | start => exact ⟨Sound.empty, Sound.empty⟩
  | asked _ hc hrun ih =>
    obtain ⟨_, _, hrun', _, hs⟩ := validJumpdest_spec (C := C) ih hc _
    rw [hrun'] at hrun
    cases hrun
    exact hs
  | lost l l' _ ih => exact ⟨ih.1.evict l, ih.2.evict l'⟩

theorem jumpdests_exact (C : Crypto) (codeOf : Hash → Bytes) :
    (∀ code, ∃ bits, codeBitmap code = .ok bits ∧
      ∀ p < code.length, bits.codeSegment p = .ok (Contract.isCode code 0 p)) ∧
    ∀ s c dest, Reached C codeOf s → c.Honest codeOf → ∃ c' s',
      validJumpdest C s c dest = .ok (c.toContract.validJumpdest dest, c', s') ∧ c'.Honest codeOf := by
  refine ⟨codeBitmap_exact, fun s c dest hs hc => ?_⟩
  obtain ⟨c', s', hrun, hc', _⟩ := validJumpdest_spec (faithful_of_reached hs) hc dest
  exact ⟨c', s', hrun, hc'⟩

def pushedCode : Analyzed :=
  ⟨⟨zeros 20, zeros 20, [0x60, 0x5B, 0x5B], [], 0, 0⟩,
    hexToHash 0xef2b56b362c04c80b70f83c01073fb31a54133d8134532abfa4de9dbeb38a6dc, none⟩

def pushCrypto : Crypto :=
  Crypto.ofTables [(pushedCode.code, pushedCode.codeHash),
    ([], hexToHash 0xc5d2460186f7233c927e7db2dcc703c0e500b653ca82273b7bfad8045d85a470)] []

/-- The second answer about the code comes from the cache. -/
theorem jumpdests_exact_push : ∃ c' s' c'' s'',
    validJumpdest pushCrypto ⟨fun _ => none, fun _ => none⟩ pushedCode 2 = .ok (true, c', s') ∧
    (s'.jumpdests pushedCode.codeHash).isSome ∧
    validJumpdest pushCrypto s' pushedCode 1 = .ok (false, c'', s'') := by
  have hhonest : pushedCode.Honest fun _ => pushedCode.code := ⟨by decide, .inr rfl, nofun⟩
  obtain ⟨_, hask⟩ := jumpdests_exact pushCrypto fun _ => pushedCode.code
  obtain ⟨c', s', hfirst, _⟩ := hask _ pushedCode 2 .start hhonest
  obtain ⟨c'', s'', hsecond, _⟩ := hask s' pushedCode 1 (.asked .start hhonest hfirst) hhonest
  obtain ⟨_, hrun, hcached⟩ := exists_ok_of_any
    (x := validJumpdest pushCrypto ⟨fun _ => none, fun _ => none⟩ pushedCode 2)
    (p := fun r => (r.2.2.jumpdests pushedCode.codeHash).isSome) (by decide +kernel)
  cases hrun.symm.trans hfirst
  exact ⟨c', s', c'', s'', hfirst, hcached, hsecond⟩

end

end Geth.Vm.JumpDests
