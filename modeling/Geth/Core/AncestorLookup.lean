import Geth.Core.HeaderWrites

namespace Geth.Core.AncestorLookup

open Lib.BigEndian Lib.Ancestry Common.Basic Types.Block HeaderWrites List Option Nat

/-- The loop of `GetAncestor`, with what is left of the budget. The source reads the index a second time,
against a change in between. -/
def ancestorLoop (s : HeaderChain) : ℕ → Hash → ℕ → ℕ → (Hash × ℕ) × ℕ
  | 0, hash, number, maxNonCanonical => ((hash, number), maxNonCanonical)
  | ancestor + 1, hash, number, maxNonCanonical =>
    if readCanonicalHash s.canonical number = hash then
      let number := number - (ancestor + 1)
      ((readCanonicalHash s.canonical number, number), maxNonCanonical)
    else if maxNonCanonical = 0 then ((zeros 32, 0), 0)
    else
      match s.headers hash number with
      | none => ((zeros 32, 0), maxNonCanonical - 1)
      | some header => ancestorLoop s ancestor header.parentHash (number - 1) (maxNonCanonical - 1)

def getAncestor (s : HeaderChain) (hash : Hash) (number ancestor maxNonCanonical : ℕ) : (Hash × ℕ) × ℕ :=
  if number < ancestor then ((zeros 32, 0), maxNonCanonical)
  else if ancestor = 1 then
    match s.headers hash number with
    | some header => ((header.parentHash, number - 1), maxNonCanonical)
    | none => ((zeros 32, 0), maxNonCanonical)
  else ancestorLoop s ancestor hash number maxNonCanonical

def parentWalk (s : HeaderChain) : ℕ → Hash → ℕ → Option (Hash × ℕ)
  | 0, hash, number => some (hash, number)
  | a + 1, hash, number => (s.headers hash number).bind fun header =>
    parentWalk s a header.parentHash (number - 1)

/-- How many of the first headers of the walk are not in the index. -/
def nonCanonical (s : HeaderChain) : ℕ → Hash → ℕ → ℕ
  | 0, _, _ => 0
  | a + 1, hash, number =>
    (if readCanonicalHash s.canonical number = hash then 0 else 1) +
      ((s.headers hash number).map fun header => nonCanonical s a header.parentHash (number - 1)).getD 0

/-- Every stored header leads back to the genesis header, and the index lists the chain `cs`. -/
structure Lists (C : Crypto) (S : Set Header) (g : Header) (s : HeaderChain) (cs : List Header) : Prop where
  rooted : Rooted (links C) S g s.headers
  chain : Chain (links C) s.headers g cs
  describes : Describes s.canonical (cs.map (Header.hash C))

/-- What the lookup of a header's ancestor has to do with the walk. -/
def Walks (s : HeaderChain) (hash : Hash) (number ancestor maxNonCanonical : ℕ) (r : (Hash × ℕ) × ℕ) : Prop :=
  (r.1.1 ≠ zeros 32 → parentWalk s ancestor hash number = some r.1) ∧
    (nonCanonical s ancestor hash number ≤ maxNonCanonical → r.1.1 ≠ zeros 32 ∧
      (ancestor ≠ 1 → r.2 + nonCanonical s ancestor hash number = maxNonCanonical))

section

variable {C : Crypto} {S : Set Header} {g b x : Header} {s : HeaderChain} {cs ch : List Header} {n a m : ℕ}
variable (hS : ∀ h ∈ S, h.hash C ≠ zeros 32) (h : Lists C S g s cs) (hc : Chain (links C) s.headers g ch)
include hc

theorem walk_step (hb : ch[n + 1]? = some b) :
    s.headers (b.hash C) (n + 1) = some b ∧ ∃ p, ch[n]? = some p ∧ b.parentHash = p.hash C := by
  obtain ⟨p, hp, hparent, _⟩ := hc.step_back hb
  exact ⟨(hc.stored hb).1, p, hp, hparent⟩

theorem walk_hash (hb : ch[n]? = some b) (ha : a ≤ n) :
    ∃ x k, ch[k]? = some x ∧ parentWalk s a (b.hash C) n = some (x.hash C, k) := by
  induction a generalizing n b with
  | zero => exact ⟨b, n, hb, rfl⟩
  | succ a ih =>
    obtain ⟨n, rfl⟩ : ∃ k, n = k + 1 := ⟨n - 1, by omega⟩
    obtain ⟨hstored, p, hp, hparent⟩ := walk_step hc hb
    rw [parentWalk, hstored, bind_some, hparent, Nat.add_sub_cancel]
    exact ih hp (by omega)

include hS h

/-- The ancestors of a header of the index are in the index. -/
theorem canonical_parent (hb : ch[n + 1]? = some b) (hx : ch[n]? = some x)
    (hread : readCanonicalHash s.canonical (n + 1) = b.hash C) :
    readCanonicalHash s.canonical n = x.hash C := by
  rw [readCanonicalHash, h.describes, getElem?_map] at hread
  cases hy : cs[n + 1]? with
  | none =>
    rw [hy] at hread
    exact absurd hread.symm (hS b (h.rooted (hc.stored hb).1).1)
  | some y =>
    rw [hy] at hread
    have htake := h.chain.agree hc hy hb hread
    have hget := congrArg (fun l => l[n]?) htake
    simp only [getElem?_take, Nat.lt_add_right 1 (lt_succ_self n), if_true] at hget
    rw [readCanonicalHash, h.describes, getElem?_map, hget, hx]
    rfl

theorem canonical_walk (hb : ch[n]? = some b) (hread : readCanonicalHash s.canonical n = b.hash C)
    (ha : a ≤ n) : nonCanonical s a (b.hash C) n = 0 ∧
      parentWalk s a (b.hash C) n = some (readCanonicalHash s.canonical (n - a), n - a) := by
  induction a generalizing n b with
  | zero => exact ⟨rfl, by rw [parentWalk, Nat.sub_zero, hread]⟩
  | succ a ih =>
    obtain ⟨n, rfl⟩ : ∃ k, n = k + 1 := ⟨n - 1, by omega⟩
    obtain ⟨hstored, p, hp, hparent⟩ := walk_step hc hb
    obtain ⟨hcount, hwalk⟩ := ih hp (canonical_parent hS h hc hb hp hread) (by omega)
    rw [nonCanonical, parentWalk, hstored, if_pos hread, map_some, bind_some, hparent,
      Nat.add_sub_cancel, hwalk, hcount, Nat.add_sub_add_right]
    exact ⟨rfl, rfl⟩

/-- The loop takes one from the budget for every header that is not in the index. -/
theorem ancestorLoop_spec (hb : ch[n]? = some b) (ha : a ≤ n) :
    if nonCanonical s a (b.hash C) n ≤ m then
      (ancestorLoop s a (b.hash C) n m).2 + nonCanonical s a (b.hash C) n = m ∧
        parentWalk s a (b.hash C) n = some (ancestorLoop s a (b.hash C) n m).1
    else (ancestorLoop s a (b.hash C) n m).1 = (zeros 32, 0) := by
  induction a generalizing n b m with
  | zero =>
    rw [nonCanonical, if_pos (zero_le m)]
    exact ⟨rfl, rfl⟩
  | succ a ih =>
    rw [ancestorLoop]
    by_cases hread : readCanonicalHash s.canonical n = b.hash C
    · obtain ⟨hcount, hwalk⟩ := canonical_walk hS h hc hb hread ha
      rw [hcount, hwalk, if_pos (zero_le m), if_pos hread]
      exact ⟨rfl, rfl⟩
    obtain ⟨n, rfl⟩ : ∃ k, n = k + 1 := ⟨n - 1, by omega⟩
    obtain ⟨hstored, p, hp, hparent⟩ := walk_step hc hb
    rw [if_neg hread, nonCanonical, parentWalk, if_neg hread, hstored, map_some, bind_some,
      getD_some, Nat.add_sub_cancel]
    dsimp only
    rw [hparent]
    cases m with
    | zero =>
      rw [if_neg (by omega), if_pos rfl]
    | succ m =>
      have hrest := ih (m := m) hp (by omega)
      rw [if_neg (Nat.succ_ne_zero m), Nat.add_sub_cancel]
      split at hrest
      · rw [if_pos (by omega)]
        exact ⟨by omega, hrest.2⟩
      rw [if_neg (by omega)]
      exact hrest

theorem getAncestor_spec (hb : ch[n]? = some b) (ha : a ≤ n) :
    Walks s (b.hash C) n a m (getAncestor s (b.hash C) n a m) := by
  obtain ⟨x, k, hx, hwalk⟩ := walk_hash hc hb ha
  have hne := hS x (h.rooted (hc.stored hx).1).1
  rw [getAncestor, if_neg (not_lt.mpr ha)]
  split
  · rename_i hone
    subst hone
    have hread : s.headers (b.hash C) n = some b := (hc.stored hb).1
    have hself : parentWalk s 1 (b.hash C) n = some (b.parentHash, n - 1) := by
      rw [parentWalk, hread]
      rfl
    obtain ⟨hparent, _⟩ := Prod.mk.inj (some.inj (hself.symm.trans hwalk))
    rw [hread]
    exact ⟨fun _ => hself, fun _ => ⟨hparent.trans_ne hne, fun hnot => absurd rfl hnot⟩⟩
  have hloop := ancestorLoop_spec (m := m) hS h hc hb ha
  split at hloop
  · refine ⟨fun _ => hloop.2, fun _ => ⟨?_, fun _ => hloop.1⟩⟩
    rw [← some.inj (hwalk.symm.trans hloop.2)]
    exact hne
  rename_i hcount
  exact ⟨fun hzero => absurd (congrArg Prod.fst hloop) hzero, fun hle => absurd hle hcount⟩

end

theorem getAncestor_walks {C : Crypto} {S : Set Header} {g b : Header} {s : HeaderChain} {cs : List Header}
    {hash : Hash} {number ancestor : ℕ} (hS : ∀ h ∈ S, h.hash C ≠ zeros 32) (h : Lists C S g s cs)
    (hb : s.headers hash number = some b) (ha : ancestor ≤ number) (maxNonCanonical : ℕ) :
    Walks s hash number ancestor maxNonCanonical (getAncestor s hash number ancestor maxNonCanonical) := by
  obtain ⟨_, rfl, rfl, ch, hc, hlast⟩ := h.rooted hb
  exact getAncestor_spec hS h hc (hc.getElem_of_mem (mem_of_getLast? hlast)) ha

theorem lists_of_reached {C : Crypto} {S : Set Header} {g : Header} {s : HeaderChain} (hS : Ideal C S)
    (hg : g ∈ S) (hnumber : numberU64 g = 0) (h : Reached C S g s) : ∃ cs, Lists C S g s cs := by
  obtain ⟨hsound, cs, hindexed⟩ := reached_indexed hS hg hnumber h
  exact ⟨cs, hsound.stored, hindexed.chain, hindexed.describes⟩

/-- From a side header the walk takes one step, and jumps from the header below it. -/
theorem getAncestor_walks_side : ∃ s cs,
    Reached headerCrypto { h | h ∈ sampleHeaders } genesisHeader s ∧
    Lists headerCrypto { h | h ∈ sampleHeaders } genesisHeader s cs ∧
    s.currentHeader = secondHeader ∧ nonCanonical s 2 (sideHeader.hash headerCrypto) 2 = 1 ∧
    getAncestor s (sideHeader.hash headerCrypto) 2 2 3 = ((genesisHash, 0), 2) ∧
    Walks s (sideHeader.hash headerCrypto) 2 2 3 (getAncestor s (sideHeader.hash headerCrypto) 2 2 3) := by
  obtain ⟨⟨_, s⟩, hs, hp⟩ := exists_ok_of_any
    (x := writeHeaders headerCrypto (newHeaderChain headerCrypto genesisHeader) false [lightHeader, secondHeader])
    (p := fun x => decide (x.2.headers (sideHeader.hash headerCrypto) 2 = none) &&
      (writeHeaders headerCrypto x.2 false [sideHeader]).toOption.any fun y : HeaderWriteResult × HeaderChain =>
        decide (y.2.currentHeader = secondHeader) &&
        decide (y.2.headers (sideHeader.hash headerCrypto) 2 = some sideHeader) &&
        decide (nonCanonical y.2 2 (sideHeader.hash headerCrypto) 2 = 1) &&
        decide (getAncestor y.2 (sideHeader.hash headerCrypto) 2 2 3 = ((genesisHash, 0), 2)))
    (by decide +kernel)
  rw [Bool.and_eq_true, decide_eq_true_iff] at hp
  obtain ⟨⟨_, s'⟩, hs', hp'⟩ := exists_ok_of_any hp.2
  simp only [Bool.and_eq_true, decide_eq_true_iff] at hp'
  obtain ⟨⟨⟨hcurrent, hstored⟩, hcount⟩, hanswer⟩ := hp'
  have hreached : Reached headerCrypto { h | h ∈ sampleHeaders } genesisHeader s := by
    refine .call .start (contiguous_of ?_ ?_ ?_) ?_ (fun _ => marksAll_of_new ?_) hs
    all_goals decide +kernel
  have hreached' : Reached headerCrypto { h | h ∈ sampleHeaders } genesisHeader s' := by
    refine .call hreached (contiguous_of ?_ ?_ ?_) ?_ (fun _ => marksAll_of_new hp.1) hs'
    all_goals decide +kernel
  obtain ⟨cs, hlists⟩ := lists_of_reached sampleHeaders_ideal mem_cons_self (by decide) hreached'
  exact ⟨s', cs, hreached', hlists, hcurrent, hcount, hanswer,
    getAncestor_walks sampleHeaders_ideal.ne_zero hlists hstored (le_refl 2) 3⟩

end Geth.Core.AncestorLookup
