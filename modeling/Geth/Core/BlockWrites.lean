import Geth.Core.HeaderWrites

namespace Geth.Core.BlockWrites

open Lib.BigEndian Lib.Ancestry Common.Basic Types.Block Function List AList
open HeaderWrites (WriteStatus difficulty readCanonicalHash write parentNumber_of_pos headerCrypto genesisHeader
  lightHeader secondHeader heavyHeader)

structure Block where
  header : Header
  transactions : List Hash
  deriving DecidableEq

def Block.hash (C : Crypto) (b : Block) : Hash := b.header.hash C
def Block.numberU64 (b : Block) : ℕ := HeaderWrites.numberU64 b.header
def Block.parentNumber (b : Block) : ℕ := HeaderWrites.parentNumber b.header
def Block.parentHash (b : Block) : Hash := b.header.parentHash

inductive BlockError where
  | insertionInterrupted
  | unknownAncestor
  | commit
  | invalidOldChain
  | invalidNewChain
  | panic (p : Panic)
  | noReturn
  deriving DecidableEq

/-- The chain with the part of the database that the block index is made of.
`shouldPreserve` tells the blocks of the local miner. -/
structure BlockChain where
  shouldPreserve : Option (Block → Bool)
  blocks : Hash → ℕ → Option Block
  tds : Hash → ℕ → Option ℤ
  canonical : AList fun _ : ℕ => Hash
  txLookup : Hash → Option ℕ
  headBlockHash : Hash
  headHeaderHash : Hash
  headFastBlockHash : Hash
  currentBlock : Block
  currentFastBlock : Block
  currentHeader : Header
  insertStopped : Bool

def newBlockChain (C : Crypto) (shouldPreserve : Option (Block → Bool)) (genesis : Block) : BlockChain where
  shouldPreserve := shouldPreserve
  blocks h n := if h = genesis.hash C ∧ n = 0 then some genesis else none
  tds h n := if h = genesis.hash C ∧ n = 0 then some (difficulty genesis.header) else none
  canonical := (∅ : AList fun _ : ℕ => Hash).insert 0 (genesis.hash C)
  txLookup _ := none
  headBlockHash := genesis.hash C
  headHeaderHash := genesis.hash C
  headFastBlockHash := genesis.hash C
  currentBlock := genesis
  currentFastBlock := genesis
  currentHeader := genesis.header
  insertStopped := false

def writeTxLookupEntries (lookup : Hash → Option ℕ) (b : Block) : Hash → Option ℕ :=
  b.transactions.foldl (fun m tx => update m tx (some b.numberU64)) lookup

def writeHeadBlock (C : Crypto) (s : BlockChain) (block : Block) : BlockChain :=
  let updateHeads := readCanonicalHash s.canonical block.numberU64 ≠ block.hash C
  { s with
    canonical := s.canonical.insert block.numberU64 (block.hash C)
    txLookup := writeTxLookupEntries s.txLookup block
    headBlockHash := block.hash C
    headHeaderHash := if updateHeads then block.hash C else s.headHeaderHash
    headFastBlockHash := if updateHeads then block.hash C else s.headFastBlockHash
    currentHeader := if updateHeads then block.header else s.currentHeader
    currentFastBlock := if updateHeads then block else s.currentFastBlock
    currentBlock := block }

def getParent (s : BlockChain) (b : Block) : Option Block := s.blocks b.parentHash b.parentNumber

/-- The blocks that are passed on the way down to a height, and the one there. -/
def reduceTo (s : BlockChain) (number : ℕ) : ℕ → Option Block → List Block →
    Except BlockError (List Block × Option Block)
  | 0, _, _ => .error .noReturn
  | _ + 1, none, chain => .ok (chain, none)
  | fuel + 1, some b, chain =>
    if b.numberU64 = number then .ok (chain, some b)
    else reduceTo s number fuel (getParent s b) (chain ++ [b])

def findCommon (C : Crypto) (s : BlockChain) : ℕ → Block → Block → List Block → List Block →
    Except BlockError (List Block × List Block)
  | 0, _, _, _, _ => .error .noReturn
  | fuel + 1, oldBlock, newBlock, oldChain, newChain =>
    if oldBlock.hash C = newBlock.hash C then .ok (oldChain, newChain)
    else
      match getParent s oldBlock with
      | none => .error .invalidOldChain
      | some oldParent =>
        match getParent s newBlock with
        | none => .error .invalidNewChain
        | some newParent => findCommon C s fuel oldParent newParent (oldChain ++ [oldBlock]) (newChain ++ [newBlock])

def txDifference (a b : List Hash) : List Hash := a.filter fun tx => !b.contains tx

def transactionsOf (chain : List Block) : List Hash := chain.flatMap Block.transactions

/-- Both sides at the same height, with what was passed on the longer one. -/
def reduceBoth (C : Crypto) (s : BlockChain) (oldChain : List Block) (oldBlock : Option Block)
    (newChain : List Block) (newBlock : Option Block) : Except BlockError (List Block × List Block) :=
  match oldBlock, newBlock with
  | none, _ => .error .invalidOldChain
  | some _, none => .error .invalidNewChain
  | some oldBlock, some newBlock => findCommon C s (oldBlock.numberU64 + 1) oldBlock newBlock oldChain newChain

/-- The two sides of a reorganisation, each from its head down. -/
def sides (C : Crypto) (s : BlockChain) (oldBlock newBlock : Block) : Except BlockError (List Block × List Block) :=
  if newBlock.numberU64 < oldBlock.numberU64 then do
    let (oldChain, old) ← reduceTo s newBlock.numberU64 (oldBlock.numberU64 + 1) (some oldBlock) []
    reduceBoth C s oldChain old [] (some newBlock)
  else do
    let (newChain, new) ← reduceTo s oldBlock.numberU64 (newBlock.numberU64 + 1) (some newBlock) []
    reduceBoth C s [] (some oldBlock) newChain new

/-- The new chain but for its head is written, then what only the old chain
needed is deleted. The head is left to the caller. -/
def reorg (C : Crypto) (s : BlockChain) (oldBlock newBlock : Block) : Except BlockError BlockChain := do
  let (oldChain, newChain) ← sides C s oldBlock newBlock
  let added := (newChain.drop 1).reverse
  let s := added.foldl (writeHeadBlock C) s
  let useless := txDifference (transactionsOf oldChain) (transactionsOf added)
  let some above := occupied (fun n => readCanonicalHash s.canonical n != zeros 32)
    (s.canonical.entries.length + 1) (s.currentBlock.numberU64 + 1) | .error .noReturn
  return { s with
    txLookup := useless.foldl (fun m tx => update m tx none) s.txLookup
    canonical := above.foldl (fun m n => m.erase n) s.canonical }

def prefers (s : BlockChain) (block : Block) (externTd localTd : ℤ) (coin : Bool) : Bool :=
  if localTd < externTd then true
  else if externTd = localTd then
    if block.numberU64 < s.currentBlock.numberU64 then true
    else if block.numberU64 = s.currentBlock.numberU64 then
      let preserves (b : Block) := (s.shouldPreserve.map fun f => f b).getD false
      !preserves s.currentBlock && (preserves block || coin)
    else false
  else false

/-- The block is written whatever becomes of it. `commitErr` is an error of
committing its state. -/
def writeBlockWithState (C : Crypto) (s : BlockChain) (block : Block) (commitErr coin : Bool) :
    Except BlockError WriteStatus × BlockChain :=
  if s.insertStopped then (.error .insertionInterrupted, s)
  else
    match s.tds block.parentHash block.parentNumber with
    | none => (.error .unknownAncestor, s)
    | some ptd =>
      let localTd := s.tds (s.currentBlock.hash C) s.currentBlock.numberU64
      let externTd := difficulty block.header + ptd
      let s := { s with
        tds := write s.tds (block.hash C) block.numberU64 externTd
        blocks := write s.blocks (block.hash C) block.numberU64 block }
      if commitErr then (.error .commit, s)
      else
        match localTd with
        | none => (.error (.panic .nilPointer), s)
        | some localTd =>
          if prefers s block externTd localTd coin then
            if block.parentHash ≠ s.currentBlock.hash C then
              match reorg C s s.currentBlock block with
              | .error e => (.error e, s)
              | .ok s => (.ok .canonStatTy, writeHeadBlock C s block)
            else (.ok .canonStatTy, writeHeadBlock C s block)
          else (.ok .sideStatTy, s)

def blockLinks (C : Crypto) : Links Block Hash := ⟨Block.hash C, Block.parentHash, Block.numberU64⟩

/-- The blocks in play have hashes of their own, and none has the zero hash. -/
structure Ideal (C : Crypto) (S : Set Block) : Prop where
  injOn : S.InjOn (Block.hash C)
  ne_zero : ∀ b ∈ S, b.hash C ≠ zeros 32

structure Sound (C : Crypto) (S : Set Block) (g : Block) (s : BlockChain) : Prop where
  blocks : Rooted (blockLinks C) S g s.blocks
  tds : ∀ h n, (s.tds h n).isSome = (s.blocks h n).isSome

/-- The index describes the chain `cs` of the current block, and every
transaction of `cs` is found in a block of `cs`. -/
structure IndexedBy (C : Crypto) (g : Block) (s : BlockChain) (cs : List Block) : Prop where
  chain : Chain (blockLinks C) s.blocks g cs
  last : cs.getLast? = some s.currentBlock
  describes : Describes s.canonical (cs.map (Block.hash C))
  lookups : ∀ b ∈ cs, ∀ tx ∈ b.transactions,
    ∃ b' ∈ cs, tx ∈ b'.transactions ∧ s.txLookup tx = some b'.numberU64

def Indexed (C : Crypto) (g : Block) (s : BlockChain) : Prop := ∃ cs, IndexedBy C g s cs

section

variable {C : Crypto} {g : Block} {s : BlockChain} {cs c' : List Block} {n : ℕ} {b a : Block} {fuel k : ℕ}

section

variable (hc : Chain (blockLinks C) s.blocks g cs)
include hc

theorem getParent_spec (hb : cs[n + 1]? = some b) : ∃ a, cs[n]? = some a ∧ getParent s b = some a := by
  obtain ⟨a, ha, _, hget⟩ := hc.step_back hb
  have hnumber : b.numberU64 = n + 1 := (hc.stored hb).2
  have hprev : b.parentNumber = n := by
    rw [Block.parentNumber, parentNumber_of_pos]
    · exact Nat.sub_eq_of_eq_add hnumber
    · exact Nat.lt_of_lt_of_eq (Nat.succ_pos n) hnumber.symm
  exact ⟨a, ha, by rw [getParent, hprev]; exact hget⟩

theorem reduceTo_spec (hb : cs[n]? = some b) {t : ℕ}
    (ht : t ≤ n) (hfuel : n - t < fuel) (acc : List Block) :
    reduceTo s t fuel (some b) acc = .ok (acc ++ ((cs.take (n + 1)).drop (t + 1)).reverse, cs[t]?) := by
  induction fuel generalizing n b acc with
  | zero => omega
  | succ fuel ih =>
    have hnumber : b.numberU64 = n := (hc.stored hb).2
    obtain ⟨hlt, _⟩ := List.getElem?_eq_some_iff.mp hb
    rw [reduceTo]
    by_cases heq : n = t
    · subst heq
      rw [if_pos hnumber, drop_eq_nil_of_le (by rw [length_take]; omega), reverse_nil, append_nil, hb]
    obtain ⟨m, rfl⟩ : ∃ m, n = m + 1 := ⟨n - 1, by omega⟩
    obtain ⟨a, ha, hparent⟩ := getParent_spec hc hb
    rw [if_neg (by omega), hparent, ih ha (by omega) (by omega), append_assoc, take_add_one (i := m + 1),
      hb, drop_append_of_le_length (by rw [length_take]; omega), reverse_append]
    rfl

theorem findCommon_spec (hc' : Chain (blockLinks C) s.blocks g c') (hk : 0 < k) (htake : cs.take k = c'.take k)
    (hfork : ∀ n a b, k ≤ n → cs[n]? = some a → c'[n]? = some b → a.hash C ≠ b.hash C)
    (ha : cs[n]? = some a) (hb : c'[n]? = some b) (hn : k ≤ n + 1) (hfuel : n + 1 - k < fuel)
    (oldChain newChain : List Block) : findCommon C s fuel a b oldChain newChain =
      .ok (oldChain ++ ((cs.take (n + 1)).drop k).reverse, newChain ++ ((c'.take (n + 1)).drop k).reverse) := by
  induction fuel generalizing n a b oldChain newChain with
  | zero => omega
  | succ fuel ih =>
    obtain ⟨hlt, _⟩ := List.getElem?_eq_some_iff.mp ha
    obtain ⟨hlt', _⟩ := List.getElem?_eq_some_iff.mp hb
    rw [findCommon]
    by_cases heq : k = n + 1
    · have hab : some a = some b := by
        have hget := congrArg (fun l => l[n]?) htake
        simp only [getElem?_take, heq, Nat.lt_succ_self, if_true] at hget
        rw [← ha, ← hb, hget]
      cases hab
      rw [if_pos rfl, drop_eq_nil_of_le (by rw [length_take]; omega),
        drop_eq_nil_of_le (by rw [length_take]; omega), reverse_nil, append_nil,
        append_nil]
    obtain ⟨m, rfl⟩ : ∃ m, n = m + 1 := ⟨n - 1, by omega⟩
    obtain ⟨a', ha', hparent⟩ := getParent_spec hc ha
    obtain ⟨b', hb', hparent'⟩ := getParent_spec hc' hb
    rw [if_neg (hfork (m + 1) a b (by omega) ha hb), hparent, hparent']
    dsimp only
    rw [ih ha' hb' (by omega) (by omega), take_add_one (i := m + 1), take_add_one (i := m + 1), ha, hb,
      drop_append_of_le_length (by rw [length_take]; omega),
      drop_append_of_le_length (by rw [length_take]; omega), reverse_append,
      reverse_append, append_assoc, append_assoc]
    rfl

theorem sides_spec (hc' : Chain (blockLinks C) s.blocks g c') (ha : cs.getLast? = some a) (hb : c'.getLast? = some b) (hk : 0 < k)
    (hkc : k ≤ cs.length) (hkc' : k ≤ c'.length) (htake : cs.take k = c'.take k)
    (hfork : ∀ n a b, k ≤ n → cs[n]? = some a → c'[n]? = some b → a.hash C ≠ b.hash C) :
    sides C s a b = .ok ((cs.drop k).reverse, (c'.drop k).reverse) := by
  have hla : a.numberU64 + 1 = cs.length := (hc.number_last ha).1
  have hlb : b.numberU64 + 1 = c'.length := (hc'.number_last hb).1
  have hga : cs[a.numberU64]? = some a := by
    rw [getLast?_eq_getElem?, ← hla, Nat.add_sub_cancel] at ha
    exact ha
  have hgb : c'[b.numberU64]? = some b := by
    rw [getLast?_eq_getElem?, ← hlb, Nat.add_sub_cancel] at hb
    exact hb
  -- a side that was cut off and the rest of it
  have hrejoin (l : List Block) (m : ℕ) (hm : k ≤ m) :
      (l.drop m).reverse ++ ((l.take m).drop k).reverse = (l.drop k).reverse := by
    rw [← reverse_append, drop_take, show l.drop m = (l.drop k).drop (m - k) by
      rw [drop_drop, Nat.add_sub_cancel' hm], take_append_drop]
  rw [sides]
  by_cases hlt : b.numberU64 < a.numberU64
  · obtain ⟨a', ha'⟩ : ∃ a', cs[b.numberU64]? = some a' := ⟨_, getElem?_eq_getElem (by omega)⟩
    have hnumber' : a'.numberU64 = b.numberU64 := (hc.stored ha').2
    rw [if_pos hlt, reduceTo_spec hc hga hlt.le (by omega), hla, take_length, ha', nil_append]
    simp only [bind, Except.bind, reduceBoth]
    rw [findCommon_spec hc hc' hk htake hfork ha' hgb (by omega) (by omega), hlb, take_length,
      nil_append, ← hlb, hrejoin cs _ (by omega)]
  obtain ⟨b', hb'⟩ : ∃ b', c'[a.numberU64]? = some b' := ⟨_, getElem?_eq_getElem (by omega)⟩
  rw [if_neg hlt, reduceTo_spec hc' hgb (by omega) (by omega), hlb, take_length, hb', nil_append]
  simp only [bind, Except.bind, reduceBoth]
  rw [findCommon_spec hc hc' hk htake hfork hga hb' (by omega) (by omega), hla, take_length,
    nil_append, ← hla, hrejoin c' _ (by omega)]

end

end

section

variable {C : Crypto} {S : Set Block} {g : Block} {s : BlockChain} {cs c' : List Block} (l : List Block)

theorem foldl_update_apply (l : List Hash) (v : Option ℕ) (m : Hash → Option ℕ) (tx : Hash) :
    l.foldl (fun m t => update m t v) m tx = if tx ∈ l then v else m tx := by
  induction l generalizing m with
  | nil => rfl
  | cons t l ih =>
    rw [foldl_cons, ih]
    by_cases hl : tx ∈ l
    · rw [if_pos hl, if_pos (mem_cons_of_mem _ hl)]
    rw [if_neg hl]
    by_cases ht : tx = t
    · rw [ht, update_self, if_pos mem_cons_self]
    rw [update_of_ne ht, if_neg]
    simp only [mem_cons, ht, hl, or_self, not_false_eq_true]

theorem writeTxLookupEntries_apply (m : Hash → Option ℕ) (b : Block) (tx : Hash) :
    writeTxLookupEntries m b tx = if tx ∈ b.transactions then some b.numberU64 else m tx :=
  foldl_update_apply b.transactions (some b.numberU64) m tx

/-- A transaction of some of the blocks is found in one of them, any other is
found where it was. -/
theorem writeTxs_apply (m : Hash → Option ℕ) (tx : Hash) :
    (∃ b ∈ l, tx ∈ b.transactions ∧ l.foldl writeTxLookupEntries m tx = some b.numberU64) ∨
      (∀ b ∈ l, tx ∉ b.transactions) ∧ l.foldl writeTxLookupEntries m tx = m tx := by
  induction l generalizing m with
  | nil => exact .inr ⟨fun b hb => absurd hb not_mem_nil, rfl⟩
  | cons b l ih =>
    rw [foldl_cons]
    obtain ⟨b', hb', htx, hlookup⟩ | ⟨hno, hlookup⟩ := ih (writeTxLookupEntries m b)
    · exact .inl ⟨b', mem_cons_of_mem _ hb', htx, hlookup⟩
    rw [hlookup, writeTxLookupEntries_apply]
    by_cases htx : tx ∈ b.transactions
    · exact .inl ⟨b, mem_cons_self, htx, if_pos htx⟩
    refine .inr ⟨fun b' hb' => ?_, if_neg htx⟩
    obtain rfl | hb' := mem_cons.mp hb'
    · exact htx
    · exact hno b' hb'

theorem writeHeads_spec {start : ℕ} (hl : ∀ i b, l[i]? = some b → b.numberU64 = start + i)
    (s : BlockChain) :
    (l.foldl (writeHeadBlock C) s).canonical = put s.canonical start (l.map (Block.hash C)) ∧
      (l.foldl (writeHeadBlock C) s).currentBlock = l.getLast?.getD s.currentBlock ∧
      (l.foldl (writeHeadBlock C) s).txLookup = l.foldl writeTxLookupEntries s.txLookup ∧
      (l.foldl (writeHeadBlock C) s).blocks = s.blocks ∧ (l.foldl (writeHeadBlock C) s).tds = s.tds := by
  induction l generalizing start s with
  | nil => exact ⟨rfl, rfl, rfl, rfl, rfl⟩
  | cons b l ih =>
    have hb : b.numberU64 = start := hl 0 b rfl
    have hrest (i : ℕ) (x : Block) (hx : l[i]? = some x) : x.numberU64 = start + 1 + i := by
      rw [hl (i + 1) x hx]
      omega
    obtain ⟨hcanonical, hcurrent, hlookup, hblocks, htds⟩ := ih hrest (writeHeadBlock C s b)
    rw [foldl_cons]
    refine ⟨?_, ?_, hlookup, hblocks, htds⟩
    · rw [hcanonical, map_cons, put, ← hb]
      rfl
    rw [hcurrent]
    cases l with
    | nil => rfl
    | cons x l =>
      rw [getLast?_cons_cons]
      obtain ⟨y, hy⟩ := Option.isSome_iff_exists.mp (getLast?_isSome.mpr (cons_ne_nil x l))
      rw [hy]
      rfl

theorem present_iff (hS : Ideal C S) {idx : AList fun _ : ℕ => Hash} {l : List Block}
    (h : Describes idx (l.map (Block.hash C))) (hl : ∀ b ∈ l, b ∈ S) (n : ℕ) :
    (readCanonicalHash idx n != zeros 32) = true ↔ n < (l.map (Block.hash C)).length := by
  rw [bne_iff_ne, readCanonicalHash, h n, getElem?_map, length_map]
  by_cases hn : n < l.length
  · rw [getElem?_eq_getElem hn]
    exact ⟨fun _ => hn, fun _ => hS.ne_zero _ (hl _ (getElem_mem hn))⟩
  rw [getElem?_eq_none (by omega)]
  exact ⟨fun h => absurd rfl h, fun h => absurd h hn⟩

/-- A reorganisation marks the new chain but for its head and cuts what is
above, unless there is nothing to mark: then it cuts nothing. -/
theorem reorg_spec (hS : Ideal C S) (hsound : Sound C S g s) (h : IndexedBy C g s cs)
    (hc' : Chain (blockLinks C) s.blocks g c') {b : Block} (hb : c'.getLast? = some b) {k : ℕ} (hk : 0 < k)
    (hkc : k ≤ cs.length) (hkc' : k ≤ c'.length) (htake : cs.take k = c'.take k)
    (hfork : ∀ n a b, k ≤ n → cs[n]? = some a → c'[n]? = some b → a.hash C ≠ b.hash C) :
    ∃ s', reorg C s s.currentBlock b = .ok s' ∧ s'.blocks = s.blocks ∧ s'.tds = s.tds ∧
      Describes s'.canonical ((if c'.length ≤ k + 1 then cs else c'.dropLast).map (Block.hash C)) ∧
      ∀ tx, s'.txLookup tx =
        if (∃ x ∈ cs.drop k, tx ∈ x.transactions) ∧ ¬∃ x ∈ (c'.drop k).dropLast, tx ∈ x.transactions then none
        else (c'.drop k).dropLast.foldl writeTxLookupEntries s.txLookup tx := by
  rw [reorg, sides_spec h.chain hc' h.last hb hk hkc hkc' htake hfork]
  simp only [bind, Except.bind, pure, Except.pure]
  have hadded : ((c'.drop k).reverse.drop 1).reverse = (c'.drop k).dropLast := by
    rw [drop_one, tail_reverse, reverse_reverse]
  rw [hadded]
  have hnumbers (i : ℕ) (x : Block) (hx : (c'.drop k).dropLast[i]? = some x) : x.numberU64 = k + i := by
    refine (hc'.stored ?_).2
    rw [← getElem?_drop]
    rw [getElem?_dropLast] at hx
    split at hx
    · exact hx
    · cases hx
  obtain ⟨hcanonical, hcurrent, hlookup, hblocks, htds⟩ := writeHeads_spec _ hnumbers s
  generalize (c'.drop k).dropLast.foldl (writeHeadBlock C) s = s₁ at hcanonical hcurrent hlookup hblocks htds ⊢
  -- what the index describes before it is cut, and where it is cut
  obtain ⟨l, hl, hlS, hltake⟩ : ∃ l : List Block, Describes s₁.canonical (l.map (Block.hash C)) ∧ (∀ x ∈ l, x ∈ S) ∧
      l.take (s₁.currentBlock.numberU64 + 1) = if c'.length ≤ k + 1 then cs else c'.dropLast := by
    have hcS (x : Block) (hx : x ∈ cs) : x ∈ S := (hsound.blocks (h.chain.stored (h.chain.getElem_of_mem hx)).1).1
    have hc'S (x : Block) (hx : x ∈ c') : x ∈ S := (hsound.blocks (hc'.stored (hc'.getElem_of_mem hx)).1).1
    by_cases hshort : c'.length ≤ k + 1
    · have hnil : (c'.drop k).dropLast = [] := by
        apply eq_nil_of_length_eq_zero
        rw [length_dropLast, length_drop]
        omega
      rw [hnil] at hcanonical hcurrent
      refine ⟨cs, by rw [hcanonical]; exact h.describes, hcS, ?_⟩
      have hnumber : s.currentBlock.numberU64 + 1 = cs.length := (h.chain.number_last h.last).1
      have hcur : s₁.currentBlock = s.currentBlock := hcurrent
      rw [if_pos hshort, hcur, hnumber, take_length]
    refine ⟨c'.dropLast ++ cs.drop (c'.length - 1), fun n => ?_, fun x hx => ?_, ?_⟩
    · rw [hcanonical, lookup_put, length_map, length_dropLast, length_drop, h.describes n,
        getElem?_map, getElem?_map, getElem?_map]
      by_cases hn : n < c'.length - 1
      · have hlast : c'.dropLast[n]? = c'[n]? := by rw [getElem?_dropLast, if_pos hn]
        rw [getElem?_append_left (by rw [length_dropLast]; exact hn), hlast]
        by_cases hnk : n < k
        · have hget := congrArg (fun l => l[n]?) htake
          simp only [getElem?_take, hnk, if_true] at hget
          rw [if_neg (by omega), hget]
        rw [if_pos (by omega), getElem?_dropLast, length_drop, if_pos (by omega),
          getElem?_drop, Nat.add_sub_cancel' (by omega)]
      rw [if_neg (by omega), getElem?_append_right (by rw [length_dropLast]; omega),
        length_dropLast, getElem?_drop, Nat.add_sub_cancel' (by omega)]
    · obtain hx | hx := mem_append.mp hx
      · exact hc'S x (mem_of_mem_dropLast hx)
      · exact hcS x (mem_of_mem_drop hx)
    obtain ⟨y, hy⟩ : ∃ y, (c'.drop k).dropLast.getLast? = some y := by
      rw [← Option.isSome_iff_exists, getLast?_isSome]
      apply ne_nil_of_length_pos
      rw [length_dropLast, length_drop]
      omega
    have hcur : s₁.currentBlock = y := by rw [hcurrent, hy]; rfl
    rw [getLast?_eq_getElem?] at hy
    have hynumber := hnumbers _ y hy
    rw [length_dropLast, length_drop] at hynumber
    rw [if_neg hshort, hcur, hynumber, take_append_of_le_length (by rw [length_dropLast]; omega)]
    exact take_of_length_le (by rw [length_dropLast]; omega)
  obtain ⟨above, habove, hcut⟩ := hl.cut (fun n => present_iff hS hl hlS n) (s₁.currentBlock.numberU64 + 1)
  rw [habove]
  refine ⟨_, rfl, hblocks, htds, ?_, fun tx => ?_⟩
  · rw [← hltake, map_take]
    exact hcut
  have huseless : tx ∈ txDifference (transactionsOf (cs.drop k).reverse) (transactionsOf (c'.drop k).dropLast) ↔
      (∃ x ∈ cs.drop k, tx ∈ x.transactions) ∧ ¬∃ x ∈ (c'.drop k).dropLast, tx ∈ x.transactions := by
    rw [txDifference, mem_filter, Bool.not_eq_true', ← Bool.not_eq_true,
      contains_iff_mem, transactionsOf, transactionsOf, mem_flatMap, mem_flatMap]
    simp only [mem_reverse]
  dsimp only
  rw [foldl_update_apply, hlookup]
  simp only [huseless]

end

section

variable {C : Crypto} {S : Set Block} {g : Block} {s : BlockChain} {cs ca : List Block}

/-- The block becomes the head, and does not extend the present one. -/
def TakesOver (C : Crypto) (s : BlockChain) (block : Block) (coin : Bool) : Prop :=
  ∃ ptd localTd, s.tds block.parentHash block.parentNumber = some ptd ∧
    s.tds (s.currentBlock.hash C) s.currentBlock.numberU64 = some localTd ∧
    prefers s block (difficulty block.header + ptd) localTd coin = true ∧
    block.parentHash ≠ s.currentBlock.hash C

/-- What a block that takes over has to meet: it is not below the present head
on top of a canonical block, and no transaction is both in a block that is
dropped and in one that is kept, unless it is in a new one as well. -/
structure Replaces (C : Crypto) (g : Block) (s : BlockChain) (block : Block) : Prop where
  above : ¬(block.numberU64 < s.currentBlock.numberU64 ∧
    s.canonical.lookup (block.numberU64 - 1) = some block.parentHash)
  lookups : ∀ cs ca, Chain (blockLinks C) s.blocks g cs → cs.getLast? = some s.currentBlock →
    Chain (blockLinks C) s.blocks g ca → ca.getLast? = getParent s block →
    ∀ old ∈ cs, old ∉ ca ++ [block] → ∀ kept ∈ cs, kept ∈ ca ++ [block] →
      ∀ tx ∈ old.transactions, tx ∈ kept.transactions → ∃ new ∈ ca ++ [block], new ∉ cs ∧ tx ∈ new.transactions

theorem indexed_extend (h : IndexedBy C g s cs) {b} (hc : Chain (blockLinks C) s.blocks g (cs ++ [b])) :
    Indexed C g (writeHeadBlock C s b) := by
  have hnumber : b.numberU64 = cs.length := (hc.stored getElem?_concat_length).2
  refine ⟨cs ++ [b], hc, getLast?_concat, fun n => ?_, fun x hx tx htx => ?_⟩
  · change (s.canonical.insert b.numberU64 (b.hash C)).lookup n = _
    rw [hnumber, map_append, map_singleton]
    by_cases hn : n = cs.length
    · subst hn
      rw [lookup_insert, getElem?_append_right (by rw [length_map]), length_map, Nat.sub_self]
      rfl
    rw [lookup_insert_ne hn, h.describes n]
    by_cases hlt : n < cs.length
    · rw [getElem?_append_left (by rw [length_map]; exact hlt)]
    rw [getElem?_eq_none (by rw [length_map]; omega), getElem?_eq_none]
    rw [length_append, length_map, length_singleton]
    omega
  change ∃ b' ∈ cs ++ [b], tx ∈ b'.transactions ∧ writeTxLookupEntries s.txLookup b tx = some b'.numberU64
  rw [writeTxLookupEntries_apply]
  by_cases hb : tx ∈ b.transactions
  · exact ⟨b, mem_append_right _ (mem_singleton_self b), hb, if_pos hb⟩
  rw [if_neg hb]
  obtain hx | hx := mem_append.mp hx
  · obtain ⟨b', hb', htx', hlookup⟩ := h.lookups x hx tx htx
    exact ⟨b', mem_append_left _ hb', htx', hlookup⟩
  rw [mem_singleton.mp hx] at htx
  exact absurd htx hb

section

variable {b : Block} {k : ℕ} (h : IndexedBy C g s cs) (hca : Chain (blockLinks C) s.blocks g ca)
  (hc' : Chain (blockLinks C) s.blocks g (ca ++ [b])) (hkc : k ≤ cs.length) (hkc' : k ≤ (ca ++ [b]).length)
  (htake : cs.take k = (ca ++ [b]).take k)
  (hfork : ∀ n x y, k ≤ n → cs[n]? = some x → (ca ++ [b])[n]? = some y → x.hash C ≠ y.hash C)
include h hca hc' hkc htake hfork

omit hkc in
theorem parent_canonical_iff : s.canonical.lookup (b.numberU64 - 1) = some b.parentHash ↔ ca.length ≤ k := by
  have hnumber : b.numberU64 = ca.length := (hc'.stored getElem?_concat_length).2
  have hpos := hca.length_pos
  obtain ⟨a, ha⟩ : ∃ a, ca[ca.length - 1]? = some a := ⟨_, getElem?_eq_getElem (by omega)⟩
  have ha' : (ca ++ [b])[ca.length - 1]? = some a := by rw [getElem?_append_left (by omega), ha]
  have hparent : b.parentHash = a.hash C := by
    refine hc'.linked ha' ?_
    rw [Nat.sub_add_cancel hpos]
    exact getElem?_concat_length
  rw [hnumber, h.describes, getElem?_map, hparent]
  constructor
  · intro hlookup
    obtain ⟨x, hx, hhash⟩ := Option.map_eq_some_iff.mp hlookup
    by_contra hk
    exact hfork (ca.length - 1) x a (by omega) hx ha' hhash
  intro hk
  have hget := congrArg (fun l => l[ca.length - 1]?) htake
  simp only [getElem?_take] at hget
  rw [if_pos (by omega), if_pos (by omega), ha'] at hget
  rw [hget]
  rfl

include hkc' in
theorem takeover_canonical_iff {idx}
    (hidx : Describes idx ((if (ca ++ [b]).length ≤ k + 1 then cs else (ca ++ [b]).dropLast).map (Block.hash C))) :
    Describes (idx.insert b.numberU64 (b.hash C)) ((ca ++ [b]).map (Block.hash C)) ↔
      ¬(b.numberU64 < s.currentBlock.numberU64 ∧ s.canonical.lookup (b.numberU64 - 1) = some b.parentHash) := by
  have hnumber : b.numberU64 = ca.length := (hc'.stored getElem?_concat_length).2
  have hcurrent : s.currentBlock.numberU64 + 1 = cs.length := (h.chain.number_last h.last).1
  have hlength : (ca ++ [b]).length = ca.length + 1 := by rw [length_append, length_singleton]
  rw [parent_canonical_iff h hca hc' htake hfork, hnumber]
  have hself : ((ca ++ [b]).map (Block.hash C))[ca.length]? = some (b.hash C) := by
    rw [getElem?_map, getElem?_concat_length]
    rfl
  have hbelow (n : ℕ) (hn : n < ca.length) : (ca ++ [b])[n]? = ca[n]? := getElem?_append_left hn
  by_cases hshort : (ca ++ [b]).length ≤ k + 1
  · -- nothing was marked, and nothing was cut
    rw [if_pos hshort] at hidx
    constructor
    · rintro hd ⟨hlt, _⟩
      have hn := hd (ca.length + 1)
      rw [lookup_insert_ne (by omega), hidx, getElem?_eq_getElem (by rw [length_map]; omega),
        getElem?_eq_none (by rw [length_map]; omega)] at hn
      cases hn
    intro hnot n
    by_cases hn : n = ca.length
    · rw [hn, lookup_insert, hself]
    rw [lookup_insert_ne hn, hidx n, getElem?_map, getElem?_map]
    by_cases hlt : n < ca.length
    · have hget := congrArg (fun l => l[n]?) htake
      simp only [getElem?_take] at hget
      rw [if_pos (by omega), if_pos (by omega)] at hget
      rw [hget]
    have hle : ¬ca.length < s.currentBlock.numberU64 := fun hlt => hnot ⟨hlt, by omega⟩
    rw [getElem?_eq_none (by omega), getElem?_eq_none (by omega)]
  rw [if_neg hshort, dropLast_concat] at hidx
  refine ⟨fun _ hr => by omega, fun _ n => ?_⟩
  by_cases hn : n = ca.length
  · rw [hn, lookup_insert, hself]
  rw [lookup_insert_ne hn, hidx n, getElem?_map, getElem?_map]
  by_cases hlt : n < ca.length
  · rw [hbelow n hlt]
  · rw [getElem?_eq_none (by omega), getElem?_eq_none (by omega)]

omit hca hkc in
theorem takeover_lookups_iff (hb : b ∈ cs → cs.drop k = []) {lookup} (hlookup : ∀ tx, lookup tx =
      if (∃ x ∈ cs.drop k, tx ∈ x.transactions) ∧ ¬∃ x ∈ ((ca ++ [b]).drop k).dropLast, tx ∈ x.transactions then none
      else ((ca ++ [b]).drop k).dropLast.foldl writeTxLookupEntries s.txLookup tx) :
    (∀ x ∈ ca ++ [b], ∀ tx ∈ x.transactions, ∃ b' ∈ ca ++ [b], tx ∈ b'.transactions ∧
        writeTxLookupEntries lookup b tx = some b'.numberU64) ↔
      ∀ old ∈ cs, old ∉ ca ++ [b] → ∀ kept ∈ cs, kept ∈ ca ++ [b] → ∀ tx ∈ old.transactions,
        tx ∈ kept.transactions → ∃ new ∈ ca ++ [b], new ∉ cs ∧ tx ∈ new.transactions := by
  have hmem (x : Block) (hx : x ∈ cs) : x ∈ ca ++ [b] ↔ x.numberU64 < k := h.chain.mem_of_fork hc' htake hfork hx
  have hmem' (x : Block) (hx : x ∈ ca ++ [b]) : x ∈ cs ↔ x.numberU64 < k :=
    hc'.mem_of_fork h.chain htake.symm (fun n a b hn ha hb => (hfork n b a hn hb ha).symm) hx
  have hdrop (x : Block) : x ∈ (ca ++ [b]).drop k ↔ x ∈ ca ++ [b] ∧ k ≤ x.numberU64 := hc'.mem_drop_iff
  have hdropc (x : Block) : x ∈ cs.drop k ↔ x ∈ cs ∧ k ≤ x.numberU64 := h.chain.mem_drop_iff
  -- the new blocks are the marked ones and the head
  have hnew (x : Block) (hx : x ∈ (ca ++ [b]).drop k) : x ∈ ((ca ++ [b]).drop k).dropLast ∨ x = b := by
    by_cases hk : k ≤ ca.length
    · rw [drop_append_of_le_length hk, dropLast_concat]
      rw [drop_append_of_le_length hk, mem_append, mem_singleton] at hx
      exact hx
    rw [drop_eq_nil_of_le (by rw [length_append, length_singleton]; omega)] at hx
    exact absurd hx not_mem_nil
  constructor
  · intro hall old hold hno kept hkept hin tx htx htx'
    by_contra hnone
    push Not at hnone
    have hdropped : old ∈ cs.drop k := (hdropc old).mpr ⟨hold, not_lt.mp fun hlt => hno ((hmem old hold).mpr hlt)⟩
    have hbc : b ∉ cs := by
      intro hbc
      rw [hb hbc] at hdropped
      exact absurd hdropped not_mem_nil
    obtain ⟨b', _, _, hsome⟩ := hall kept hin tx htx'
    have hmarked : ¬∃ x ∈ ((ca ++ [b]).drop k).dropLast, tx ∈ x.transactions := by
      rintro ⟨x, hx, htxx⟩
      obtain ⟨hxc', hkx⟩ := (hdrop x).mp (mem_of_mem_dropLast hx)
      exact hnone x hxc' (fun hxc => absurd ((hmem' x hxc').mp hxc) (not_lt.mpr hkx)) htxx
    rw [writeTxLookupEntries_apply, if_neg (hnone b (mem_append_right _ (mem_singleton_self b)) hbc),
      hlookup, if_pos ⟨⟨old, hdropped, htx⟩, hmarked⟩] at hsome
    cases hsome
  intro hcond x hx tx htx
  rw [writeTxLookupEntries_apply]
  by_cases htxb : tx ∈ b.transactions
  · exact ⟨b, mem_append_right _ (mem_singleton_self b), htxb, if_pos htxb⟩
  rw [if_neg htxb, hlookup]
  obtain ⟨y, hy, htxy, hfold⟩ | ⟨hno, hfold⟩ := writeTxs_apply ((ca ++ [b]).drop k).dropLast s.txLookup tx
  · rw [if_neg fun hr => hr.2 ⟨y, hy, htxy⟩, hfold]
    exact ⟨y, ((hdrop y).mp (mem_of_mem_dropLast hy)).1, htxy, rfl⟩
  -- the transaction is in no new block, hence in none that is dropped
  have hnotnew (y : Block) (hy : y ∈ (ca ++ [b]).drop k) : tx ∉ y.transactions := by
    obtain hy | rfl := hnew y hy
    · exact hno y hy
    · exact htxb
  have hlow (y : Block) (hy : y ∈ ca ++ [b]) (htxy : tx ∈ y.transactions) : y.numberU64 < k :=
    not_le.mp fun hle => hnotnew y ((hdrop y).mpr ⟨hy, hle⟩) htxy
  have hxc : x ∈ cs := (hmem' x hx).mpr (hlow x hx htx)
  have hold : ¬∃ y ∈ cs.drop k, tx ∈ y.transactions := by
    rintro ⟨y, hy, htxy⟩
    obtain ⟨hyc, hky⟩ := (hdropc y).mp hy
    obtain ⟨z, hz, hzc, htxz⟩ := hcond y hyc (fun hyc' => absurd ((hmem y hyc).mp hyc') (not_lt.mpr hky)) x hxc
      hx tx htxy htx
    exact hzc ((hmem' z hz).mpr (hlow z hz htxz))
  rw [if_neg fun hr => hold hr.1, hfold]
  obtain ⟨b', hb', htxb', hfound⟩ := h.lookups x hxc tx htx
  refine ⟨b', (hmem b' hb').mpr (not_le.mp fun hle => hold ⟨b', (hdropc b').mpr ⟨hb', hle⟩, htxb'⟩), htxb', hfound⟩

end

section

variable (hS : Ideal C S) (hsound : Sound C S g s) (h : IndexedBy C g s cs)
include hS hsound h

/-- A block that takes over leaves the index right just when it replaces what
was there. -/
theorem indexed_takeover {b}
    (hca : Chain (blockLinks C) s.blocks g ca) (hc' : Chain (blockLinks C) s.blocks g (ca ++ [b])) :
    ∃ s', reorg C s s.currentBlock b = .ok s' ∧ s'.blocks = s.blocks ∧ s'.tds = s.tds ∧
      (Indexed C g (writeHeadBlock C s' b) ↔
        ¬(b.numberU64 < s.currentBlock.numberU64 ∧ s.canonical.lookup (b.numberU64 - 1) = some b.parentHash) ∧
        ∀ old ∈ cs, old ∉ ca ++ [b] → ∀ kept ∈ cs, kept ∈ ca ++ [b] → ∀ tx ∈ old.transactions,
          tx ∈ kept.transactions → ∃ new ∈ ca ++ [b], new ∉ cs ∧ tx ∈ new.transactions) := by
  obtain ⟨k, hk, hkc, hkc', htake, hfork⟩ := h.chain.fork hc'
  obtain ⟨s', hs', hblocks, htds, hcanonical, hlookup⟩ :=
    reorg_spec hS hsound h hc' getLast?_concat hk hkc hkc' htake hfork
  refine ⟨s', hs', hblocks, htds, ?_⟩
  have hlast : (ca ++ [b]).getLast? = some b := getLast?_concat
  have hindex := takeover_canonical_iff h hca hc' hkc hkc' htake hfork hcanonical
  -- a block of the present chain that takes over is its head
  have hself (hnot : ¬(b.numberU64 < s.currentBlock.numberU64 ∧
      s.canonical.lookup (b.numberU64 - 1) = some b.parentHash)) (hbc : b ∈ cs) : cs.drop k = [] := by
    have hnumber : b.numberU64 = ca.length := (hc'.stored getElem?_concat_length).2
    have hcurrent : s.currentBlock.numberU64 + 1 = cs.length := (h.chain.number_last h.last).1
    have hbk : b.numberU64 < k := (h.chain.mem_of_fork hc' htake hfork hbc).mp
      (mem_append_right _ (mem_singleton_self b))
    rw [parent_canonical_iff h hca hc' htake hfork] at hnot
    refine drop_eq_nil_of_le ?_
    by_contra hlt
    exact hnot ⟨by omega, by omega⟩
  constructor
  · rintro ⟨c₁, h₁⟩
    have hc₁ : c₁ = ca ++ [b] := by
      have hchain : Chain (blockLinks C) s'.blocks g c₁ := h₁.chain
      rw [hblocks] at hchain
      exact hchain.unique hc' h₁.last hlast
    subst hc₁
    have hnot := hindex.mp h₁.describes
    exact ⟨hnot, (takeover_lookups_iff h hc' htake hfork (hself hnot) hlookup).mp h₁.lookups⟩
  rintro ⟨hnot, hcond⟩
  refine ⟨ca ++ [b], ?_, hlast, hindex.mpr hnot,
    (takeover_lookups_iff h hc' htake hfork (hself hnot) hlookup).mpr hcond⟩
  change Chain (blockLinks C) s'.blocks g (ca ++ [b])
  rw [hblocks]
  exact hc'

/-- A write goes through if the parent is known, the chain is not stopped and
the state is committed; the index is right after it just when a block that
takes over replaces what was there. -/
theorem writeBlockWithState_spec {block}
    (hin : block ∈ S) (hpos : 0 < block.numberU64) (commitErr coin : Bool) :
    Sound C S g (writeBlockWithState C s block commitErr coin).2 ∧
      ((∃ e, (writeBlockWithState C s block commitErr coin).1 = .error e ∧
          (s.insertStopped = true ∨ getParent s block = none ∨ commitErr = true) ∧
          Indexed C g (writeBlockWithState C s block commitErr coin).2) ∨
        ∃ status, (writeBlockWithState C s block commitErr coin).1 = .ok status ∧
          (Indexed C g (writeBlockWithState C s block commitErr coin).2 ↔
            (TakesOver C s block coin → Replaces C g s block))) := by
  rw [writeBlockWithState]
  by_cases hstopped : s.insertStopped = true
  · rw [if_pos hstopped]
    exact ⟨hsound, .inl ⟨_, rfl, .inl hstopped, cs, h⟩⟩
  rw [if_neg hstopped]
  cases hptd : s.tds block.parentHash block.parentNumber with
  | none =>
    have hparent : getParent s block = none := by
      have htd := hsound.tds block.parentHash block.parentNumber
      rw [hptd, eq_comm, Option.isSome_none, Option.isSome_eq_false_iff, Option.isNone_iff_eq_none] at htd
      exact htd
    exact ⟨hsound, .inl ⟨_, rfl, .inr (.inl hparent), cs, h⟩⟩
  | some ptd =>
    dsimp only
    -- the parent, its chain and the chain of the block
    obtain ⟨a, ha⟩ : ∃ a, s.blocks block.parentHash block.parentNumber = some a := by
      rw [← Option.isSome_iff_exists, ← hsound.tds, hptd]
      rfl
    obtain ⟨_, hahash, hanumber, ca, hca, hlasta⟩ := hsound.blocks ha
    have hnumber : block.numberU64 = a.numberU64 + 1 := by
      have hprev : block.parentNumber = block.numberU64 - 1 := parentNumber_of_pos hpos
      have hanumber' : a.numberU64 = block.parentNumber := hanumber
      omega
    obtain ⟨hrooted, hc', hkeep⟩ := Rooted.insert hsound.blocks hS.injOn hca hlasta hahash.symm hnumber hin
    set s₁ : BlockChain := { s with
      tds := write s.tds (block.hash C) block.numberU64 (difficulty block.header + ptd)
      blocks := write s.blocks (block.hash C) block.numberU64 block } with hs₁
    have hsound₁ : Sound C S g s₁ := by
      refine ⟨hrooted, fun h n => ?_⟩
      change (write s.tds _ _ _ h n).isSome = (write s.blocks _ _ _ h n).isSome
      rw [write, write]
      split
      · rfl
      · exact hsound.tds h n
    have h₁ : IndexedBy C g s₁ cs := ⟨h.chain.mono hkeep, h.last, h.describes, h.lookups⟩
    by_cases hcommit : commitErr = true
    · rw [if_pos hcommit]
      exact ⟨hsound₁, .inl ⟨_, rfl, .inr (.inr hcommit), cs, h₁⟩⟩
    rw [if_neg hcommit]
    obtain ⟨localTd, hlocal⟩ : ∃ td, s.tds (s.currentBlock.hash C) s.currentBlock.numberU64 = some td := by
      have hcurrent : s.blocks (s.currentBlock.hash C) s.currentBlock.numberU64 = some s.currentBlock :=
        (h.chain.number_last h.last).2
      rw [← Option.isSome_iff_exists, hsound.tds, hcurrent]
      rfl
    rw [hlocal]
    dsimp only
    have hprefers : prefers s₁ block (difficulty block.header + ptd) localTd coin =
        prefers s block (difficulty block.header + ptd) localTd coin := rfl
    have htakes : TakesOver C s block coin ↔
        prefers s block (difficulty block.header + ptd) localTd coin = true ∧
          block.parentHash ≠ s.currentBlock.hash C := by
      constructor
      · rintro ⟨ptd', localTd', hp, hl, hpref, hne⟩
        rw [hptd] at hp
        cases hp
        rw [hlocal] at hl
        cases hl
        exact ⟨hpref, hne⟩
      · exact fun hr => ⟨ptd, localTd, hptd, hlocal, hr.1, hr.2⟩
    rw [hprefers]
    by_cases hpref : prefers s block (difficulty block.header + ptd) localTd coin = true
    · rw [if_pos hpref]
      by_cases hne : block.parentHash ≠ s.currentBlock.hash C
      · obtain ⟨s₂, hs₂, hblocks₂, htds₂, hiff⟩ := indexed_takeover hS hsound₁ h₁ (hca.mono hkeep) hc'
        have hcurrent : s₁.currentBlock = s.currentBlock := rfl
        rw [hcurrent] at hs₂
        rw [if_pos hne, hs₂]
        refine ⟨⟨?_, ?_⟩, .inr ⟨_, rfl, hiff.trans ⟨fun hr _ => ⟨hr.1, fun c₁ ca₁ hc₁ hl₁ hca₁ hla₁ => ?_⟩, fun hr => ?_⟩⟩⟩
        · change Rooted (blockLinks C) S g s₂.blocks
          rw [hblocks₂]
          exact hsound₁.blocks
        · change ∀ h n, (s₂.tds h n).isSome = (s₂.blocks h n).isSome
          rw [htds₂, hblocks₂]
          exact hsound₁.tds
        · obtain rfl := hc₁.unique h.chain hl₁ h.last
          obtain rfl := hca₁.unique hca (hla₁.trans ha) hlasta
          exact hr.2
        obtain ⟨habove, hlookups⟩ := hr (htakes.mpr ⟨hpref, hne⟩)
        exact ⟨habove, hlookups cs ca h.chain h.last hca (hlasta.trans ha.symm)⟩
      rw [if_neg hne]
      push Not at hne
      -- the parent is the present head
      have hac : a = s.currentBlock := by
        refine hS.injOn (hsound.blocks ha).1 (hsound.blocks (h.chain.number_last h.last).2).1 ?_
        exact hahash.trans hne
      obtain rfl : ca = cs := hca.unique h.chain hlasta (hac ▸ h.last)
      refine ⟨⟨hsound₁.blocks, hsound₁.tds⟩, .inr ⟨_, rfl, fun _ htake => ?_, fun _ => indexed_extend h₁ hc'⟩⟩
      exact absurd hne (htakes.mp htake).2
    rw [if_neg hpref]
    exact ⟨hsound₁, .inr ⟨_, rfl, fun _ htake => absurd (htakes.mp htake).1 hpref, fun _ => ⟨cs, h₁⟩⟩⟩

end

end

/-- The chains that writes lead to as long as every block that takes over
replaces what was there. -/
inductive Reached (C : Crypto) (S : Set Block) (g : Block) (shouldPreserve : Option (Block → Bool)) :
    BlockChain → Prop where
  | start : Reached C S g shouldPreserve (newBlockChain C shouldPreserve g)
  | write {s : BlockChain} {block : Block} (commitErr coin : Bool) (h : Reached C S g shouldPreserve s)
      (hin : block ∈ S) (hpos : 0 < block.numberU64)
      (hreplaces : TakesOver C s block coin → Replaces C g s block) :
      Reached C S g shouldPreserve (writeBlockWithState C s block commitErr coin).2
  | stop {s : BlockChain} (h : Reached C S g shouldPreserve s) :
      Reached C S g shouldPreserve { s with insertStopped := true }

section

variable {C : Crypto} {S : Set Block} {g : Block} {shouldPreserve : Option (Block → Bool)} {s : BlockChain}

theorem new_sound (hg : g ∈ S) (hnumber : g.numberU64 = 0) :
    Sound C S g (newBlockChain C shouldPreserve g) ∧
      Chain (blockLinks C) (newBlockChain C shouldPreserve g).blocks g [g] := by
  obtain ⟨hrooted, hchain⟩ := Rooted.start (L := blockLinks C) hg hnumber
  refine ⟨⟨hrooted, fun h n => ?_⟩, hchain⟩
  change (if _ then _ else _ : Option ℤ).isSome = (if _ then _ else _ : Option Block).isSome
  split <;> rfl

theorem new_indexed (hg : g ∈ S) (hnumber : g.numberU64 = 0) (htxs : g.transactions = []) :
    Sound C S g (newBlockChain C shouldPreserve g) ∧ Indexed C g (newBlockChain C shouldPreserve g) := by
  obtain ⟨hsound, hchain⟩ := new_sound hg hnumber
  refine ⟨hsound, [g], hchain, rfl, .singleton (g.hash C), fun b hb tx htx => ?_⟩
  rw [mem_singleton.mp hb, htxs] at htx
  exact absurd htx not_mem_nil

theorem reached_indexed (hS : Ideal C S) (hg : g ∈ S) (hnumber : g.numberU64 = 0) (htxs : g.transactions = [])
    (h : Reached C S g shouldPreserve s) : Sound C S g s ∧ Indexed C g s := by
  induction h with
  | start => exact new_indexed hg hnumber htxs
  | write commitErr coin _ hin hpos hreplaces ih =>
    obtain ⟨hsound, cs, hindexed⟩ := ih
    obtain ⟨hsound', ⟨_, _, _, hindexed'⟩ | ⟨_, _, hiff⟩⟩ :=
      writeBlockWithState_spec hS hsound hindexed hin hpos commitErr coin
    · exact ⟨hsound', hindexed'⟩
    · exact ⟨hsound', hiff.mpr hreplaces⟩
  | stop _ ih =>
    obtain ⟨⟨hblocks, htds⟩, cs, hindexed⟩ := ih
    exact ⟨⟨hblocks, htds⟩, cs, hindexed.chain, hindexed.last, hindexed.describes, hindexed.lookups⟩

end

/-- As long as every block that took over has replaced what was there, the
canonical index and the transaction lookups describe the head's ancestry; the
next write of a block with a known parent goes through, and it keeps them right
just when its block does so too. -/
theorem block_index_describes_head {C : Crypto} {S : Set Block} {g : Block}
    {shouldPreserve : Option (Block → Bool)} {s : BlockChain} (hS : Ideal C S) (hg : g ∈ S)
    (hnumber : g.numberU64 = 0) (htxs : g.transactions = []) (h : Reached C S g shouldPreserve s) :
    Indexed C g s ∧ ∀ block ∈ S, 0 < block.numberU64 → ∀ commitErr coin,
      (s.insertStopped = false → (getParent s block).isSome → commitErr = false →
        ∃ status, (writeBlockWithState C s block commitErr coin).1 = .ok status) ∧
      ∀ status, (writeBlockWithState C s block commitErr coin).1 = .ok status →
        (Indexed C g (writeBlockWithState C s block commitErr coin).2 ↔
          (TakesOver C s block coin → Replaces C g s block)) := by
  obtain ⟨hsound, hindexed⟩ := reached_indexed hS hg hnumber htxs h
  refine ⟨hindexed, fun block hin hpos commitErr coin => ?_⟩
  obtain ⟨cs, hindexed⟩ := hindexed
  obtain ⟨_, ⟨e, he, hcause, _⟩ | ⟨status, hstatus, hiff⟩⟩ :=
    writeBlockWithState_spec hS hsound hindexed hin hpos commitErr coin
  · refine ⟨fun hrunning hparent hcommit => ?_, fun status hstatus => ?_⟩
    · obtain hc | hc | hc := hcause
      · rw [hc] at hrunning
        cases hrunning
      · rw [hc] at hparent
        cases hparent
      rw [hc] at hcommit
      cases hcommit
    rw [he] at hstatus
    cases hstatus
  · exact ⟨fun _ _ _ => ⟨status, hstatus⟩, fun _ _ => hiff⟩

def genesisBlock : Block := ⟨genesisHeader, []⟩
def lightBlock : Block := ⟨lightHeader, [hexToHash 7]⟩
def secondBlock : Block := ⟨secondHeader, []⟩
def heavyBlock : Block := ⟨heavyHeader, [hexToHash 8]⟩

def sampleBlocks : List Block := [genesisBlock, lightBlock, secondBlock, heavyBlock]

theorem sampleBlocks_ideal : Ideal headerCrypto { b | b ∈ sampleBlocks } := by
  constructor
  · have hall : ∀ x ∈ sampleBlocks, ∀ y ∈ sampleBlocks, x.hash headerCrypto = y.hash headerCrypto → x = y := by
      decide +kernel
    exact fun x hx y hy => hall x hx y hy
  have hall : ∀ x ∈ sampleBlocks, x.hash headerCrypto ≠ zeros 32 := by decide +kernel
  exact hall

def writeBlocks (C : Crypto) (s : BlockChain) (blocks : List Block) : Except BlockError BlockChain :=
  blocks.foldlM (fun s b =>
    match writeBlockWithState C s b false false with
    | (.ok _, s) => .ok s
    | (.error e, _) => .error e) s

/-- A heavier block that is lower than the head: the hash above it stays. -/
theorem stale_canonical_hash : ∃ s,
    writeBlocks headerCrypto (newBlockChain headerCrypto none genesisBlock) [lightBlock, secondBlock, heavyBlock] =
      .ok s ∧
    s.currentBlock = heavyBlock ∧ s.canonical.lookup 2 = some (secondBlock.hash headerCrypto) ∧
    ¬Indexed headerCrypto genesisBlock s := by
  obtain ⟨s, hs, hp⟩ := exists_ok_of_any
    (x := writeBlocks headerCrypto (newBlockChain headerCrypto none genesisBlock) [lightBlock, secondBlock, heavyBlock])
    (p := fun s => decide (s.currentBlock = heavyBlock) &&
      decide (s.canonical.lookup 2 = some (secondBlock.hash headerCrypto))) (by decide +kernel)
  rw [Bool.and_eq_true, decide_eq_true_iff, decide_eq_true_iff] at hp
  obtain ⟨hcurrent, hcanonical⟩ := hp
  refine ⟨s, hs, hcurrent, hcanonical, fun ⟨cs, h⟩ => ?_⟩
  have hnumber : s.currentBlock.numberU64 + 1 = cs.length := (h.chain.number_last h.last).1
  rw [hcurrent, show heavyBlock.numberU64 = 1 by decide] at hnumber
  have hnone := h.describes 2
  rw [hcanonical, getElem?_eq_none (by rw [length_map, ← hnumber])] at hnone
  cases hnone

/-- No transaction is in two of the blocks. -/
theorem sampleBlocks_apart : ∀ x ∈ sampleBlocks, ∀ y ∈ sampleBlocks,
    ∀ tx ∈ x.transactions, tx ∈ y.transactions → x = y := by
  have hne : hexToHash 7 ≠ hexToHash 8 := by decide
  simp [sampleBlocks, genesisBlock, lightBlock, secondBlock, heavyBlock, hne, hne.symm]

/-- A heavier block takes over from the head. -/
theorem block_index_after_write : ∃ s,
    Reached headerCrypto { b | b ∈ sampleBlocks } genesisBlock none s ∧ s.currentBlock = lightBlock ∧
      TakesOver headerCrypto s heavyBlock false ∧
      (writeBlockWithState headerCrypto s heavyBlock false false).2.currentBlock = heavyBlock ∧
      Indexed headerCrypto genesisBlock (writeBlockWithState headerCrypto s heavyBlock false false).2 := by
  have hlight : lightBlock ∈ sampleBlocks := by decide +kernel
  have hheavy : heavyBlock ∈ sampleBlocks := by decide +kernel
  obtain ⟨s, hs⟩ : ∃ s, (writeBlockWithState headerCrypto (newBlockChain headerCrypto none genesisBlock)
    lightBlock false false).2 = s := ⟨_, rfl⟩
  have hcurrent : s.currentBlock = lightBlock := hs ▸ by decide +kernel
  have htakes : TakesOver headerCrypto s heavyBlock false := ⟨1, 2, hs ▸ by decide +kernel⟩
  have hreached : Reached headerCrypto { b | b ∈ sampleBlocks } genesisBlock none s := by
    rw [← hs]
    refine .write false false .start hlight (by decide) fun ⟨_, _, _, _, _, hne⟩ => ?_
    exact (hne (by decide +kernel)).elim
  obtain ⟨hsound, _⟩ := reached_indexed sampleBlocks_ideal mem_cons_self (by decide) rfl hreached
  obtain ⟨_, hwrite⟩ := block_index_describes_head sampleBlocks_ideal mem_cons_self (by decide) rfl hreached
  obtain ⟨hruns, hiff⟩ := hwrite heavyBlock hheavy (by decide) false false
  obtain ⟨status, hstatus⟩ := hruns (hs ▸ by decide +kernel) (hs ▸ by decide +kernel) rfl
  refine ⟨s, hreached, hcurrent, htakes, hs ▸ by decide +kernel, (hiff status hstatus).mpr fun _ => ⟨?_, ?_⟩⟩
  · rw [hcurrent]
    exact fun h => absurd h.1 (by decide)
  intro cs ca hcs _ _ _ old hold hdropped kept hkept hin tx htx htx'
  have hmem {b} (hb : b ∈ cs) : b ∈ sampleBlocks := (hsound.blocks (hcs.stored (hcs.getElem_of_mem hb)).1).1
  rw [sampleBlocks_apart old (hmem hold) kept (hmem hkept) tx htx htx'] at hdropped
  exact absurd hin hdropped

end Geth.Core.BlockWrites
