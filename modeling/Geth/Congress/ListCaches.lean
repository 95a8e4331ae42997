import Geth.Core.Process
import Geth.Lib.InheritedCache

namespace Geth.Congress.ListCaches

open Lib.BigEndian Lib.Programs Lib.InheritedCache Common.Basic Types.Block Core.Evm
open Core.TransitionDb Core.Process SystemCalls Assembly Function List Option

variable {ω : Type}

def addressListContractAddr : Address := hexToAddress 0xF004
def blackLastUpdatedNumberPosition : Hash := hexToHash 0x07
def rulesLastUpdatedNumberPosition : Hash := hexToHash 0x08

inductive ListMethod where
  | getBlacksFrom | getBlacksTo | rulesLen
  | getRuleByIndex (i : UInt32)

/-- The encoding of calls to the address list and of what they return, and the
storage of a state. -/
structure AddressList (ω : Type) where
  pack : ListMethod → Except SysError Bytes
  unpackAddresses : Bytes → Except SysError (List Address)
  unpackLen : Bytes → Except SysError UInt32
  unpackRule : Bytes → Except SysError (Hash × Int × UInt8)
  getState : World ω → Address → Hash → Hash

abbrev Blacklist := Address → Option BlacklistDirection

structure EventCheckRule where
  eventSig : Hash
  checks : Int → Option AddressCheckType

abbrev Rules := Hash → Option EventCheckRule

def addressCheckType (ct : UInt8) : AddressCheckType :=
  if ct = 0 then .checkNone
  else if ct = 1 then .checkFrom
  else if ct = 2 then .checkTo
  else if ct = 3 then .checkBothInAny
  else .other ct.toNat

/-- The map of two lists. An address that is already there is denied both ways. -/
def directions (froms tos : List Address) : Blacklist :=
  tos.foldl (fun m addr => update m addr
      (some (if (m addr).isSome then .directionBoth else .directionTo)))
    (froms.foldl (fun m addr => update m addr (some .directionFrom)) fun _ => none)

/-- `rules[sig].Checks[int(idx)] = ct`. -/
def addRule (rules : Rules) (sig : Hash) (idx : Int) (ct : UInt8) : Rules :=
  let rule := (rules sig).getD ⟨sig, fun _ => none⟩
  update rules sig (some { rule with
    checks := update rule.checks (bigUint64 idx).toInt64.toInt (some (addressCheckType ct)) })

section

variable (c : Posa ω) (al : AddressList ω) (header : Header)

/-- The block hashes without a chain: only that of the parent is known. -/
def minimalGetHash (header : Header) (n : UInt64) : Hash :=
  if bigUint64 (header.number.getD 0) - n - 1 < 1 then header.parentHash else zeros 32

def commonCallContract (method : ListMethod) : Sys ω Bytes := do
  let data ← ofExcept (al.pack method)
  { c with getHash := minimalGetHash }.executeMsg header header.coinbase addressListContractAddr 0
    maxUint64 data

def getBlacks (method : ListMethod) : Sys ω (List Address) := do
  let result ← commonCallContract c al header method
  ofExcept (al.unpackAddresses result)

def readBlacklist : Sys ω Blacklist := do
  let froms ← getBlacks c al header .getBlacksFrom
  let tos ← getBlacks c al header .getBlacksTo
  return directions froms tos

def getEventCheckRulesLen : Sys ω UInt32 := do
  let result ← commonCallContract c al header .rulesLen
  ofExcept (al.unpackLen result)

def readRulesFrom : ℕ → ℕ → Rules → Sys ω Rules
  | _, 0, rules => return rules
  | i, n + 1, rules => do
    let result ← commonCallContract c al header (.getRuleByIndex (UInt32.ofNat i))
    let (sig, idx, ct) ← ofExcept (al.unpackRule result)
    readRulesFrom (i + 1) n (addRule rules sig idx ct)

def readRules : Sys ω Rules := do
  let cnt ← getEventCheckRulesLen c al header
  readRulesFrom c al header 0 cnt.toNat fun _ => none

def lastUpdatedNumber (slot : Hash) (state : World ω) : UInt64 :=
  UInt64.ofNat (beNat (al.getState state addressListContractAddr slot).toList)

def lastBlacklistUpdatedNumber : World ω → UInt64 :=
  lastUpdatedNumber al blackLastUpdatedNumberPosition

def lastRulesUpdatedNumber : World ω → UInt64 :=
  lastUpdatedNumber al rulesLastUpdatedNumberPosition

def inheritedKey (number : Int) (lastUpdated : UInt64) : Option Hash :=
  let num := bigUint64 number
  if 2 ≤ num ∧ lastUpdated + 1 < num then
    (c.getHeader header.parentHash (num - 1)).map Header.parentHash
  else none

def blacklistOlder (parentState : World ω) : Except SysError (Option Hash) :=
  match c.chainConfig.sophonBlock, header.number with
  | none, _ => .ok none
  | some _, none => .error (.panicked .nilPointer)
  | some sophon, some number =>
    if sophon < number then
      .ok (inheritedKey c header number (lastBlacklistUpdatedNumber al parentState))
    else .ok none

def rulesOlder (parentState : World ω) : Except SysError (Option Hash) :=
  match header.number with
  | none => .error (.panicked .nilPointer)
  | some number => .ok (inheritedKey c header number (lastRulesUpdatedNumber al parentState))

def getBlacklist (lost : ℕ → Hash → Bool) :
    Program SysError (World ω × Cache Hash Blacklist) Blacklist :=
  cached lost header.parentHash (blacklistOlder c al header) (readBlacklist c al header)

def getEventCheckRules (lost : ℕ → Hash → Bool) :
    Program SysError (World ω × Cache Hash Rules) Rules :=
  cached lost header.parentHash (rulesOlder c al header) (readRules c al header)

end

/-- Blocks by their hashes, with the state after each. The chain that the engine
reads has no other block under one of these hashes. -/
structure BlockTree (c : Posa ω) where
  header : Hash → Option Header
  state : Hash → World ω
  served : ∀ hash number block block', header hash = some block →
    c.getHeader hash number = some block' → block' = block

namespace BlockTree

variable {c : Posa ω} (tree : BlockTree c)

def Known (hash : Hash) : Prop := (tree.header hash).isSome = true

/-- A header on top of a block of the tree. -/
structure Extends (header : Header) : Prop where
  parent : ∃ (block : Header) (n : ℕ), tree.header header.parentHash = some block ∧
    block.number = some (n : ℤ) ∧ header.number = some ((n + 1 : ℕ) : ℤ)
  difficulty : header.difficulty.isSome = true

/-- What the contract holds after a block is what any header on the tree reads
there, and a slot has the number of the last block that changed it. -/
structure Records {α : Type} (al : AddressList ω) (slot : Hash) (read : Header → Sys ω α)
    (held : Hash → Except SysError α) : Prop where
  reads : ∀ header hash, tree.Extends header → tree.Known hash →
    outcome (read header (tree.state hash)) = held hash
  updated : ∀ hash block (n : ℕ), tree.header hash = some block → tree.Known block.parentHash →
    block.number = some (n : ℤ) → held hash ≠ held block.parentHash →
    beNat (al.getState (tree.state hash) addressListContractAddr slot).toList = n

end BlockTree

inductive QueryKind where
  | getBlacklist | getEventCheckRules
  deriving DecidableEq

/-- A query for a header, and the entries that are lost before each lookup. -/
structure Query where
  kind : QueryKind
  header : Header
  lost : ℕ → Hash → Bool

structure Caches where
  blacklists : Cache Hash Blacklist
  eventCheckRules : Cache Hash Rules

def Caches.empty : Caches := ⟨fun _ => none, fun _ => none⟩

inductive Answer where
  | blacklist (r : Except SysError Blacklist)
  | rules (r : Except SysError Rules)

section

variable (c : Posa ω) (al : AddressList ω) (state : Hash → World ω)

/-- A query, on the state of the header's parent. -/
def ask (q : Query) (caches : Caches) : Answer × Caches :=
  match q.kind with
  | .getBlacklist =>
    let r := getBlacklist c al q.header q.lost (state q.header.parentHash, caches.blacklists)
    (.blacklist (outcome r), { caches with blacklists := (leaves r).2 })
  | .getEventCheckRules =>
    let r := getEventCheckRules c al q.header q.lost
      (state q.header.parentHash, caches.eventCheckRules)
    (.rules (outcome r), { caches with eventCheckRules := (leaves r).2 })

def askAll : List Query → Caches → List Answer
  | [], _ => []
  | q :: qs, caches =>
    let r := ask c al state q caches
    r.1 :: askAll qs r.2

def direct (q : Query) : Answer :=
  match q.kind with
  | .getBlacklist => .blacklist (outcome (readBlacklist c al q.header (state q.header.parentHash)))
  | .getEventCheckRules => .rules (outcome (readRules c al q.header (state q.header.parentHash)))

end

section

variable {c : Posa ω} {al : AddressList ω} {tree : BlockTree c} {header : Header} {α : Type} {number : Int}
    {caches : Caches}
variable {slot : Hash} {read : Header → Sys ω α} {held : Hash → Except SysError α}

theorem lastUpdated_eq {state} {n : ℕ}
    (h : beNat (al.getState state addressListContractAddr slot).toList = n) :
    lastUpdatedNumber al slot state + 1 = bigUint64 ((n + 1 : ℕ) : ℤ) := by
  rw [lastUpdatedNumber, h, bigUint64, Int.natAbs_natCast, UInt64.ofNat_add]
  rfl

theorem inheritedKey_held (hrec : tree.Records al slot read held) (hext : tree.Extends header) (hnumber : header.number = some number) {o : Hash}
    (h : inheritedKey c header number (lastUpdatedNumber al slot (tree.state header.parentHash)) =
      some o) (ho : tree.Known o) : held o = held header.parentHash := by
  obtain ⟨block, n, hblock, hn, hnext⟩ := hext.parent
  obtain rfl := some.inj (hnumber.symm.trans hnext)
  rw [inheritedKey] at h
  split at h
  · rename_i hlong
    obtain ⟨parent, hparent, rfl⟩ := map_eq_some_iff.mp h
    obtain rfl := tree.served _ _ _ _ hblock hparent
    by_contra hne
    have hslot := hrec.updated _ _ n hblock ho hn (Ne.symm hne)
    rw [lastUpdated_eq hslot] at hlong
    exact absurd hlong.2 (UInt64.lt_irrefl _)
  · cases h

variable {blacks : Hash → Except SysError Blacklist} {rules : Hash → Except SysError Rules}

theorem blacklistOlder_ok (hnumber : header.number = some number) (state : World ω) :
    ∃ k, blacklistOlder c al header state = .ok k ∧ ∀ o, k = some o →
      inheritedKey c header number (lastBlacklistUpdatedNumber al state) = some o := by
  rw [blacklistOlder, hnumber]
  cases c.chainConfig.sophonBlock with
  | none => exact ⟨none, rfl, fun o ho => absurd ho (some_ne_none o).symm⟩
  | some sophon =>
    dsimp only
    split
    · exact ⟨_, rfl, fun o ho => ho⟩
    · exact ⟨none, rfl, fun o ho => absurd ho (some_ne_none o).symm⟩

theorem BlockTree.Extends.known (h : tree.Extends header) : tree.Known header.parentHash := by
  obtain ⟨block, n, hblock, _⟩ := h.parent
  rw [BlockTree.Known, hblock]
  rfl

theorem getBlacklist_answers
    (hrec : tree.Records al blackLastUpdatedNumberPosition (readBlacklist c al) blacks)
    (hext : tree.Extends header) (lost : ℕ → Hash → Bool) :
    Answers tree.Known blacks header.parentHash (tree.state header.parentHash)
      (getBlacklist c al header lost) := by
  obtain ⟨block, n, _, _, hnumber⟩ := hext.parent
  obtain ⟨k, holder, hk⟩ := blacklistOlder_ok hnumber (tree.state header.parentHash)
  apply answers_cached hext.known holder ?_ (hrec.reads _ _ hext hext.known)
  intro o ho
  exact inheritedKey_held hrec hext hnumber (hk o ho)

theorem getEventCheckRules_answers
    (hrec : tree.Records al rulesLastUpdatedNumberPosition (readRules c al) rules)
    (hext : tree.Extends header) (lost : ℕ → Hash → Bool) :
    Answers tree.Known rules header.parentHash (tree.state header.parentHash)
      (getEventCheckRules c al header lost) := by
  obtain ⟨block, n, _, _, hnumber⟩ := hext.parent
  have holder : rulesOlder c al header (tree.state header.parentHash) =
      .ok (inheritedKey c header ((n + 1 : ℕ) : ℤ)
        (lastRulesUpdatedNumber al (tree.state header.parentHash))) := by
    rw [rulesOlder, hnumber]
  apply answers_cached hext.known holder ?_ (hrec.reads _ _ hext hext.known)
  intro o ho
  exact inheritedKey_held hrec hext hnumber ho

structure Caches.Sound (tree : BlockTree c) (blacks : Hash → Except SysError Blacklist)
    (rules : Hash → Except SysError Rules) (caches : Caches) : Prop where
  blacklists : Lib.InheritedCache.Sound tree.Known blacks caches.blacklists
  eventCheckRules : Lib.InheritedCache.Sound tree.Known rules caches.eventCheckRules

section

variable (hblacks : tree.Records al blackLastUpdatedNumberPosition (readBlacklist c al) blacks)
    (hrules : tree.Records al rulesLastUpdatedNumberPosition (readRules c al) rules)
include hblacks hrules

theorem ask_direct {q} (hq : tree.Extends q.header) (hs : caches.Sound tree blacks rules) :
    (ask c al tree.state q caches).1 = direct c al tree.state q ∧
      (ask c al tree.state q caches).2.Sound tree blacks rules := by
  rw [ask, direct]
  cases q.kind with
  | getBlacklist =>
    obtain ⟨hout, hnext⟩ := getBlacklist_answers hblacks hq q.lost _ hs.blacklists
    have hread := hblacks.reads _ _ hq hq.known
    exact ⟨congrArg Answer.blacklist (hout.trans hread.symm), hnext, hs.eventCheckRules⟩
  | getEventCheckRules =>
    obtain ⟨hout, hnext⟩ := getEventCheckRules_answers hrules hq q.lost _ hs.eventCheckRules
    have hread := hrules.reads _ _ hq hq.known
    exact ⟨congrArg Answer.rules (hout.trans hread.symm), hs.blacklists, hnext⟩

theorem askAll_direct {queries} (hq : ∀ q ∈ queries, tree.Extends q.header)
    (hs : caches.Sound tree blacks rules) :
    askAll c al tree.state queries caches = queries.map (direct c al tree.state) := by
  induction queries generalizing caches with
  | nil => rfl
  | cons q qs ih =>
    obtain ⟨hanswer, hnext⟩ := ask_direct hblacks hrules (hq q mem_cons_self) hs
    rw [askAll, map_cons, hanswer]
    exact congrArg _ (ih (fun q' hq' => hq q' (mem_cons_of_mem _ hq')) hnext)

end

/-- Whatever is asked on a tree, in any order and with any entries lost, the
caches answer as the contract does at the state of the header's parent. -/
theorem caches_transparent
    (hblacks : tree.Records al blackLastUpdatedNumberPosition (readBlacklist c al) blacks)
    (hrules : tree.Records al rulesLastUpdatedNumberPosition (readRules c al) rules)
    (queries : List Query) (hq : ∀ q ∈ queries, tree.Extends q.header) :
    askAll c al tree.state queries .empty = queries.map (direct c al tree.state) := by
  apply askAll_direct hblacks hrules hq
  exact ⟨Lib.InheritedCache.Sound.empty, Lib.InheritedCache.Sound.empty⟩

end

section

def sampleHeader (number : ℕ) (parent : Hash) : Header :=
  { Header.zero with number := some (number : ℤ), difficulty := some 2, parentHash := parent }

def sampleHeaders (hash : Hash) : Option Header :=
  if hash = hexToHash 1 then some (sampleHeader 10 (zeros 32))
  else if hash = hexToHash 2 then some (sampleHeader 11 (hexToHash 1))
  else if hash = hexToHash 3 then some (sampleHeader 12 (hexToHash 2))
  else none

/-- A contract that returns its nonce. -/
def sampleChain : Posa Unit :=
  { samplePosa false with
    chainConfig := { (samplePosa false).chainConfig with sophonBlock := some 3 }
    config_eq := (samplePosa false).config_eq
    getHeader := fun hash _ => sampleHeaders hash
    interpreter := { scripted false with
      call := fun _ _ addr _ gas _ w => ⟨[(w.nonce addr).toUInt8], gas, UInt64.le_refl _, none, w⟩ } }

/-- The blacklist is empty at first, and block 11 adds an address. -/
def sampleList : AddressList Unit where
  pack _ := .ok []
  unpackAddresses b := .ok (if b = [0] then [] else [addressTwo])
  unpackLen _ := .ok 0
  unpackRule _ := .ok (zeros 32, 0, 0)
  getState w addr _ := if w.nonce addr = 0 then zeros 32 else hexToHash 11

def sampleTree : BlockTree sampleChain where
  header := sampleHeaders
  state hash := { sampleState with nonce := fun _ => if hash = hexToHash 1 then 0 else 1 }
  served _ _ _ _ h h' := Option.some.inj (h'.symm.trans h)

def sampleBlacks (hash : Hash) : Blacklist :=
  let addrs := if hash = hexToHash 1 then [] else [addressTwo]
  directions addrs addrs

theorem sample_call {header} (h : sampleTree.Extends header) (method : ListMethod) (w : World Unit) :
    commonCallContract sampleChain sampleList header method w =
      .ok [(w.nonce addressListContractAddr).toUInt8] w := by
  obtain ⟨block, n, _, _, hnumber⟩ := h.parent
  obtain ⟨d, hd⟩ := isSome_iff_exists.mp h.difficulty
  simp only [commonCallContract, Posa.executeMsg, Posa.newEVMBlockContext, hnumber, hd]
  rfl

theorem sample_blacks : sampleTree.Records sampleList blackLastUpdatedNumberPosition
    (readBlacklist sampleChain sampleList) fun hash => .ok (sampleBlacks hash) where
  reads header hash h _ := by
    have hrun : readBlacklist sampleChain sampleList header (sampleTree.state hash) =
        .ok (sampleBlacks hash) (sampleTree.state hash) := by
      refine bind_ok.mpr ⟨_, _, bind_ok.mpr ⟨_, _, sample_call h _ _, rfl⟩,
        bind_ok.mpr ⟨_, _, bind_ok.mpr ⟨_, _, sample_call h _ _, rfl⟩, ?_⟩⟩
      by_cases hhash : hash = hexToHash 1
      · subst hhash
        rfl
      · simp [sampleTree, sampleBlacks, hhash]
        rfl
    exact congrArg outcome hrun
  updated hash block n hblock hknown hnumber hne := by
    have hapart : hexToHash 2 ≠ hexToHash 1 ∧ hexToHash 3 ≠ hexToHash 1 := by decide
    change sampleHeaders hash = _ at hblock
    rw [sampleHeaders] at hblock
    split_ifs at hblock with h₁ h₂ h₃
    · cases hblock
      change (sampleHeaders (zeros 32)).isSome = true at hknown
      exact absurd hknown (by decide +kernel)
    · cases hblock
      cases hnumber
      subst h₂
      decide +kernel
    · cases hblock
      subst h₃
      have hsame : sampleBlacks (hexToHash 3) = sampleBlacks (hexToHash 2) := by
        rw [sampleBlacks, sampleBlacks, if_neg hapart.1, if_neg hapart.2]
      exact absurd (congrArg Except.ok hsame) hne

theorem sample_rules : sampleTree.Records sampleList rulesLastUpdatedNumberPosition
    (readRules sampleChain sampleList) fun _ => .ok fun _ => none where
  reads header hash h _ := by
    have hrun : readRules sampleChain sampleList header (sampleTree.state hash) =
        .ok (fun _ => none) (sampleTree.state hash) :=
      bind_ok.mpr ⟨_, _, bind_ok.mpr ⟨_, _, sample_call h _ _, rfl⟩, rfl⟩
    exact congrArg outcome hrun
  updated _ _ _ _ _ _ hne := absurd rfl hne

def sampleQueries : List Query :=
  [⟨.getBlacklist, sampleHeader 11 (hexToHash 1), fun _ _ => false⟩,
    ⟨.getBlacklist, sampleHeader 12 (hexToHash 2), fun _ _ => false⟩,
    ⟨.getBlacklist, sampleHeader 13 (hexToHash 3), fun _ _ => false⟩]

theorem sampleQueries_extend : ∀ q ∈ sampleQueries, sampleTree.Extends q.header := by
  have hheaders : sampleHeaders (hexToHash 1) = some (sampleHeader 10 (zeros 32)) ∧
      sampleHeaders (hexToHash 2) = some (sampleHeader 11 (hexToHash 1)) ∧
      sampleHeaders (hexToHash 3) = some (sampleHeader 12 (hexToHash 2)) := by
    decide +kernel
  intro q hq
  simp only [sampleQueries, mem_cons, not_mem_nil, or_false] at hq
  obtain rfl | rfl | rfl := hq
  · exact ⟨⟨_, 10, hheaders.1, rfl, rfl⟩, rfl⟩
  · exact ⟨⟨_, 11, hheaders.2.1, rfl, rfl⟩, rfl⟩
  · exact ⟨⟨_, 12, hheaders.2.2, rfl, rfl⟩, rfl⟩

/-- The second answer is read anew, as the list changed, and the third is inherited from it. -/
theorem caches_transparent_sample :
    askAll sampleChain sampleList sampleTree.state sampleQueries .empty =
      sampleQueries.map (direct sampleChain sampleList sampleTree.state) :=
  caches_transparent sample_blacks sample_rules sampleQueries sampleQueries_extend

end

end Geth.Congress.ListCaches
