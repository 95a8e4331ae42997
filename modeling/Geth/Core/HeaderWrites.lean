import Geth.Lib.Ancestry
import Geth.Types.Block

namespace Geth.Core.HeaderWrites

open Lib.BigEndian Lib.Ancestry Common.Basic Types.Block List Option AList Bool List.IsChain

def numberU64 (h : Header) : ℕ := (bigUint64 (h.number.getD 0)).toNat

/-- `Number.Uint64() - 1`, which wraps around. -/
def parentNumber (h : Header) : ℕ := (bigUint64 (h.number.getD 0) - 1).toNat

def difficulty (h : Header) : ℤ := h.difficulty.getD 0

inductive WriteStatus where
  | nonStatTy
  | canonStatTy
  | sideStatTy
  deriving DecidableEq

inductive HeaderError where
  | unknownAncestor
  | aborted
  | panic (p : Panic)
  | noReturn
  deriving DecidableEq

/-- The header chain with its part of the database. The caches only repeat what
is in the database. -/
structure HeaderChain where
  headers : Hash → ℕ → Option Header
  tds : Hash → ℕ → Option ℤ
  canonical : AList fun _ : ℕ => Hash
  headHeaderHash : Hash
  currentHeader : Header
  currentHeaderHash : Hash
  procInterrupt : Bool

def newHeaderChain (C : Crypto) (genesis : Header) : HeaderChain where
  headers h n := if h = genesis.hash C ∧ n = 0 then some genesis else none
  tds h n := if h = genesis.hash C ∧ n = 0 then some (difficulty genesis) else none
  canonical := (∅ : AList fun _ : ℕ => Hash).insert 0 (genesis.hash C)
  headHeaderHash := genesis.hash C
  currentHeader := genesis
  currentHeaderHash := genesis.hash C
  procInterrupt := false

def readCanonicalHash (canonical : AList fun _ : ℕ => Hash) (n : ℕ) : Hash :=
  (canonical.lookup n).getD (zeros 32)

def write {α : Type} (m : Hash → ℕ → Option α) (hash : Hash) (number : ℕ) (x : α) : Hash → ℕ → Option α :=
  fun h n => if h = hash ∧ n = number then some x else m h n

/-- What the loop over the headers of a batch has gathered. -/
structure Import where
  headers : Hash → ℕ → Option Header
  tds : Hash → ℕ → Option ℤ
  newTD : ℤ
  inserted : List (ℕ × Hash)
  firstInserted : Option ℕ
  parentKnown : Bool
  lastHeader : Header
  lastHash : Hash
  lastNumber : ℕ

def startImport (s : HeaderChain) (first : Header) (ptd : ℤ) : Import where
  headers := s.headers
  tds := s.tds
  newTD := ptd
  inserted := []
  firstInserted := none
  parentKnown := true
  lastHeader := first
  lastHash := first.parentHash
  lastNumber := parentNumber first

def hashIn (C : Crypto) (header : Header) : List Header → Hash
  | next :: _ => next.parentHash
  | [] => header.hash C

def importHeader (C : Crypto) (s : HeaderChain) (i : ℕ) (header : Header) (rest : List Header)
    (b : Import) : Import :=
  let hash := hashIn C header rest
  let number := numberU64 header
  let newTD := b.newTD + difficulty header
  let alreadyKnown := b.parentKnown && (s.headers hash number).isSome
  let b := { b with
    newTD, parentKnown := alreadyKnown, lastHeader := header, lastHash := hash, lastNumber := number }
  if alreadyKnown then b
  else
    { b with
      tds := write b.tds hash number newTD
      headers := write b.headers (header.hash C) number header
      inserted := b.inserted ++ [(number, hash)]
      firstInserted := b.firstInserted.or (some i) }

def importHeaders (C : Crypto) (s : HeaderChain) : ℕ → List Header → Import → Import
  | _, [], b => b
  | i, header :: rest, b => importHeaders C s (i + 1) rest (importHeader C s i header rest b)

/-- Ties go to the shorter chain, and to either at the same height. -/
def reorgs (newTD localTD : ℤ) (lastNumber head : ℕ) (coin : Bool) : Bool :=
  if localTD < newTD then true
  else if newTD = localTD then
    if lastNumber < head then true else lastNumber == head && coin
  else false

/-- The assignments that are overwritten going backwards, latest first. -/
def staleAncestors (s : HeaderChain) : ℕ → Hash → ℕ → Option Header → Except HeaderError (List (ℕ × Hash))
  | 0, _, _, _ => .error .noReturn
  | fuel + 1, headHash, headNumber, headHeader =>
    if readCanonicalHash s.canonical headNumber = headHash then .ok []
    else
      match headHeader with
      | none => .error (.panic .nilPointer)
      | some header => do
        let rest ← staleAncestors s fuel header.parentHash (parentNumber header)
          (s.headers header.parentHash (parentNumber header))
        return (headNumber, headHash) :: rest

structure HeaderWriteResult where
  status : WriteStatus
  ignored : ℕ
  imported : ℕ
  lastHash : Hash
  lastHeader : Option Header

def writeMarkers (s : HeaderChain) (l : List (ℕ × Hash)) : HeaderChain :=
  l.foldl (fun s e => { s with canonical := s.canonical.insert e.1 e.2, headHeaderHash := e.2 }) s

/-- What is done to the old chain unless the new headers extend it. -/
def rewind (C : Crypto) (s : HeaderChain) (first : Header) (headers : List Header) (b : Import) :
    Except HeaderError HeaderChain := do
  let some above := occupied (fun n => readCanonicalHash s.canonical n != zeros 32)
    (s.canonical.entries.length + 1) (b.lastNumber + 1) | .error .noReturn
  let stale ← staleAncestors s (parentNumber first + 1) first.parentHash (parentNumber first)
    (s.headers first.parentHash (parentNumber first))
  let canonical := above.foldl (fun m n => m.erase n) s.canonical
  let canonical := stale.foldl (fun m e => m.insert e.1 e.2) canonical
  let known := headers.take (b.firstInserted.getD 0)
  return writeMarkers { s with canonical } (known.map fun h => (numberU64 h, h.hash C))

def adopt (C : Crypto) (s : HeaderChain) (first : Header) (headers : List Header) (b : Import) :
    Except HeaderError HeaderChain := do
  let s ← if first.parentHash = s.currentHeaderHash then .ok s else rewind C s first headers b
  let s := writeMarkers s b.inserted
  return { s with currentHeaderHash := b.lastHash, currentHeader := copyHeader b.lastHeader }

/-- The coin decides between two chains of the same height and difficulty. -/
def writeHeaders (C : Crypto) (s : HeaderChain) (coin : Bool) (headers : List Header) :
    Except HeaderError (HeaderWriteResult × HeaderChain) :=
  match headers with
  | [] => .ok (⟨.nonStatTy, 0, 0, zeros 32, none⟩, s)
  | first :: _ => do
    let some ptd := s.tds first.parentHash (parentNumber first) | .error .unknownAncestor
    let b := importHeaders C s 0 headers (startImport s first ptd)
    if s.procInterrupt then .error .aborted
    else do
      let s := { s with headers := b.headers, tds := b.tds }
      let head := numberU64 s.currentHeader
      let some localTD := s.tds s.currentHeaderHash head | .error (.panic .nilPointer)
      let ignored := headers.length - b.inserted.length
      let imported := b.inserted.length
      if reorgs b.newTD localTD b.lastNumber head coin then do
        let s ← adopt C s first headers b
        let status := if b.inserted = [] then .nonStatTy else .canonStatTy
        return (⟨status, ignored, imported, b.lastHash, some b.lastHeader⟩, s)
      else
        let status := if b.inserted = [] then .nonStatTy else .sideStatTy
        return (⟨status, ignored, imported, b.lastHash, some b.lastHeader⟩, s)

def links (C : Crypto) : Links Header Hash := ⟨Header.hash C, Header.parentHash, numberU64⟩

/-- A validated header that is not the first of its chain. -/
structure Complete (h : Header) : Prop where
  number : h.number ≠ none
  difficulty : h.difficulty ≠ none
  pos : 0 < numberU64 h

def Follows (C : Crypto) (a b : Header) : Prop :=
  b.parentHash = a.hash C ∧ numberU64 b = numberU64 a + 1

structure Contiguous (C : Crypto) (headers : List Header) : Prop where
  linked : headers.IsChain (Follows C)
  complete : ∀ h ∈ headers, Complete h

/-- The headers in play have hashes of their own, and none has the zero hash. -/
structure Ideal (C : Crypto) (S : Set Header) : Prop where
  injOn : S.InjOn (Header.hash C)
  ne_zero : ∀ h ∈ S, h.hash C ≠ zeros 32

/-- Whatever is stored leads back to the genesis header. -/
structure Sound (C : Crypto) (S : Set Header) (g : Header) (s : HeaderChain) : Prop where
  stored : ∀ {h n b}, s.headers h n = some b → b ∈ S ∧ b.hash C = h ∧ numberU64 b = n ∧
    ∃ cs, Chain (links C) s.headers g cs ∧ cs.getLast? = some b
  tds : ∀ h n, (s.tds h n).isSome = (s.headers h n).isSome

/-- The canonical index describes the chain `cs` of the current header. -/
structure IndexedBy (C : Crypto) (g : Header) (s : HeaderChain) (cs : List Header) : Prop where
  chain : Chain (links C) s.headers g cs
  last : cs.getLast? = some s.currentHeader
  describes : Describes s.canonical (cs.map (Header.hash C))
  hash : s.currentHeaderHash = s.currentHeader.hash C
  marker : s.headHeaderHash = s.currentHeaderHash

def Indexed (C : Crypto) (g : Header) (s : HeaderChain) : Prop := ∃ cs, IndexedBy C g s cs

section

variable {C : Crypto} {S : Set Header} {g : Header} {s : HeaderChain} {h x : Header}
    {rest hs known new : List Header} {m m' : Hash → ℕ → Option Header} {b : Import} {ptd : ℤ}

theorem parentNumber_of_pos (hpos : 0 < numberU64 h) : parentNumber h = numberU64 h - 1 := by
  rw [numberU64] at hpos ⊢
  rw [parentNumber, UInt64.toNat_sub_of_le]
  · rfl
  · exact UInt64.le_iff_toNat_le.mpr hpos

theorem copyHeader_of_complete (hh : Complete h) : copyHeader h = h := by
  obtain ⟨n, hn⟩ := ne_none_iff_exists'.mp hh.number
  obtain ⟨d, hd⟩ := ne_none_iff_exists'.mp hh.difficulty
  rw [copyHeader, hn, hd, getD_some, getD_some, ← hn, ← hd]

theorem hashIn_eq (h : (x :: rest).IsChain (Follows C)) : hashIn C x rest = x.hash C := by
  cases rest with
  | nil => rfl
  | cons y rest => exact (isChain_cons_cons.mp h).1.1

/-- The entries of a store after some headers were written to it. -/
structure Grows (C : Crypto) (hs : List Header) (m m' : Hash → ℕ → Option Header) : Prop where
  keep : ∀ {h n b}, m h n = some b → m' h n = some b
  fresh : ∀ {h n b}, m' h n = some b → m h n = some b ∨ b ∈ hs ∧ b.hash C = h ∧ numberU64 b = n
  stored : ∀ b ∈ hs, m' (b.hash C) (numberU64 b) = some b

/-- What the loop has gathered after the headers `known` and `new`, of which
only the first are in the database. -/
structure Gathered (C : Crypto) (s : HeaderChain) (ptd : ℤ) (known new : List Header) (b : Import) : Prop where
  isKnown : ∀ x ∈ known, (s.headers (x.hash C) (numberU64 x)).isSome
  isNew : ∀ x, new.head? = some x → s.headers (x.hash C) (numberU64 x) = none
  parentKnown : b.parentKnown = new.isEmpty
  newTD : b.newTD = ptd + ((known ++ new).map difficulty).sum
  inserted : b.inserted = new.map fun x => (numberU64 x, x.hash C)
  firstInserted : b.firstInserted = if new.isEmpty then none else some known.length
  last : ∀ x, (known ++ new).getLast? = some x →
    b.lastHeader = x ∧ b.lastHash = x.hash C ∧ b.lastNumber = numberU64 x
  headers : Grows C (known ++ new) s.headers b.headers
  tds : ∀ h n, (b.tds h n).isSome = (b.headers h n).isSome
  oldTds : ∀ h n, (∀ x ∈ new, x.hash C ≠ h) → b.tds h n = s.tds h n

theorem write_self {α : Type} (m : Hash → ℕ → Option α) (hash : Hash) (number : ℕ) (x : α) :
    write m hash number x hash number = some x := if_pos ⟨rfl, rfl⟩

theorem Grows.snoc (hS : Ideal C S) {m''}
    (h : Grows C hs m m') (hm : ∀ {h n b}, m' h n = some b → b ∈ S ∧ b.hash C = h) (hx : x ∈ S)
    (h' : m'' = write m' (x.hash C) (numberU64 x) x ∨ m'' = m' ∧ (m' (x.hash C) (numberU64 x)).isSome) :
    Grows C (hs ++ [x]) m m'' := by
  have hsame {h : Hash} {n : ℕ} {b : Header} (hb : m' h n = some b) (hh : h = x.hash C) : b = x :=
    hS.injOn (hm hb).1 hx ((hm hb).2.trans hh)
  obtain rfl | ⟨rfl, hthere⟩ := h'
  · have hkeep {h : Hash} {n : ℕ} {b : Header} (hb : m' h n = some b) :
        write m' (x.hash C) (numberU64 x) x h n = some b := by
      rw [write]
      split
      · next heq => rw [hsame hb heq.1]
      · exact hb
    refine ⟨fun hb => hkeep (h.keep hb), fun {h' n b} hb => ?_, fun b hb => ?_⟩
    · rw [write] at hb
      split at hb
      · next heq =>
        cases hb
        exact .inr ⟨mem_append_right _ (mem_singleton_self x), heq.1.symm, heq.2.symm⟩
      · exact (h.fresh hb).imp id fun h => ⟨mem_append_left _ h.1, h.2⟩
    obtain hb | hb := mem_append.mp hb
    · exact hkeep (h.stored b hb)
    rw [mem_singleton.mp hb]
    exact write_self _ _ _ _
  refine ⟨h.keep, fun hb => (h.fresh hb).imp id fun h => ⟨mem_append_left _ h.1, h.2⟩, fun b hb => ?_⟩
  obtain hb | hb := mem_append.mp hb
  · exact h.stored b hb
  rw [mem_singleton.mp hb]
  obtain ⟨y, hy⟩ := isSome_iff_exists.mp hthere
  rw [hy, hsame hy rfl]

theorem Grows.stored_hash (h : Grows C hs m m')
    (hm : ∀ {h n b}, m h n = some b → b ∈ S ∧ b.hash C = h) (hs' : ∀ x ∈ hs, x ∈ S) {h' : Hash} {n : ℕ}
    {b} (hb : m' h' n = some b) : b ∈ S ∧ b.hash C = h' := by
  obtain hb | ⟨hb, hhash, _⟩ := h.fresh hb
  · exact hm hb
  · exact ⟨hs' b hb, hhash⟩

theorem gathered_step (hS : Ideal C S) (hsound : Sound C S g s) (h : Gathered C s ptd known new b)
    (hchain : (x :: rest).IsChain (Follows C)) (hin : ∀ y ∈ known ++ new ++ [x], y ∈ S) :
    ∃ known' new', known ++ new ++ [x] = known' ++ new' ∧
      Gathered C s ptd known' new' (importHeader C s (known ++ new).length x rest b) := by
  have hstored {h' : Hash} {n : ℕ} {y : Header} (hy : b.headers h' n = some y) : y ∈ S ∧ y.hash C = h' :=
    h.headers.stored_hash (fun hb => ⟨(hsound.stored hb).1, (hsound.stored hb).2.1⟩)
      (fun y hy => hin y (mem_append_left _ hy)) hy
  have hx : x ∈ S := hin x (mem_append_right _ (mem_singleton_self x))
  have hsum : b.newTD + difficulty x = ptd + ((known ++ new ++ [x]).map difficulty).sum := by
    simp only [h.newTD, map_append, sum_append, map_singleton, sum_singleton, add_assoc]
  rw [importHeader, hashIn_eq hchain]
  by_cases hknown : (b.parentKnown && (s.headers (x.hash C) (numberU64 x)).isSome) = true
  · -- the header is known and so were all before it
    obtain ⟨hparent, hsome⟩ := and_eq_true_iff.mp hknown
    have hnew : new = [] := by
      rw [h.parentKnown, List.isEmpty_iff] at hparent
      exact hparent
    subst hnew
    rw [append_nil] at *
    refine ⟨known ++ [x], [], by rw [append_nil], ?_⟩
    simp only [hknown, if_true]
    have hthere : (b.headers (x.hash C) (numberU64 x)).isSome := by
      obtain ⟨y, hy⟩ := isSome_iff_exists.mp hsome
      rw [h.headers.keep hy]
      rfl
    refine ⟨fun y hy => ?_, h.isNew, rfl, ?_, h.inserted, h.firstInserted, fun y hy => ?_, ?_, h.tds, h.oldTds⟩
    · obtain hy | hy := mem_append.mp hy
      · exact h.isKnown y hy
      rw [mem_singleton.mp hy]
      exact hsome
    · rw [append_nil]
      exact hsum
    · rw [append_nil, getLast?_concat] at hy
      cases hy
      exact ⟨rfl, rfl, rfl⟩
    rw [append_nil]
    have hgrows := h.headers
    rw [append_nil] at hgrows
    exact hgrows.snoc hS hstored hx (.inr ⟨rfl, hthere⟩)
  refine ⟨known, new ++ [x], by rw [append_assoc], ?_⟩
  simp only [hknown, false_eq_true, if_false]
  have hempty : (new ++ [x]).isEmpty = false := by simp
  refine ⟨h.isKnown, fun y hy => ?_, ?_, ?_, ?_, ?_, fun y hy => ?_, ?_, fun h' n => ?_, fun h' n hne => ?_⟩
  · cases hnew : new with
    | nil =>
      rw [hnew] at hy
      cases hy
      rw [h.parentKnown, hnew, isEmpty_nil, Bool.true_and, not_eq_true,
        isSome_eq_false_iff, isNone_iff_eq_none] at hknown
      exact hknown
    | cons z new' =>
      rw [hnew] at hy
      exact h.isNew y (by rw [hnew]; exact hy)
  · rw [hempty]
  · rw [← append_assoc]
    exact hsum
  · rw [h.inserted, map_append, map_singleton]
  · rw [hempty, h.firstInserted]
    cases new with
    | nil => simp
    | cons z new' => rfl
  · rw [← append_assoc, getLast?_concat] at hy
    cases hy
    exact ⟨rfl, rfl, rfl⟩
  · rw [← append_assoc]
    exact h.headers.snoc hS hstored hx (.inl rfl)
  · dsimp only
    rw [write, write]
    split
    · rfl
    · exact h.tds h' n
  rw [← h.oldTds h' n fun y hy => hne y (mem_append_left _ hy)]
  exact if_neg fun heq => hne x (mem_append_right _ (mem_singleton_self x)) heq.1.symm

theorem gathered_run (hS : Ideal C S) (hsound : Sound C S g s) (rest : List Header) (h : Gathered C s ptd known new b)
    (hchain : rest.IsChain (Follows C)) (hin : ∀ y ∈ known ++ new ++ rest, y ∈ S) :
    ∃ known' new', known ++ new ++ rest = known' ++ new' ∧
      Gathered C s ptd known' new' (importHeaders C s (known ++ new).length rest b) := by
  induction rest generalizing known new b with
  | nil => exact ⟨known, new, append_nil _, h⟩
  | cons x rest ih =>
    rw [importHeaders]
    have hsplit : known ++ new ++ x :: rest = known ++ new ++ [x] ++ rest := by
      rw [append_assoc _ [x], singleton_append]
    obtain ⟨known₁, new₁, heq, h₁⟩ := gathered_step hS hsound h hchain
      (fun y hy => hin y (by rw [hsplit]; exact mem_append_left _ hy))
    have hlength : (known ++ new).length + 1 = (known₁ ++ new₁).length := by
      rw [← heq]
      simp only [length_append, length_singleton]
    rw [hsplit, heq] at hin ⊢
    rw [hlength]
    exact ih h₁ (tail hchain) hin

end

section

variable {C : Crypto} {S : Set Header} {g : Header} {s : HeaderChain} {cs ca : List Header}
    {a first : Header} {headers known new : List Header} {b : Import}

theorem writeMarkers_spec {l : List Header} (hl : l.IsChain (Follows C)) {start : ℕ}
    (hstart : ∀ x, l.head? = some x → numberU64 x = start) (s : HeaderChain) :
    writeMarkers s (l.map fun x => (numberU64 x, x.hash C)) =
      { s with
        canonical := put s.canonical start (l.map (Header.hash C))
        headHeaderHash := (l.getLast?.map (Header.hash C)).getD s.headHeaderHash } := by
  induction l generalizing start s with
  | nil => rfl
  | cons x l ih =>
    have hx : numberU64 x = start := hstart x rfl
    have hnext (y : Header) (hy : l.head? = some y) : numberU64 y = start + 1 := by
      cases l with
      | nil => cases hy
      | cons z l =>
        cases hy
        rw [(isChain_cons_cons.mp hl).1.2, hx]
    rw [map_cons, writeMarkers, foldl_cons, ← writeMarkers, ih hl.tail hnext, hx]
    cases l with
    | nil => rfl
    | cons z l =>
      rw [getLast?_cons_cons]
      obtain ⟨y, hy⟩ := isSome_iff_exists.mp (getLast?_isSome.mpr (cons_ne_nil z l))
      rw [hy]
      rfl

theorem IndexedBy.readCanonicalHash (hS : Ideal C S) (hsound : Sound C S g s) (h : IndexedBy C g s cs) (n : ℕ) :
    (readCanonicalHash s.canonical n ≠ zeros 32 ↔ n < cs.length) ∧
      ∀ x, cs[n]? = some x → readCanonicalHash s.canonical n = x.hash C := by
  have hread {x : Header} (hx : cs[n]? = some x) : HeaderWrites.readCanonicalHash s.canonical n = x.hash C := by
    rw [HeaderWrites.readCanonicalHash, h.describes n, getElem?_map, hx]
    rfl
  refine ⟨⟨fun hne => ?_, fun hlt => ?_⟩, fun x hx => hread hx⟩
  · by_contra hlt
    apply hne
    rw [HeaderWrites.readCanonicalHash, h.describes n, getElem?_map, getElem?_eq_none (by omega)]
    rfl
  have hx := getElem?_eq_getElem hlt
  rw [hread hx]
  exact hS.ne_zero _ (hsound.stored (h.chain.stored hx).1).1

section

variable (hS : Ideal C S) (hsound : Sound C S g s) (h : IndexedBy C g s cs)
    (hca : Chain (links C) s.headers g ca)
include hS hsound h hca

/-- Going backwards, the assignments are overwritten down to the height where
the two chains meet. -/
theorem staleAncestors_spec {n fuel : ℕ} (hfuel : n < fuel) (ha : ca[n]? = some a) :
    ∃ stale, staleAncestors s fuel (a.hash C) n (some a) = .ok stale ∧
      ∀ (m : AList fun _ : ℕ => Hash) (i : ℕ), (∀ j ≤ n, m.lookup j = s.canonical.lookup j) →
        (stale.foldl (fun m e => m.insert e.1 e.2) m).lookup i =
          if i ≤ n then (ca.map (Header.hash C))[i]? else m.lookup i := by
  induction n generalizing fuel a with
  | zero =>
    obtain ⟨fuel, rfl⟩ : ∃ f, fuel = f + 1 := ⟨fuel - 1, by omega⟩
    have hga : g = a := some.inj (hca.root.symm.trans ha)
    have hread := (h.readCanonicalHash hS hsound 0).2 g h.chain.root
    refine ⟨[], by rw [staleAncestors, if_pos (by rw [hread, hga])], fun m i hm => ?_⟩
    rw [foldl_nil]
    split
    · next hi =>
      obtain rfl : i = 0 := by omega
      rw [hm 0 (le_refl 0), h.describes 0, getElem?_map, getElem?_map, h.chain.root, hca.root]
    · rfl
  | succ n ih =>
    obtain ⟨fuel, rfl⟩ : ∃ f, fuel = f + 1 := ⟨fuel - 1, by omega⟩
    rw [staleAncestors]
    by_cases heq : HeaderWrites.readCanonicalHash s.canonical (n + 1) = a.hash C
    · -- the chains meet here
      have hin := (hsound.stored (hca.stored ha).1).1
      have hlt : n + 1 < cs.length := by
        refine ((h.readCanonicalHash hS hsound (n + 1)).1).mp ?_
        rw [heq]
        exact hS.ne_zero a hin
      have hx := getElem?_eq_getElem hlt
      have hagree := h.chain.agree hca hx ha (((h.readCanonicalHash hS hsound (n + 1)).2 _ hx).symm.trans heq)
      refine ⟨[], if_pos heq, fun m i hm => ?_⟩
      rw [foldl_nil]
      split
      · next hi =>
        have hi' := congrArg (fun l => l[i]?) hagree
        simp only [getElem?_take, Nat.lt_succ_of_le hi, if_true] at hi'
        rw [hm i hi, h.describes i, getElem?_map, getElem?_map, hi']
      · rfl
    obtain ⟨a', ha', hparent, hget⟩ := hca.step_back ha
    have hnumber : numberU64 a = n + 1 := (hca.stored ha).2
    have hprev : parentNumber a = n := by rw [parentNumber_of_pos (by omega), hnumber]; rfl
    obtain ⟨stale, hstale, hlookup⟩ := ih (show n < fuel by omega) ha'
    have hhash : a.parentHash = a'.hash C := hparent
    have hget' : s.headers a.parentHash n = some a' := hget
    refine ⟨(n + 1, a.hash C) :: stale, ?_, fun m i hm => ?_⟩
    · rw [if_neg heq, hprev, hget', hhash, hstale]
      rfl
    rw [foldl_cons, hlookup]
    · by_cases hi : i ≤ n
      · rw [if_pos hi, if_pos (by omega)]
      rw [if_neg hi]
      by_cases hi' : i = n + 1
      · subst hi'
        rw [lookup_insert, if_pos (le_refl _), getElem?_map, ha]
        rfl
      · rw [lookup_insert_ne hi', if_neg (by omega)]
    intro j hj
    rw [lookup_insert_ne (by omega)]
    exact hm j (by omega)

omit hS hsound h hca in
theorem sound_import {hs} (hsound : Sound C S g s) {m}
    {t} (hm : Grows C hs s.headers m) (ht : ∀ h n, (t h n).isSome = (m h n).isSome)
    (hin : ∀ x ∈ hs, x ∈ S) (hca : Chain (links C) s.headers g ca) (ha : ca.getLast? = some a)
    (hs' : (a :: hs).IsChain (Follows C)) : Sound C S g { s with headers := m, tds := t } ∧ Chain (links C) m g (ca ++ hs) := by
  have hgrown : Chain (links C) m g ca := hca.mono fun _ _ _ hb => hm.keep hb
  have hall := hgrown.append ha hs' hm.stored
  refine ⟨⟨fun {h n b} hb => ?_, ht⟩, hall⟩
  obtain hold | ⟨hmem, hhash, hnumber⟩ := hm.fresh hb
  · obtain ⟨hbS, hhash, hnumber, c', hc', hlast⟩ := hsound.stored hold
    exact ⟨hbS, hhash, hnumber, c', hc'.mono fun _ _ _ hb => hm.keep hb, hlast⟩
  obtain ⟨i, hi⟩ := getElem?_of_mem (mem_append_right ca hmem)
  exact ⟨hin b hmem, hhash, hnumber, _, (hall.upto hi).1, (hall.upto hi).2⟩

/-- What the rewinding leaves: the chain of the batch's parent below the batch,
what was there at the heights of the batch, and nothing above. -/
theorem rewind_spec (ha : ca.getLast? = some a)
    (hfirst : Follows C a first) (hheaders : headers = known ++ new)
    (hchain : headers.IsChain (Follows C)) (hhead : headers.head? = some first)
    (hfi : b.firstInserted = if new.isEmpty then none else some known.length)
    (hlast : b.lastNumber + 1 = ca.length + headers.length) :
    ∃ s', rewind C s first headers b = .ok s' ∧
      s'.headers = s.headers ∧ s'.tds = s.tds ∧ s'.procInterrupt = s.procInterrupt ∧
      (new = [] → s'.headHeaderHash = s.headHeaderHash) ∧ ∀ i, s'.canonical.lookup i =
        if i < ca.length then (ca.map (Header.hash C))[i]? else if b.lastNumber < i then none
        else if new ≠ [] ∧ i < ca.length + known.length then (known.map (Header.hash C))[i - ca.length]?
        else s.canonical.lookup i := by
  have hpos := hca.length_pos
  have hnumber : numberU64 first = ca.length := by rw [hfirst.2]; exact (hca.number_last ha).1
  have hprev : parentNumber first = ca.length - 1 := by rw [parentNumber_of_pos (by omega), hnumber]
  have ha' : ca[ca.length - 1]? = some a := by rw [← getLast?_eq_getElem?, ha]
  have hget : s.headers first.parentHash (ca.length - 1) = some a := by
    rw [hfirst.1]
    exact (hca.stored ha').1
  have hpresent (n : ℕ) : (HeaderWrites.readCanonicalHash s.canonical n != zeros 32) = true ↔
      n < (cs.map (Header.hash C)).length := by
    rw [bne_iff_ne, length_map]
    exact (h.readCanonicalHash hS hsound n).1
  obtain ⟨above, habove, hcut⟩ := h.describes.cut hpresent (b.lastNumber + 1)
  obtain ⟨stale, hstale, hlookup⟩ := staleAncestors_spec hS hsound h hca
    (show ca.length - 1 < ca.length by omega) ha'
  have herase (i : ℕ) : (above.foldl (fun m n => m.erase n) s.canonical).lookup i =
      if b.lastNumber < i then none else s.canonical.lookup i := by
    rw [hcut i, getElem?_take, ← h.describes i]
    by_cases hi : b.lastNumber < i
    · rw [if_pos hi, if_neg (by omega)]
    · rw [if_neg hi, if_pos (by omega)]
  have hbelow (i : ℕ) (hi : i ≤ ca.length - 1) :
      (above.foldl (fun m n => m.erase n) s.canonical).lookup i = s.canonical.lookup i := by
    have hne : 0 < headers.length := by
      cases headers with
      | nil => cases hhead
      | cons => exact Nat.zero_lt_succ _
    rw [herase, if_neg (by omega)]
  have hlookup' (i : ℕ) := hlookup _ i hbelow
  rw [rewind, habove, hprev, hget, Nat.sub_add_cancel hpos, hfirst.1, hstale]
  refine ⟨_, rfl, ?_⟩
  have htake : headers.take (b.firstInserted.getD 0) = if new = [] then [] else known := by
    rw [hfi, hheaders]
    cases new with
    | nil => rfl
    | cons y new => exact take_left
  rw [htake]
  have hmeet (i : ℕ) (hi : ¬i < ca.length) : ¬i ≤ ca.length - 1 := by omega
  by_cases hnew : new = []
  · rw [if_pos hnew]
    refine ⟨rfl, rfl, rfl, fun _ => rfl, fun i => ?_⟩
    refine (hlookup' i).trans ?_
    by_cases hi : i < ca.length
    · rw [if_pos (by omega), if_pos hi]
    have hno : ¬(new ≠ [] ∧ i < ca.length + known.length) := fun h => h.1 hnew
    rw [if_neg (hmeet i hi), if_neg hi, herase, if_neg hno]
  rw [if_neg hnew]
  have hknown : known.IsChain (Follows C) := by
    rw [hheaders] at hchain
    exact left_of_append hchain
  have hstart (x : Header) (hx : known.head? = some x) : numberU64 x = ca.length := by
    rw [hheaders, head?_append, hx] at hhead
    cases hhead
    exact hnumber
  rw [writeMarkers_spec hknown hstart]
  refine ⟨rfl, rfl, rfl, fun h => absurd h hnew, fun i => ?_⟩
  rw [lookup_put, length_map, hlookup' i]
  have hklen : known.length < headers.length := by
    rw [hheaders, length_append]
    have := length_pos_of_ne_nil hnew
    omega
  by_cases hi : i < ca.length
  · rw [if_neg (by omega), if_pos (by omega), if_pos hi]
  rw [if_neg hi, if_neg (hmeet i hi), herase]
  by_cases hk : i < ca.length + known.length
  · rw [if_pos ⟨by omega, hk⟩, if_neg (by omega), if_pos ⟨hnew, hk⟩]
  have hno : ¬(new ≠ [] ∧ i < ca.length + known.length) := fun h => hk h.2
  rw [if_neg (fun h => hk h.2), if_neg hno]

/-- After the batch is adopted the index is right, unless none of its headers
is new and it does not end with the current header, or it goes on top of the
current header with a header that is known. -/
theorem adopt_spec {last : Header} (ha : ca.getLast? = some a) (hheaders : headers = known ++ new)
    (hchain : (a :: headers).IsChain (Follows C)) (hcomplete : Complete last)
    (hhead : headers.head? = some first) (hlast : headers.getLast? = some last)
    (hall : Chain (links C) s.headers g (ca ++ headers))
    (hfi : b.firstInserted = if new.isEmpty then none else some known.length)
    (hinserted : b.inserted = new.map fun x => (numberU64 x, x.hash C)) (hlh : b.lastHeader = last)
    (hlastHash : b.lastHash = last.hash C) (hln : b.lastNumber = numberU64 last) :
    ∃ s', adopt C s first headers b = .ok s' ∧ s'.headers = s.headers ∧ s'.tds = s.tds ∧
      (Indexed C g s' ↔ (new = [] → last.hash C = s.currentHeaderHash) ∧
        (first.parentHash = s.currentHeaderHash → known = [])) := by
  have hlast' : (ca ++ headers).getLast? = some last := by
    rw [getLast?_append, hlast]
    rfl
  have hnumber : numberU64 last + 1 = ca.length + headers.length := by
    rw [← length_append]
    exact (hall.number_last hlast').1
  have hfirst : Follows C a first := by
    cases headers with
    | nil => cases hhead
    | cons x rest =>
      cases hhead
      exact (isChain_cons_cons.mp hchain).1
  have hnewChain : new.IsChain (Follows C) := by
    have htail := hchain.tail
    rw [tail_cons, hheaders] at htail
    exact right_of_append htail
  have hnewStart (x : Header) (hx : new.head? = some x) : numberU64 x = ca.length + known.length := by
    refine (hall.stored ?_).2
    rw [getElem?_append_right (by omega), hheaders, getElem?_append_right (by omega),
      show ca.length + known.length - ca.length - known.length = 0 by omega, ← head?_eq_getElem?, hx]
  have hnewLast (hne : new ≠ []) : (new.getLast?.map (Header.hash C)) = some (last.hash C) := by
    rw [hheaders, getLast?_append_of_ne_nil _ hne] at hlast
    rw [hlast]
    rfl
  rw [adopt, hinserted, hlastHash, hlh, copyHeader_of_complete hcomplete]
  by_cases hext : first.parentHash = s.currentHeaderHash
  · -- on top of the current header
    have hcurrent : a = s.currentHeader := by
      refine hS.injOn (hsound.stored (hca.number_last ha).2).1 (hsound.stored (h.chain.number_last h.last).2).1 ?_
      rw [← hfirst.1, hext, h.hash]
    have hcac : ca = cs := hca.unique h.chain ha (hcurrent ▸ h.last)
    subst hcac
    rw [if_pos hext]
    refine ⟨_, rfl, ?_⟩
    rw [writeMarkers_spec hnewChain hnewStart]
    refine ⟨rfl, rfl, ?_⟩
    by_cases hknown : known = []
    · subst hknown
      have hnew : new = headers := by rw [hheaders, nil_append]
      have hne : new ≠ [] := by
        intro hnil
        rw [hheaders, hnil] at hhead
        cases hhead
      refine ⟨fun _ => ⟨fun hnil => absurd hnil hne, fun _ => rfl⟩, fun _ => ⟨ca ++ headers, hall, hlast', ?_, rfl, ?_⟩⟩
      · intro i
        rw [lookup_put, length_map, h.describes i, map_append, hnew, length_nil, Nat.add_zero]
        by_cases hi : i < ca.length
        · rw [if_neg (by omega), getElem?_append_left (by rw [length_map]; exact hi)]
        rw [getElem?_append_right (by rw [length_map]; omega), length_map]
        split
        · rfl
        rw [getElem?_eq_none (by rw [length_map]; omega), getElem?_eq_none (by rw [length_map]; omega)]
      dsimp only
      rw [hnewLast hne]
      rfl
    refine ⟨fun ⟨c', h'⟩ => ?_, fun hr => absurd (hr.2 hext) hknown⟩
    exfalso
    have hlen' := (h'.chain.number_last h'.last).1
    have hd := h'.describes ca.length
    have hk := length_pos_of_ne_nil hknown
    have hhlen : 0 < headers.length := by
      rw [hheaders, length_append]
      omega
    dsimp only [links] at hd hlen'
    rw [lookup_put, if_neg (by omega), h.describes, getElem?_eq_none (by rw [length_map]),
      getElem?_eq_getElem (by rw [length_map]; omega)] at hd
    cases hd
  obtain ⟨s₂, hs₂, hheaders₂, htds₂, _, hmarker₂, hlookup₂⟩ := rewind_spec hS hsound h hca ha hfirst hheaders
    hchain.tail hhead hfi (by rw [hln, hnumber])
  rw [if_neg hext, hs₂]
  refine ⟨_, rfl, ?_⟩
  rw [writeMarkers_spec hnewChain hnewStart]
  refine ⟨hheaders₂, htds₂, ?_⟩
  by_cases hnew : new = []
  · subst hnew
    have hk : known = headers := by rw [hheaders, append_nil]
    refine ⟨fun ⟨c', h'⟩ => ⟨fun _ => ?_, fun hp => absurd hp hext⟩, fun hr => ?_⟩
    · have hm : s₂.headHeaderHash = last.hash C := h'.marker
      rw [← hm, hmarker₂ rfl, h.marker]
    have hcurrent : last = s.currentHeader := by
      refine hS.injOn (hsound.stored (hall.number_last hlast').2).1
        (hsound.stored (h.chain.number_last h.last).2).1 ?_
      rw [hr.1 rfl, h.hash]
    have hcc : ca ++ headers = cs := hall.unique h.chain hlast' (hcurrent ▸ h.last)
    refine ⟨ca ++ headers, ?_, hlast', fun i => ?_, rfl, ?_⟩
    · dsimp only
      rw [hheaders₂]
      exact hall
    · change s₂.canonical.lookup i = _
      rw [hlookup₂ i, map_append]
      by_cases hi : i < ca.length
      · rw [if_pos hi, getElem?_append_left (by rw [length_map]; exact hi)]
      rw [if_neg hi]
      by_cases habove : b.lastNumber < i
      · rw [if_pos habove, getElem?_eq_none]
        rw [length_append, length_map, length_map]
        omega
      · rw [if_neg habove, if_neg (fun h => h.1 rfl), h.describes i, ← hcc, map_append]
    change s₂.headHeaderHash = _
    rw [hmarker₂ rfl, h.marker, hr.1 rfl]
  refine ⟨fun _ => ⟨fun hnil => absurd hnil hnew, fun hp => absurd hp hext⟩, fun _ =>
    ⟨ca ++ headers, ?_, hlast', fun i => ?_, rfl, ?_⟩⟩
  · dsimp only
    rw [hheaders₂]
    exact hall
  · dsimp only
    have hhlen : headers.length = known.length + new.length := by rw [hheaders, length_append]
    rw [lookup_put, length_map, hlookup₂ i, map_append, hln]
    by_cases hi : i < ca.length
    · rw [if_neg (by omega), if_pos hi, getElem?_append_left (by rw [length_map]; exact hi)]
    rw [if_neg hi, getElem?_append_right (by rw [length_map]; omega), length_map, hheaders, map_append]
    by_cases hk : i < ca.length + known.length
    · rw [if_neg (by omega), if_neg (by omega), if_pos ⟨hnew, hk⟩,
        getElem?_append_left (by rw [length_map]; omega)]
    rw [getElem?_append_right (by rw [length_map]; omega), length_map]
    split
    · rw [show i - (ca.length + known.length) = i - ca.length - known.length by omega]
    · rw [if_pos (by omega), getElem?_eq_none (by rw [length_map]; omega)]
  dsimp only
  rw [hnewLast hnew]
  rfl

end

end

section

variable {C : Crypto} {S : Set Header} {g : Header} {s : HeaderChain} {cs : List Header}

def AllKnown (C : Crypto) (s : HeaderChain) (headers : List Header) : Prop :=
  ∀ x ∈ headers, (s.headers (x.hash C) (numberU64 x)).isSome

def TakesOver (s : HeaderChain) (coin : Bool) (headers : List Header) : Prop :=
  ∃ first last ptd localTD, headers.head? = some first ∧ headers.getLast? = some last ∧
    s.tds first.parentHash (parentNumber first) = some ptd ∧
    s.tds s.currentHeaderHash (numberU64 s.currentHeader) = some localTD ∧
    reorgs (ptd + (headers.map difficulty).sum) localTD (numberU64 last) (numberU64 s.currentHeader) coin = true

/-- A batch without new headers that takes over must end with the current
header, and one on top of the current header must begin with a new one. -/
structure MarksAll (C : Crypto) (s : HeaderChain) (headers : List Header) : Prop where
  known : AllKnown C s headers → ∀ last, headers.getLast? = some last → last.hash C = s.currentHeaderHash
  extends_new : ∀ first, headers.head? = some first → first.parentHash = s.currentHeaderHash →
    s.headers (first.hash C) (numberU64 first) = none

theorem unstored_of_chain (hS : Ideal C S) (hsound : Sound C S g s) {l : List Header}
    (hl : l.IsChain (Follows C)) (hin : ∀ x ∈ l, x ∈ S)
    (hhead : ∀ x, l.head? = some x → s.headers (x.hash C) (numberU64 x) = none) :
    ∀ x ∈ l, s.headers (x.hash C) (numberU64 x) = none := by
  induction l with
  | nil => exact fun x hx => absurd hx not_mem_nil
  | cons y l ih =>
    have hy := hhead y rfl
    intro x hx
    obtain rfl | hx := mem_cons.mp hx
    · exact hy
    refine ih hl.tail (fun z hz => hin z (mem_cons_of_mem _ hz)) (fun z hz => ?_) x hx
    have hzl : z ∈ l := mem_of_mem_head? hz
    have hfollows : Follows C y z := by
      cases l with
      | nil => cases hz
      | cons w l =>
        cases hz
        exact (isChain_cons_cons.mp hl).1
    rw [← isNone_iff_eq_none, ← isSome_eq_false_iff, eq_false_iff]
    intro hsome
    obtain ⟨z', hz'⟩ := isSome_iff_exists.mp hsome
    obtain ⟨hzS, hhash, hnumber, c', hc', hlast⟩ := hsound.stored hz'
    obtain rfl : z' = z := hS.injOn hzS (hin z (mem_cons_of_mem _ hzl)) hhash
    have hlength : numberU64 z' + 1 = c'.length := (hc'.number_last hlast).1
    rw [getLast?_eq_getElem?, ← hlength, Nat.add_sub_cancel, hfollows.2] at hlast
    obtain ⟨w, _, _, hget⟩ := hc'.step_back hlast
    have hget' : s.headers z'.parentHash (numberU64 y) = some w := hget
    rw [hfollows.1, hy] at hget'
    cases hget'

/-- A batch goes through unless its parent is not known or the import is
interrupted, and the index is right after it just when all is marked. -/
theorem writeHeaders_spec (hS : Ideal C S) (hsound : Sound C S g s) (h : IndexedBy C g s cs) (coin : Bool)
    {headers : List Header} (hc : Contiguous C headers) (hin : ∀ x ∈ headers, x ∈ S) :
    (writeHeaders C s coin headers = .error .unknownAncestor ∧
      ∃ first, headers.head? = some first ∧ s.headers first.parentHash (parentNumber first) = none) ∨
    (writeHeaders C s coin headers = .error .aborted ∧ s.procInterrupt = true) ∨
    ∃ r s', writeHeaders C s coin headers = .ok (r, s') ∧ Sound C S g s' ∧
      (Indexed C g s' ↔ (TakesOver s coin headers → MarksAll C s headers)) := by
  cases headers with
  | nil =>
    refine .inr (.inr ⟨_, s, rfl, hsound, fun _ ⟨first, _, _, _, hfirst, _⟩ => ?_, fun _ => ⟨cs, h⟩⟩)
    cases hfirst
  | cons first rest =>
    rw [writeHeaders]
    cases hptd : s.tds first.parentHash (parentNumber first) with
    | none =>
      refine .inl ⟨rfl, first, rfl, ?_⟩
      have htd := hsound.tds first.parentHash (parentNumber first)
      rw [hptd, eq_comm, isSome_none, isSome_eq_false_iff, isNone_iff_eq_none] at htd
      exact htd
    | some ptd =>
      dsimp only
      -- the parent and its chain
      obtain ⟨a, ha⟩ : ∃ a, s.headers first.parentHash (parentNumber first) = some a := by
        rw [← isSome_iff_exists, ← hsound.tds, hptd]
        rfl
      obtain ⟨_, hahash, hanumber, ca, hca, hlasta⟩ := hsound.stored ha
      have hpos := (hc.complete first mem_cons_self).pos
      have hfollows : Follows C a first := by
        rw [parentNumber_of_pos hpos] at hanumber
        exact ⟨hahash.symm, by omega⟩
      have hchain := isChain_cons_cons.mpr ⟨hfollows, hc.linked⟩
      -- what the loop gathers
      have hstart : Gathered C s ptd [] [] (startImport s first ptd) := by
        refine ⟨fun x hx => absurd hx not_mem_nil, fun x hx => (by cases hx), rfl, (add_zero ptd).symm, rfl,
          rfl, fun x hx => (by cases hx), ⟨id, Or.inl, fun x hx => absurd hx not_mem_nil⟩, hsound.tds,
          fun _ _ _ => rfl⟩
      obtain ⟨known, new, heq, hb⟩ := gathered_run hS hsound (first :: rest) hstart hc.linked hin
      rw [nil_append, nil_append] at heq
      rw [append_nil, length_nil] at hb
      generalize importHeaders C s 0 (first :: rest) (startImport s first ptd) = b at hb ⊢
      by_cases hinterrupt : s.procInterrupt = true
      · rw [if_pos hinterrupt]
        exact .inr (.inl ⟨rfl, hinterrupt⟩)
      rw [if_neg hinterrupt]
      refine .inr (.inr ?_)
      obtain ⟨last, hlast⟩ := isSome_iff_exists.mp (getLast?_isSome.mpr (cons_ne_nil first rest))
      obtain ⟨hlh, hlastHash, hln⟩ := hb.last last (by rw [← heq]; exact hlast)
      have hgrows := hb.headers
      rw [← heq] at hgrows
      obtain ⟨hsound₁, hall⟩ := sound_import hsound hgrows hb.tds hin hca hlasta hchain
      have h₁ : IndexedBy C g { s with headers := b.headers, tds := b.tds } cs :=
        ⟨h.chain.mono fun _ _ _ hx => hgrows.keep hx, h.last, h.describes, h.hash, h.marker⟩
      have hnewIn (x : Header) (hx : x ∈ new) : x ∈ S := hin x (by rw [heq]; exact mem_append_right _ hx)
      have hnewChain : new.IsChain (Follows C) := by
        have hlinked := hc.linked
        rw [heq] at hlinked
        exact right_of_append hlinked
      have hunstored := unstored_of_chain hS hsound hnewChain hnewIn hb.isNew
      -- the difficulty of the current header is not touched
      obtain ⟨hcurS, _⟩ := hsound.stored (h.chain.number_last h.last).2
      have hcurrent : s.headers s.currentHeaderHash (numberU64 s.currentHeader) = some s.currentHeader := by
        rw [h.hash]
        exact (h.chain.number_last h.last).2
      have htd : b.tds s.currentHeaderHash (numberU64 s.currentHeader) =
          s.tds s.currentHeaderHash (numberU64 s.currentHeader) := by
        refine hb.oldTds _ _ fun x hx hhash => ?_
        obtain rfl : x = s.currentHeader := hS.injOn (hnewIn x hx) hcurS (hhash.trans h.hash)
        have hnone := hunstored _ hx
        rw [hhash, hcurrent] at hnone
        cases hnone
      obtain ⟨localTD, hlocal⟩ : ∃ td, s.tds s.currentHeaderHash (numberU64 s.currentHeader) = some td := by
        rw [← isSome_iff_exists, hsound.tds, hcurrent]
        rfl
      rw [htd, hlocal]
      dsimp only
      have htakes : TakesOver s coin (first :: rest) ↔ reorgs b.newTD localTD b.lastNumber
          (numberU64 s.currentHeader) coin = true := by
        rw [hb.newTD, hln, ← heq]
        constructor
        · rintro ⟨first', last', ptd', localTD', hf', hl', hp', ht', hreorg⟩
          cases hf'
          rw [hlast] at hl'
          cases hl'
          rw [hptd] at hp'
          cases hp'
          rw [hlocal] at ht'
          cases ht'
          exact hreorg
        · exact fun hreorg => ⟨first, last, ptd, localTD, rfl, hlast, hptd, hlocal, hreorg⟩
      by_cases hreorg : reorgs b.newTD localTD b.lastNumber (numberU64 s.currentHeader) coin = true
      · obtain ⟨s', hs', hheaders', htds', hiff⟩ := adopt_spec hS hsound₁ h₁
          (hca.mono fun _ _ _ hx => hgrows.keep hx) hlasta heq hchain
          (hc.complete last (mem_of_getLast? hlast)) rfl hlast hall hb.firstInserted hb.inserted hlh hlastHash hln
        rw [if_pos hreorg, hs']
        refine ⟨_, s', rfl, ?_, hiff.trans ⟨fun hr _ => ⟨fun hknown l hl => ?_, fun f hf hp => ?_⟩, fun hm => ?_⟩⟩
        · refine ⟨fun {h n x} hx => ?_, fun h n => ?_⟩
          · rw [hheaders'] at hx
            obtain ⟨hxS, hxh, hxn, c', hc', hl'⟩ := hsound₁.stored hx
            exact ⟨hxS, hxh, hxn, c', hheaders' ▸ hc', hl'⟩
          rw [htds', hheaders']
          exact hb.tds h n
        · rw [hlast] at hl
          cases hl
          refine hr.1 (head?_eq_none_iff.mp (eq_none_iff_forall_ne_some.mpr fun x hx => ?_))
          have hsome := hknown x (by rw [heq]; exact mem_append_right _ (mem_of_mem_head? hx))
          rw [hb.isNew x hx] at hsome
          cases hsome
        · cases hf
          refine hb.isNew first ?_
          rw [hr.2 hp, nil_append] at heq
          rw [← heq]
          rfl
        obtain ⟨hknown, hextends⟩ := hm (htakes.mpr hreorg)
        refine ⟨fun hnew => hknown ?_ last hlast, fun hp => ?_⟩
        · rw [hnew, append_nil] at heq
          rw [heq]
          exact hb.isKnown
        refine head?_eq_none_iff.mp (eq_none_iff_forall_ne_some.mpr fun x hx => ?_)
        have hxf : first = x := by
          have hhead := congrArg head? heq
          rw [head?_append, hx] at hhead
          exact some.inj hhead
        have hsome := hb.isKnown x (mem_of_mem_head? hx)
        rw [← hxf, hextends first rfl hp] at hsome
        cases hsome
      rw [if_neg hreorg]
      refine ⟨_, _, rfl, hsound₁, fun _ htake => absurd (htakes.mp htake) hreorg, fun _ => ⟨cs, h₁⟩⟩

end

/-- The chains that calls lead to as long as none of them leaves a header of the
new chain unmarked. A call that fails changes nothing. -/
inductive Reached (C : Crypto) (S : Set Header) (g : Header) : HeaderChain → Prop where
  | start : Reached C S g (newHeaderChain C g)
  | call {s s' : HeaderChain} {coin : Bool} {headers : List Header} {r : HeaderWriteResult}
      (h : Reached C S g s) (hc : Contiguous C headers) (hin : ∀ x ∈ headers, x ∈ S)
      (hmarks : TakesOver s coin headers → MarksAll C s headers)
      (hok : writeHeaders C s coin headers = .ok (r, s')) : Reached C S g s'
  | interrupt {s : HeaderChain} (h : Reached C S g s) : Reached C S g { s with procInterrupt := true }

theorem new_indexed {C} {S} {g} (hg : g ∈ S) (hnumber : numberU64 g = 0) :
    Sound C S g (newHeaderChain C g) ∧ Indexed C g (newHeaderChain C g) := by
  obtain ⟨hrooted, hchain⟩ := Rooted.start (L := links C) hg hnumber
  refine ⟨⟨hrooted, fun h n => ?_⟩, [g], hchain, rfl, .singleton (g.hash C), rfl, rfl⟩
  change (if _ then _ else _ : Option ℤ).isSome = (if _ then _ else _ : Option Header).isSome
  split <;> rfl

theorem reached_indexed {C} {S} {g} {s} (hS : Ideal C S)
    (hg : g ∈ S) (hnumber : numberU64 g = 0) (h : Reached C S g s) : Sound C S g s ∧ Indexed C g s := by
  induction h with
  | start => exact new_indexed hg hnumber
  | call _ hc hin hmarks hok ih =>
    obtain ⟨hsound, cs, hindexed⟩ := ih
    obtain ⟨herr, _⟩ | ⟨herr, _⟩ | ⟨r, s', hs', hsound', hiff⟩ := writeHeaders_spec hS hsound hindexed _ hc hin
    · rw [herr] at hok
      cases hok
    · rw [herr] at hok
      cases hok
    rw [hs'] at hok
    cases hok
    exact ⟨hsound', hiff.mpr hmarks⟩
  | interrupt _ ih =>
    obtain ⟨⟨hstored, htds⟩, cs, hindexed⟩ := ih
    exact ⟨⟨hstored, htds⟩, cs, hindexed.chain, hindexed.last, hindexed.describes, hindexed.hash,
      hindexed.marker⟩

/-- As long as no call has left a header unmarked, the canonical index and the
head marker describe the current header; the next call goes through if the
parent of its batch is known, and it keeps them right just when it marks all. -/
theorem header_index_describes_head {C : Crypto} {S : Set Header} {g : Header} {s : HeaderChain}
    (hS : Ideal C S) (hg : g ∈ S) (hnumber : numberU64 g = 0) (h : Reached C S g s) :
    Indexed C g s ∧ ∀ coin headers, Contiguous C headers → (∀ x ∈ headers, x ∈ S) →
      (s.procInterrupt = false → (∀ first, headers.head? = some first →
          (s.headers first.parentHash (parentNumber first)).isSome) →
        ∃ r s', writeHeaders C s coin headers = .ok (r, s')) ∧
      ∀ r s', writeHeaders C s coin headers = .ok (r, s') →
        (Indexed C g s' ↔ (TakesOver s coin headers → MarksAll C s headers)) := by
  obtain ⟨hsound, hindexed⟩ := reached_indexed hS hg hnumber h
  refine ⟨hindexed, fun coin headers hc hin => ?_⟩
  obtain ⟨cs, hindexed⟩ := hindexed
  obtain ⟨herr, first, hfirst, hnone⟩ | ⟨herr, hinterrupt⟩ | ⟨r, s', hs', _, hiff⟩ :=
    writeHeaders_spec hS hsound hindexed coin hc hin
  · refine ⟨fun _ hparent => ?_, fun r s' hok => ?_⟩
    · have hsome := hparent first hfirst
      rw [hnone] at hsome
      cases hsome
    rw [herr] at hok
    cases hok
  · refine ⟨fun hrun _ => ?_, fun r s' hok => ?_⟩
    · rw [hinterrupt] at hrun
      cases hrun
    rw [herr] at hok
    cases hok
  refine ⟨fun _ _ => ⟨r, s', hs'⟩, fun r' s₁ hok => ?_⟩
  rw [hs'] at hok
  cases hok
  exact hiff

def headerOn (parentHash : Hash) (number difficulty : ℤ) (nonce : ℕ) : Header :=
  { Header.zero with
    parentHash, number := some number, difficulty := some difficulty, nonce := ofNat 8 nonce }

def genesisHash : Hash := hexToHash 0x6e53c76f71f1fd98ca5a4ca18554b64a5e20f68f2dcdd89a143e60b25cf97313
def lightHash : Hash := hexToHash 0xe0f3bd55f2854bb7faccac064e7f4a23fc632e111f796fe793c889dd6058479c
def heavyHash : Hash := hexToHash 0xfcf85e78094b760b284ab4085812e4c36cd042d04d1a5705dfa34d48f907663e

def genesisHeader : Header := headerOn (zeros 32) 0 1 1
def lightHeader : Header := headerOn genesisHash 1 1 2
def rivalHeader : Header := headerOn genesisHash 1 1 3
def secondHeader : Header := headerOn lightHash 2 1 4
def heavyHeader : Header := headerOn genesisHash 1 2 5
def heirHeader : Header := headerOn heavyHash 2 1 6
def sideHeader : Header := headerOn lightHash 2 1 7

/-- Headers with their hashes, as they were recorded. -/
def recordedHeaders : List (Header × Hash) :=
  [(genesisHeader, genesisHash), (lightHeader, lightHash),
    (rivalHeader, hexToHash 0x40968066e5b5508c824575588c1cca9886bfb1c0c10869f78839fbaaeaf211c5),
    (secondHeader, hexToHash 0x1b19b1e190051c6b2bdcdc3c37d281ccee2764cc64d2294c4c71fc4d199f1830),
    (heavyHeader, heavyHash),
    (heirHeader, hexToHash 0x48b2b1b2439abd39d6ed5e15c7d6cbeb44c4afc80a568cae2bd35aaee531dd87),
    (sideHeader, hexToHash 0xa9863775187086deb81ab825d285bf55d965e1fcea4bf9964468cab1f29bed4e)]

def headerCrypto : Crypto :=
  Crypto.ofTables (recordedHeaders.map fun r => ((Rlp.Encode.write r.1.value).toOption.getD [], r.2)) []

def sampleHeaders : List Header := recordedHeaders.map Prod.fst

theorem hash_recorded : ∀ r ∈ recordedHeaders, r.1.hash headerCrypto = r.2 := by decide +kernel

theorem sampleHeaders_ideal : Ideal headerCrypto { h | h ∈ sampleHeaders } := by
  have hhashes : ∀ x ∈ recordedHeaders, ∀ y ∈ recordedHeaders, x.2 = y.2 → x.1 = y.1 := by decide +kernel
  have hzero : ∀ x ∈ recordedHeaders, x.2 ≠ zeros 32 := by decide +kernel
  constructor
  · intro x hx y hy heq
    obtain ⟨r, hr, rfl⟩ := mem_map.mp hx
    obtain ⟨r', hr', rfl⟩ := mem_map.mp hy
    rw [hash_recorded r hr, hash_recorded r' hr'] at heq
    exact hhashes r hr r' hr' heq
  intro x hx
  obtain ⟨r, hr, rfl⟩ := mem_map.mp hx
  rw [hash_recorded r hr]
  exact hzero r hr

def writeCalls (C : Crypto) (s : HeaderChain) (calls : List (Bool × List Header)) :
    Except HeaderError HeaderChain :=
  calls.foldlM (fun s call => do
    let (_, s) ← writeHeaders C s call.1 call.2
    return s) s

/-- A header that lost the toss is offered again, and wins: it becomes the
current header, but the markers stay. -/
theorem known_header_unmarked : ∃ s,
    writeCalls headerCrypto (newHeaderChain headerCrypto genesisHeader)
      [(false, [lightHeader]), (false, [rivalHeader]), (true, [rivalHeader])] = .ok s ∧
    s.currentHeader = rivalHeader ∧ s.headHeaderHash = lightHash ∧
    s.canonical.lookup 1 = some lightHash ∧ ¬Indexed headerCrypto genesisHeader s := by
  obtain ⟨s, hs, hp⟩ := exists_ok_of_any
    (x := writeCalls headerCrypto (newHeaderChain headerCrypto genesisHeader)
      [(false, [lightHeader]), (false, [rivalHeader]), (true, [rivalHeader])])
    (p := fun s => decide (s.currentHeader = rivalHeader) && decide (s.headHeaderHash = lightHash) &&
      decide (s.canonical.lookup 1 = some lightHash)) (by decide +kernel)
  rw [and_eq_true, and_eq_true, decide_eq_true_iff, decide_eq_true_iff, decide_eq_true_iff] at hp
  obtain ⟨⟨hcurrent, hmarker⟩, hcanonical⟩ := hp
  refine ⟨s, hs, hcurrent, hmarker, hcanonical, fun ⟨cs, h⟩ => ?_⟩
  have heq : lightHash = rivalHeader.hash headerCrypto := by
    rw [← hmarker, h.marker, h.hash, hcurrent]
  exact absurd heq (by decide +kernel)

instance (C : Crypto) (a b : Header) : Decidable (Follows C a b) := inferInstanceAs (Decidable (_ ∧ _))

theorem contiguous_of {l : List Header} (hlinked : l.IsChain (Follows headerCrypto))
    (hin : ∀ x ∈ l, x ∈ sampleHeaders) (hpos : ∀ x ∈ l, 0 < numberU64 x) : Contiguous headerCrypto l := by
  have hall : ∀ h ∈ sampleHeaders, h.number ≠ none ∧ h.difficulty ≠ none := by decide
  exact ⟨hlinked, fun x hx => ⟨(hall x (hin x hx)).1, (hall x (hin x hx)).2, hpos x hx⟩⟩

theorem marksAll_of_new {s : HeaderChain} {first : Header} {rest : List Header}
    (h : s.headers (first.hash headerCrypto) (numberU64 first) = none) :
    MarksAll headerCrypto s (first :: rest) := by
  refine ⟨fun hknown => ?_, fun x hx _ => ?_⟩
  · have hsome := hknown first mem_cons_self
    rw [h] at hsome
    cases hsome
  cases hx
  exact h

/-- Two headers on top of the genesis header, and then two heavier ones that
take over. -/
theorem header_index_after_import : ∃ s r s',
    Reached headerCrypto { h | h ∈ sampleHeaders } genesisHeader s ∧ s.currentHeader = secondHeader ∧
      writeHeaders headerCrypto s false [heavyHeader, heirHeader] = .ok (r, s') ∧
      s'.currentHeader = heirHeader ∧ Indexed headerCrypto genesisHeader s' := by
  obtain ⟨⟨_, s⟩, hs, hp⟩ := exists_ok_of_any
    (x := writeHeaders headerCrypto (newHeaderChain headerCrypto genesisHeader) false [lightHeader, secondHeader])
    (p := fun x => decide (x.2.currentHeader = secondHeader) &&
      decide (x.2.headers (heavyHeader.hash headerCrypto) 1 = none) &&
      (writeHeaders headerCrypto x.2 false [heavyHeader, heirHeader]).toOption.any
        fun y => decide (y.2.currentHeader = heirHeader)) (by decide +kernel)
  rw [and_eq_true, and_eq_true, decide_eq_true_iff, decide_eq_true_iff] at hp
  obtain ⟨⟨hcurrent, hnew⟩, hcall⟩ := hp
  obtain ⟨⟨r, s'⟩, hs', hcurrent'⟩ := exists_ok_of_any hcall
  have hreached : Reached headerCrypto { h | h ∈ sampleHeaders } genesisHeader s := by
    refine .call .start (contiguous_of ?_ ?_ ?_) ?_ (fun _ => marksAll_of_new ?_) hs
    all_goals decide +kernel
  have hin : ∀ x ∈ [heavyHeader, heirHeader], x ∈ sampleHeaders := by decide +kernel
  obtain ⟨_, hwrite⟩ := header_index_describes_head sampleHeaders_ideal mem_cons_self (by decide) hreached
  obtain ⟨_, hiff⟩ := hwrite false [heavyHeader, heirHeader]
    (contiguous_of (by decide +kernel) hin (by decide)) hin
  exact ⟨s, r, s', hreached, hcurrent, hs', of_decide_eq_true hcurrent',
    (hiff r s' hs').mpr fun _ => marksAll_of_new hnew⟩

end Geth.Core.HeaderWrites
