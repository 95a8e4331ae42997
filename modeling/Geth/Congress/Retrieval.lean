import Geth.Congress.VerifySeal

namespace Geth.Congress.Retrieval

open Lib.BigEndian Common.Basic Types.Block Params.Config SnapshotApply SealSpacing
open Function List UInt64 Nat Option Except

/-- The adaptive cache of recent snapshots. It may forget entries whenever one
is added, but holds nothing that was not added. -/
structure SnapshotCache (Γ : Type) where
  get : Γ → Hash → Option Snapshot
  add : Γ → Hash → Snapshot → Γ
  get_add : ∀ {c h s k t}, get (add c h s) k = some t → k = h ∧ t = s ∨ get c k = some t

/-- The snapshots in the database, read back as they were written. -/
structure SnapshotDb (Δ : Type) where
  get : Δ → Hash → Option Snapshot
  put : Δ → Hash → Snapshot → Option Δ
  put_isSome : ∀ d h s, ∃ d', put d h s = some d'
  get_put : ∀ {d d' h s}, put d h s = some d' → ∀ k, get d' k = if k = h then some s else get d k

structure ChainHeaderReader where
  getHeader : Hash → UInt64 → Option Header
  getHeaderByNumber : UInt64 → Option Header

/-- What retrieval reads of the engine. The constructor of the engine replaces
an epoch of zero. -/
structure Engine (Γ Δ : Type) where
  config : CongressConfig
  epoch_ne : config.epoch ≠ 0
  cache : SnapshotCache Γ
  db : SnapshotDb Δ

/-- Where the backward walk stopped, with the headers gathered on the way,
newest first. `trusted` tells a checkpoint above genesis was believed. -/
structure Found (Δ : Type) where
  snap : Except Error Snapshot
  headers : List Header
  db : Δ
  trusted : Bool

structure Outcome (Γ Δ : Type) where
  result : Except Error Snapshot
  recents : Γ
  db : Δ
  trusted : Bool

def checkpointInterval : UInt64 := 1024

variable {Γ Δ : Type}

/-- The encoded snapshot has no configuration; the engine's is put in. -/
def loadSnapshot (E : Engine Γ Δ) (db : Δ) (hash : Hash) : Option Snapshot :=
  (E.db.get db hash).map (fun s => { s with config := E.config })

def store (E : Engine Γ Δ) (db : Δ) (s : Snapshot) : Except Error Δ :=
  match E.db.put db s.hash s with
  | none => .error .errDatabase
  | some db' => .ok db'

/-- The snapshot found in memory, or on disk at every 1024th block. -/
def lookup (E : Engine Γ Δ) (recents : Γ) (db : Δ) (number : UInt64) (hash : Hash) :
    Option Snapshot :=
  match E.cache.get recents hash with
  | some s => some s
  | none => if number % checkpointInterval = 0 then loadSnapshot E db hash else none

/-- The header to start from: genesis, or an epoch block that has no parent or
is too deep to be reorganised. -/
def checkpointHeader (E : Engine Γ Δ) (chain : ChainHeaderReader) (number : UInt64)
    (gathered : Nat) : Option Header :=
  if number = 0 ∨ number % E.config.epoch = 0 ∧
      (fullImmutabilityThreshold < gathered ∨ chain.getHeaderByNumber (number - 1) = none)
  then chain.getHeaderByNumber number
  else none

def checkpointSnapshot (C : Crypto) (config : CongressConfig) (number : UInt64) (checkpoint : Header) :
    Except Error Snapshot := do
  let validators ← extraValidators checkpoint.extra
  return newSnapshot config number (checkpoint.hash C) validators

def startFrom (E : Engine Γ Δ) (C : Crypto) (db : Δ) (number : UInt64) (checkpoint : Header)
    (headers : List Header) : Found Δ :=
  let trusted := decide (number ≠ 0)
  match checkpointSnapshot C E.config number checkpoint with
  | .error e => ⟨.error e, headers, db, trusted⟩
  | .ok snap =>
    match store E db snap with
    | .error e => ⟨.error e, headers, db, trusted⟩
    | .ok db' => ⟨.ok snap, headers, db', trusted⟩

/-- The header of a block: the last explicit parent if there are any left,
otherwise from the database. -/
def gather (C : Crypto) (chain : ChainHeaderReader) (number : UInt64) (hash : Hash)
    (parents : List Header) : Except Error Header :=
  match parents.getLast? with
  | some header =>
    if header.hash C ≠ hash then .error .errUnknownAncestor
    else do
      let n ← numberU64 header
      if n ≠ number then .error .errUnknownAncestor else .ok header
  | none =>
    match chain.getHeader hash number with
    | none => .error .errUnknownAncestor
    | some header => .ok header

/-- The backward walk. `none` stands for a walk longer than the fuel. -/
def walk (E : Engine Γ Δ) (C : Crypto) (chain : ChainHeaderReader) (recents : Γ) (db : Δ) :
    Nat → UInt64 → Hash → List Header → List Header → Option (Found Δ)
  | 0, _, _, _, _ => none
  | fuel + 1, number, hash, parents, headers =>
    match lookup E recents db number hash with
    | some s => some ⟨.ok s, headers, db, false⟩
    | none =>
      match checkpointHeader E chain number headers.length with
      | some checkpoint => some (startFrom E C db number checkpoint headers)
      | none =>
        match gather C chain number hash parents with
        | .error e => some ⟨.error e, headers, db, false⟩
        | .ok header =>
          walk E C chain recents db fuel (number - 1) header.parentHash parents.dropLast
            (headers ++ [header])

/-- Apply the gathered headers and remember the snapshot. -/
def finish (E : Engine Γ Δ) (C : Crypto) (recents : Γ) (found : Found Δ) : Outcome Γ Δ :=
  match found.snap >>= fun s => apply C s found.headers.reverse with
  | .error e => ⟨.error e, recents, found.db, found.trusted⟩
  | .ok snap =>
    let recents := E.cache.add recents snap.hash snap
    if snap.number % checkpointInterval = 0 ∧ found.headers ≠ [] then
      match store E found.db snap with
      | .error e => ⟨.error e, recents, found.db, found.trusted⟩
      | .ok db => ⟨.ok snap, recents, db, found.trusted⟩
    else ⟨.ok snap, recents, found.db, found.trusted⟩

def snapshot (E : Engine Γ Δ) (C : Crypto) (chain : ChainHeaderReader) (recents : Γ) (db : Δ)
    (fuel : Nat) (number : UInt64) (hash : Hash) (parents : List Header) : Option (Outcome Γ Δ) :=
  (walk E C chain recents db fuel number hash parents []).map (finish E C recents)

def tip (genesis : Header) (hs : List Header) : Header := hs.getLast?.getD genesis

/-- Headers that follow `genesis`, linked and numbered, with numbers of 64 bits
as the header sanity check asks for. -/
inductive HeaderChain (C : Crypto) (genesis : Header) : List Header → Prop
  | genesis : numberU64 genesis = .ok 0 → HeaderChain C genesis []
  | extend {hs : List Header} {h : Header} : HeaderChain C genesis hs →
    hs.length + 1 < 2 ^ 64 → numberU64 h = .ok (UInt64.ofNat (hs.length + 1)) →
    h.parentHash = (tip genesis hs).hash C → HeaderChain C genesis (hs ++ [h])

def fromGenesis (C : Crypto) (config : CongressConfig) (genesis : Header) (hs : List Header) :
    Except Error Snapshot := do
  let s ← checkpointSnapshot C config 0 genesis
  replay C s hs

@[simp] theorem tip_nil (genesis : Header) : tip genesis [] = genesis := rfl

@[simp] theorem tip_append (genesis : Header) (hs : List Header) (h : Header) :
    tip genesis (hs ++ [h]) = h := by simp [tip]

theorem HeaderChain.tip_number {C} {genesis} {hs}
    (h : HeaderChain C genesis hs) : numberU64 (tip genesis hs) = .ok (UInt64.ofNat hs.length) := by
  cases h with
  | genesis hn => exact hn
  | extend _ _ hn _ =>
    rw [tip_append, length_append]
    exact hn

theorem HeaderChain.length_lt {C} {genesis} {hs} (h : HeaderChain C genesis hs) : hs.length < 2 ^ 64 := by
  cases h with
  | genesis _ => decide
  | extend _ hlt _ _ =>
    rw [length_append]
    exact hlt

theorem ofNat_succ_ne_zero {n : ℕ} (h : n + 1 < 2 ^ 64) : UInt64.ofNat (n + 1) ≠ 0 := by
  intro he
  have hn := congrArg toNat he
  rw [toNat_ofNat', mod_eq_of_lt h] at hn
  exact succ_ne_zero n hn

theorem HeaderChain.unique {C} {genesis} {K} {hs hs'} (hinj : Set.InjOn (Header.hash C) K)
    (h : HeaderChain C genesis hs) (h' : HeaderChain C genesis hs')
    (hk : ∀ x ∈ genesis :: hs, x ∈ K) (hk' : ∀ x ∈ genesis :: hs', x ∈ K)
    (ht : (tip genesis hs).hash C = (tip genesis hs').hash C) : hs = hs' := by
  induction h generalizing hs' with
  | genesis hn =>
    cases h' with
    | genesis _ => rfl
    | extend hc hlt hn' _ =>
      rw [tip_nil, tip_append] at ht
      have he := hinj (hk _ (by simp)) (hk' _ (by simp)) ht
      rw [← he, hn, ok.injEq] at hn'
      exact (ofNat_succ_ne_zero hlt hn'.symm).elim
  | extend hc hlt hn hp ih =>
    cases h' with
    | genesis hn' =>
      rw [tip_nil, tip_append] at ht
      have he := hinj (hk _ (by simp)) (hk' _ (by simp)) ht
      rw [he, hn', ok.injEq] at hn
      exact (ofNat_succ_ne_zero hlt hn.symm).elim
    | extend hc' _ _ hp' =>
      rw [tip_append, tip_append] at ht
      have he := hinj (hk _ (by simp)) (hk' _ (by simp)) ht
      subst he
      have hcut : ∀ {l : List Header} {x : Header}, (∀ y ∈ genesis :: (l ++ [x]), y ∈ K) →
          ∀ y ∈ genesis :: l, y ∈ K := by
        intro l x hl y hy
        apply hl y
        exact mem_append_left _ hy
      rw [ih hc' (hcut hk) (hcut hk') (hp.symm.trans hp')]

theorem fromGenesis_append {C} {config} {genesis} {hs hs'} {s'} :
    fromGenesis C config genesis (hs ++ hs') = .ok s' ↔
      ∃ s, fromGenesis C config genesis hs = .ok s ∧ replay C s hs' = .ok s' := by
  simp only [fromGenesis, bind_eq_ok, replay_append]
  constructor
  · rintro ⟨s₀, h₀, s, hs, hs'⟩
    exact ⟨s, ⟨s₀, h₀, hs⟩, hs'⟩
  rintro ⟨s, ⟨s₀, h₀, hs⟩, hs'⟩
  exact ⟨s₀, h₀, s, hs, hs'⟩

theorem replay_singleton {C} {s s'} {h} : replay C s [h] = .ok s' ↔ applyOne C s h = .ok s' := by
  rw [← apply_iff_replay]
  rfl

theorem fromGenesis_tip {C} {config} {genesis} {hs} {s} (h : fromGenesis C config genesis hs = .ok s) :
    s.hash = (tip genesis hs).hash C ∧ s.config = config := by
  obtain ⟨s₀, h₀, hr⟩ := bind_eq_ok.mp h
  obtain ⟨vs, _, hp⟩ := bind_eq_ok.mp h₀
  cases hp
  refine ⟨?_, replay_config hr⟩
  cases hs using reverseRecOn with
  | nil => cases hr; rfl
  | append_singleton hs hd =>
    obtain ⟨s₁, _, ha⟩ := replay_append.mp hr
    obtain ⟨_, t, _, rfl⟩ := applyOne_eq_ok.mp (replay_singleton.mp ha)
    rw [tip_append]
    rfl

theorem finish_trusted (E : Engine Γ Δ) (C : Crypto) (recents : Γ) (f : Found Δ) :
    (finish E C recents f).trusted = f.trusted := by
  rw [finish]
  cases f.snap >>= fun s => apply C s f.headers.reverse with
  | error e => rfl
  | ok s =>
    dsimp only
    split
    · cases store E f.db s <;> rfl
    · rfl

section

variable (E : Engine Γ Δ) (C : Crypto) (K : Set Header) (genesis : Header) {hash : Hash} {number : UInt64}
    {gathered : List Header}

def SoundEntry (hash : Hash) (s : Snapshot) : Prop :=
  ∃ hs, HeaderChain C genesis hs ∧ (∀ h ∈ genesis :: hs, h ∈ K) ∧
    (tip genesis hs).hash C = hash ∧ fromGenesis C E.config genesis hs = .ok s

def SoundCache (recents : Γ) : Prop :=
  ∀ hash s, E.cache.get recents hash = some s → SoundEntry E C K genesis hash s

def SoundDb (db : Δ) : Prop :=
  ∀ hash s, loadSnapshot E db hash = some s → SoundEntry E C K genesis hash s

variable {E C K genesis}

variable {hs : List Header} {s : Snapshot}

theorem SoundEntry.eq (hinj : Set.InjOn (Header.hash C) K)
    (hc : HeaderChain C genesis hs) (hk : ∀ h ∈ genesis :: hs, h ∈ K)
    (h : SoundEntry E C K genesis ((tip genesis hs).hash C) s) :
    fromGenesis C E.config genesis hs = .ok s := by
  obtain ⟨hs', hc', hk', ht, hs'⟩ := h
  rw [HeaderChain.unique hinj hc hc' hk hk' ht.symm]
  exact hs'

theorem soundEntry_of_fromGenesis (hc : HeaderChain C genesis hs)
    (hk : ∀ h ∈ genesis :: hs, h ∈ K) (h : fromGenesis C E.config genesis hs = .ok s) :
    SoundEntry E C K genesis s.hash s :=
  ⟨hs, hc, hk, (fromGenesis_tip h).1.symm, h⟩

theorem SoundCache.add {recents : Γ} (hr : SoundCache E C K genesis recents)
    (hs : SoundEntry E C K genesis s.hash s) :
    SoundCache E C K genesis (E.cache.add recents s.hash s) := by
  intro hash t ht
  rcases E.cache.get_add ht with ⟨rfl, rfl⟩ | hold
  · exact hs
  · exact hr hash t hold

theorem SoundEntry.config (h : SoundEntry E C K genesis hash s) : s.config = E.config := by
  obtain ⟨_, _, _, _, hs⟩ := h
  exact (fromGenesis_tip hs).2

theorem SoundDb.store {db : Δ} (hd : SoundDb E C K genesis db) (hs : SoundEntry E C K genesis s.hash s) :
    ∃ db', store E db s = .ok db' ∧ SoundDb E C K genesis db' := by
  obtain ⟨db', hput⟩ := E.db.put_isSome db s.hash s
  refine ⟨db', by rw [Retrieval.store, hput], ?_⟩
  intro hash t ht
  rw [loadSnapshot, E.db.get_put hput] at ht
  by_cases hk : hash = s.hash
  · rw [if_pos hk, map_some, some.injEq, ← hs.config] at ht
    rw [hk, ← ht]
    exact hs
  rw [if_neg hk] at ht
  exact hd hash t ht

theorem lookup_sound {recents : Γ} {db : Δ}
    (hr : SoundCache E C K genesis recents) (hd : SoundDb E C K genesis db)
    (hl : lookup E recents db number hash = some s) : SoundEntry E C K genesis hash s := by
  rw [lookup] at hl
  cases hg : E.cache.get recents hash with
  | some t =>
    rw [hg] at hl
    rw [← some.inj hl]
    exact hr hash t hg
  | none =>
    rw [hg] at hl
    by_cases hn : number % checkpointInterval = 0
    · rw [if_pos hn] at hl
      exact hd hash s hl
    rw [if_neg hn] at hl
    cases hl

/-- The walk down the chain `hs` stopped at a prefix of it, whose snapshot it
has, and gathered the rest. -/
structure FoundAt (E : Engine Γ Δ) (C : Crypto) (K : Set Header) (genesis : Header)
    (hs gathered : List Header) (f : Found Δ) : Prop where
  split : ∃ qs rs, hs = qs ++ rs ∧ f.headers = gathered ++ rs.reverse ∧
    f.snap = fromGenesis C E.config genesis qs
  db : SoundDb E C K genesis f.db

theorem startFrom_genesis {db : Δ} (hd : SoundDb E C K genesis db)
    (hc : HeaderChain C genesis []) (hk : genesis ∈ K) :
    FoundAt E C K genesis [] gathered (startFrom E C db 0 genesis gathered) := by
  have hfrom : fromGenesis C E.config genesis [] = checkpointSnapshot C E.config 0 genesis := by
    rw [fromGenesis]
    cases checkpointSnapshot C E.config 0 genesis <;> rfl
  rw [startFrom]
  cases hs : checkpointSnapshot C E.config 0 genesis with
  | error e => exact ⟨⟨[], [], rfl, by simp, by rw [hfrom, hs]⟩, hd⟩
  | ok s =>
    rw [hs] at hfrom
    obtain ⟨db', hstore, hd'⟩ := hd.store (soundEntry_of_fromGenesis hc (by simpa using hk) hfrom)
    simp only [hstore]
    exact ⟨⟨[], [], rfl, by simp, hfrom.symm⟩, hd'⟩

theorem startFrom_trusted {db : Δ} {checkpoint}
    (hn : number ≠ 0) : (startFrom E C db number checkpoint gathered).trusted = true := by
  rw [startFrom]
  cases checkpointSnapshot C E.config number checkpoint with
  | error e => simpa using hn
  | ok s =>
    dsimp only
    cases store E db s <;> simpa using hn

theorem gather_last (C : Crypto) (genesis : Header) {chain} {h} {n} (j : ℕ) (hn : numberU64 h = .ok n)
    (hdb : hs.length + 1 < j → chain.getHeader (h.hash C) n = some h) :
    gather C chain n (h.hash C) ((genesis :: (hs ++ [h])).drop j) = .ok h ∧
      ((genesis :: (hs ++ [h])).drop j).dropLast = (genesis :: hs).drop j := by
  rw [← cons_append]
  by_cases hj : j ≤ hs.length + 1
  · rw [drop_append_of_le_length hj, gather]
    simp [hn, bind, Except.bind]
  have hj' := Nat.lt_of_not_le hj
  rw [drop_eq_nil_of_le (by simp; omega), drop_eq_nil_of_le (by simp; omega), gather]
  simp [hdb hj']

theorem ofNat_succ_sub_one (n : ℕ) : UInt64.ofNat (n + 1) - 1 = UInt64.ofNat n := by
  rw [ofNat_add]
  exact UInt64.add_sub_cancel _ _

variable {chain : ChainHeaderReader} {recents : Γ} {db : Δ}

/-- The walk comes to an end at a block whose snapshot it knows. The induction
is on the chain below the block at which the walk stands. -/
theorem walk_sound (hinj : Set.InjOn (Header.hash C) K) (hgen : chain.getHeaderByNumber 0 = some genesis)
    (hr : SoundCache E C K genesis recents) (hd : SoundDb E C K genesis db) {j : ℕ}
    (hc : HeaderChain C genesis hs) (hk : ∀ h ∈ genesis :: hs, h ∈ K)
    (hdb : ∀ i h, hs[i]? = some h → i + 1 < j → chain.getHeader (h.hash C) (UInt64.ofNat (i + 1)) = some h)
    {fuel : ℕ} (hfuel : hs.length < fuel) (gathered : List Header) :
    ∃ f, walk E C chain recents db fuel (UInt64.ofNat hs.length) ((tip genesis hs).hash C)
        ((genesis :: hs).drop j) gathered = some f ∧
      (f.trusted = false → FoundAt E C K genesis hs gathered f) := by
  induction hc generalizing fuel gathered with
  | genesis hn =>
    obtain ⟨fuel, rfl⟩ := exists_eq_succ_of_ne_zero (ne_of_gt hfuel)
    have hc : HeaderChain C genesis [] := .genesis hn
    have hg : genesis ∈ K := hk genesis (by simp)
    rw [walk]
    cases hl : lookup E recents db (ofNat ([] : List Header).length) ((tip genesis []).hash C) with
    | some s =>
      have hs := (lookup_sound hr hd hl).eq hinj hc hk
      exact ⟨_, rfl, fun _ => ⟨⟨[], [], rfl, by simp, hs.symm⟩, hd⟩⟩
    | none =>
      have hcp : checkpointHeader E chain (ofNat ([] : List Header).length) gathered.length =
          some genesis := by
        exact hgen
      simp only [hcp]
      exact ⟨_, rfl, fun _ => startFrom_genesis hd hc hg⟩
  | @extend hs h hc hlt hn hp ih =>
    obtain ⟨fuel, rfl⟩ := exists_eq_succ_of_ne_zero (ne_of_gt (zero_lt_of_lt hfuel))
    have hchain := HeaderChain.extend hc hlt hn hp
    have hlen : (hs ++ [h]).length = hs.length + 1 := by simp
    rw [walk, hlen, tip_append]
    rw [hlen] at hfuel
    cases hl : lookup E recents db (ofNat (hs.length + 1)) (h.hash C) with
    | some s =>
      rw [← tip_append genesis hs h] at hl
      have hs' := (lookup_sound hr hd hl).eq hinj hchain hk
      exact ⟨_, rfl, fun _ => ⟨⟨hs ++ [h], [], by simp, by simp, hs'.symm⟩, hd⟩⟩
    | none =>
      cases hcp : checkpointHeader E chain (ofNat (hs.length + 1)) gathered.length with
      | some checkpoint =>
        refine ⟨_, rfl, fun htrust => ?_⟩
        rw [startFrom_trusted (ofNat_succ_ne_zero hlt)] at htrust
        cases htrust
      | none =>
        have hlast : hs.length + 1 < j → chain.getHeader (h.hash C) (ofNat (hs.length + 1)) = some h :=
          hdb hs.length h (by simp)
        obtain ⟨hgather, hdrop⟩ := gather_last C genesis j hn hlast
        simp only [hgather, hdrop, hp, ofNat_succ_sub_one]
        have hk' : ∀ x ∈ genesis :: hs, x ∈ K := by
          intro x hx
          apply hk x
          exact mem_append_left _ hx
        have hdb' : ∀ i x, hs[i]? = some x → i + 1 < j → chain.getHeader (x.hash C) (ofNat (i + 1)) = some x := by
          intro i x hi
          apply hdb i x
          rw [getElem?_append_left (List.getElem?_eq_some_iff.mp hi).1]
          exact hi
        obtain ⟨f, hf, hfound⟩ := ih hk' hdb' (lt_of_succ_lt_succ hfuel) (gathered ++ [h])
        refine ⟨f, hf, fun htrust => ?_⟩
        obtain ⟨⟨qs, rs, hsplit, hheaders, hsnap⟩, hsound⟩ := hfound htrust
        refine ⟨⟨qs, rs ++ [h], ?_, ?_, hsnap⟩, hsound⟩
        · rw [hsplit, append_assoc]
        rw [hheaders]
        simp

/-- Applying what was gathered gives the snapshot of the chain, and whatever is
stored on the way is sound again. -/
theorem finish_sound {f} (hr : SoundCache E C K genesis recents)
    (hc : HeaderChain C genesis hs) (hk : ∀ h ∈ genesis :: hs, h ∈ K)
    (hf : FoundAt E C K genesis hs [] f) :
    (∀ s, (finish E C recents f).result = .ok s ↔ fromGenesis C E.config genesis hs = .ok s) ∧
      SoundCache E C K genesis (finish E C recents f).recents ∧
      SoundDb E C K genesis (finish E C recents f).db := by
  obtain ⟨⟨qs, rs, hsplit, hheaders, hsnap⟩, hd⟩ := hf
  have hrun : ∀ s, (f.snap >>= fun s => apply C s f.headers.reverse) = .ok s ↔
      fromGenesis C E.config genesis hs = .ok s := by
    intro s
    rw [bind_eq_ok, hsplit, fromGenesis_append, hsnap, hheaders, nil_append, reverse_reverse]
    simp only [apply_iff_replay]
  rw [finish]
  cases hres : f.snap >>= fun s => apply C s f.headers.reverse with
  | error e =>
    refine ⟨fun s => ?_, hr, hd⟩
    rw [← hrun s, hres]
  | ok s =>
    have hentry := soundEntry_of_fromGenesis hc hk ((hrun s).mp hres)
    have hresult : ∀ t, (.ok s : Except Error Snapshot) = .ok t ↔
        fromGenesis C E.config genesis hs = .ok t := by
      intro t
      rw [← hres]
      exact hrun t
    dsimp only
    split
    · obtain ⟨db', hstore, hd'⟩ := hd.store hentry
      rw [hstore]
      exact ⟨hresult, hr.add hentry, hd'⟩
    · exact ⟨hresult, hr.add hentry, hd⟩

/-- Retrieval does not depend on what happens to be cached or stored, nor on
which ancestors come as explicit parents: the snapshot is the one obtained from
genesis, header by header. -/
theorem snapshot_transparent (hinj : Set.InjOn (Header.hash C) K)
    (hgen : chain.getHeaderByNumber 0 = some genesis)
    (hr : SoundCache E C K genesis recents) (hd : SoundDb E C K genesis db) {j : ℕ}
    {hs : List Header} (hc : HeaderChain C genesis hs) (hk : ∀ h ∈ genesis :: hs, h ∈ K)
    (hdb : ∀ i h, hs[i]? = some h → i + 1 < j →
      chain.getHeader (h.hash C) (UInt64.ofNat (i + 1)) = some h)
    {fuel : ℕ} (hfuel : hs.length < fuel) :
    (∃ o, snapshot E C chain recents db fuel (UInt64.ofNat hs.length) ((tip genesis hs).hash C)
        ((genesis :: hs).drop j) = some o ∧
      (o.trusted = false →
        (∀ s, o.result = .ok s ↔ fromGenesis C E.config genesis hs = .ok s) ∧
        SoundCache E C K genesis o.recents ∧ SoundDb E C K genesis o.db)) ∧
    ∀ s hs₁ hs₂ s', apply C s (hs₁ ++ hs₂) = .ok s' ↔
      ∃ s₁, apply C s hs₁ = .ok s₁ ∧ apply C s₁ hs₂ = .ok s' := by
  refine ⟨?_, fun _ _ _ _ => apply_append⟩
  obtain ⟨f, hf, hfound⟩ := walk_sound hinj hgen hr hd hc hk hdb hfuel []
  refine ⟨finish E C recents f, ?_, fun htrust => ?_⟩
  · rw [snapshot, hf]
    rfl
  rw [finish_trusted] at htrust
  exact finish_sound hr hc hk (hfound htrust)

end

def mapCache : SnapshotCache (Hash → Option Snapshot) where
  get c := c
  add c h s := update c h (some s)
  get_add := by
    intro c h s k t ht
    by_cases hk : k = h
    · subst k
      rw [update_self, Option.some.injEq] at ht
      exact .inl ⟨rfl, ht.symm⟩
    · rw [update_of_ne hk] at ht
      exact .inr ht

def mapDb : SnapshotDb (Hash → Option Snapshot) where
  get d := d
  put d h s := some (update d h (some s))
  put_isSome d h s := ⟨_, rfl⟩
  get_put := by
    intro d d' h s hput k
    rw [← Option.some.inj hput, update_apply]

def sampleEngine : Engine (Hash → Option Snapshot) (Hash → Option Snapshot) :=
  ⟨sampleConfig 200, by decide, mapCache, mapDb⟩

def emptyUncleHash : Hash :=
  hexToHash 0x1dcc4de8dec75d7aab85b567b6ccd41ad312451b948a7413f0a142fd40d49347

/-- Hashes and signatures of a chain, as they were recorded. -/
def chainCrypto (genesis : Header) (hash : Hash) (rs : List Recorded) : Crypto :=
  Crypto.ofTables (((Rlp.Encode.write genesis.value).toOption.getD [], hash) ::
      ([0xc0], emptyUncleHash) :: sampleKeys.map (fun k => (k.1.toList.drop 1, k.2)) ++ rs.flatMap Recorded.hashes) (rs.map Recorded.key)

def sampleGenesis : Header :=
  { Header.zero with
    uncleHash := emptyUncleHash
    difficulty := some 1
    number := some 0
    gasLimit := 30000000
    extra := sampleExtra }

def sampleGenesisHash : Hash :=
  hexToHash 0xb431bc09809e4edc81632f525aeb76fee65ec361776d4c43f64efd65de8a94e2

def firstBlock : Recorded where
  header :=
    { Header.zero with
      parentHash := sampleGenesisHash
      uncleHash := emptyUncleHash
      coinbase := addressOne
      difficulty := some 2
      number := some 1
      gasLimit := 30000000
      time := 3
      extra := ⟨List.replicate 32 0 ++ (ofNat 65 0xfb88d5f42a27ae71a69e0d2ec959aa50d3c05a898892b46ecc445487c090904c3bf2547a977d7e30d13bd5c0013b4b9b7eecd99e743f033cdd8bafb853f260e600).toList, by simp⟩ }
  sealHash := hexToHash 0xb1e684c5c7ce7a79cf7ff39dcfd4cb8829ede018d4240a0ae0276d7723496631
  hash := hexToHash 0x86f468a722b641f6ebcc14c36af329114f1ab2082606425a53c192b3bc8226a8
  pub := pubOne

def sampleCrypto : Crypto := chainCrypto sampleGenesis sampleGenesisHash [firstBlock]

theorem sampleChain : HeaderChain sampleCrypto sampleGenesis [firstBlock.header] :=
  .extend (.genesis (by decide)) (by decide) (by decide) (by decide +kernel)

/-- Genesis with two validators. -/
def pairGenesis : Header :=
  { sampleGenesis with
    extra := ⟨List.replicate 32 0 ++ addressOne.toList ++ addressTwo.toList ++ List.replicate 65 0, by simp⟩ }

def pairGenesisHash : Hash :=
  hexToHash 0xab105514e45ea360d9075e77e10f758ff0937e54ccc7c2a8529ba6deebf2cc0b

def pairOne : Recorded where
  header :=
    { firstBlock.header with
      parentHash := pairGenesisHash
      extra := ⟨List.replicate 32 0 ++ (ofNat 65 0xf12f63e9aa178f33552222aff142181dfe387fefa1d1d63d3093322bb893a8812c981db65935bb37bc32447ab904160c9d327082bba5e098f24c00ffd95b1fb000).toList, by simp⟩ }
  sealHash := hexToHash 0x99b5cde1e54373b2acb06bbf4c92b0d192b9621bdb9a465775acd3c77a0027d6
  hash := hexToHash 0xffb66c762e98ecc358f6e5b06bbdd11db0a2d986553f78f8c6dda66ba5b135b7
  pub := pubOne

/-- The second block lists both validators again. -/
def pairTwo : Recorded where
  header :=
    { firstBlock.header with
      parentHash := pairOne.hash
      coinbase := addressTwo
      number := some 2
      time := 6
      extra := ⟨List.replicate 32 0 ++ addressOne.toList ++ addressTwo.toList ++ (ofNat 65 0x9fade36e2f7b274b09be2338933636d5d4ffc6ad98c7eb8eaf198f35c1e0d68a470ee38dce2e94172abed2a56123d065a00b2120e6aeb40c57f9b593615d525101).toList, by simp⟩ }
  sealHash := hexToHash 0x8b640da59502907b569415617141611eed01c821b28213926828b2d1fc746bdd
  hash := hexToHash 0xf64d88363899ff0778980e0fba44e76ef35b37d1768b386adf359fbf95553859
  pub := pubTwo

def pairCrypto : Crypto := chainCrypto pairGenesis pairGenesisHash [pairOne, pairTwo]

theorem pairChain_one : HeaderChain pairCrypto pairGenesis [pairOne.header] :=
  .extend (.genesis (by decide)) (by decide) (by decide) (by decide +kernel)

theorem pairChain : HeaderChain pairCrypto pairGenesis [pairOne.header, pairTwo.header] :=
  .extend pairChain_one (by decide) (by decide) (by decide +kernel)

def pairEngine : Engine (Hash → Option Snapshot) (Hash → Option Snapshot) :=
  ⟨sampleConfig 2, by decide, mapCache, mapDb⟩

def pairReader : ChainHeaderReader where
  getHeader hash number := if hash = pairOne.hash ∧ number = 1 then some pairOne.header else none
  getHeaderByNumber number :=
    if number = 0 then some pairGenesis else if number = 1 then some pairOne.header else none

theorem pair_injOn :
    Set.InjOn (Header.hash pairCrypto) {pairGenesis, pairOne.header, pairTwo.header} := by
  have h₀ : pairGenesis.hash pairCrypto = pairGenesisHash := by decide +kernel
  have h₁ : pairOne.header.hash pairCrypto = pairOne.hash := by decide +kernel
  have h₂ : pairTwo.header.hash pairCrypto = pairTwo.hash := by decide +kernel
  have hne : pairGenesisHash ≠ pairOne.hash ∧ pairGenesisHash ≠ pairTwo.hash ∧ pairOne.hash ≠ pairTwo.hash := by
    decide
  rintro a (rfl | rfl | rfl) b (rfl | rfl | rfl) h <;> simp_all

def firstQuery : Option (Outcome (Hash → Option Snapshot) (Hash → Option Snapshot)) :=
  snapshot pairEngine pairCrypto pairReader (fun _ => none) (fun _ => none) 2 1
    (pairOne.header.hash pairCrypto) []

/-- The second block is given and not in the database. -/
def secondQuery (recents db : Hash → Option Snapshot) :
    Option (Outcome (Hash → Option Snapshot) (Hash → Option Snapshot)) :=
  snapshot pairEngine pairCrypto pairReader recents db 3 2 (pairTwo.header.hash pairCrypto) [pairTwo.header]

/-- The snapshot of the first block is rebuilt and remembered, and the one of the second block made from it. -/
theorem snapshot_transparent_second : ∃ o₁ o₂ s, firstQuery = some o₁ ∧
    secondQuery o₁.recents o₁.db = some o₂ ∧ (o₁.recents pairOne.hash).isSome = true ∧ o₂.result = .ok s ∧
    fromGenesis pairCrypto (sampleConfig 2) pairGenesis [pairOne.header, pairTwo.header] = .ok s := by
  have hempty : SoundCache pairEngine pairCrypto {pairGenesis, pairOne.header, pairTwo.header} pairGenesis
      (fun _ => none) := by
    intro _ _ h
    cases h
  have hblank : SoundDb pairEngine pairCrypto {pairGenesis, pairOne.header, pairTwo.header} pairGenesis
      (fun _ => none) := by
    intro _ _ h
    cases h
  have hgen : pairReader.getHeaderByNumber 0 = some pairGenesis := rfl
  have hstored : pairReader.getHeader (pairOne.header.hash pairCrypto) 1 = some pairOne.header := by
    decide +kernel
  have hrun : (firstQuery.bind fun o₁ => (secondQuery o₁.recents o₁.db).map fun o₂ =>
      (!o₁.trusted && !o₂.trusted && (o₁.recents pairOne.hash).isSome && o₂.result.isOk)) = some true := by
    decide +kernel
  obtain ⟨⟨o₁, ho₁, hsound₁⟩, _⟩ := snapshot_transparent (j := 2) pair_injOn hgen hempty hblank pairChain_one
    (by simp) (fun i h hi hlt => by
      obtain rfl : i = 0 := by omega
      cases hi
      exact hstored) (show 1 < 2 by decide)
  have hfirst : firstQuery = some o₁ := ho₁
  rw [hfirst, bind_some] at hrun
  obtain ⟨o₂, hsecond, hall⟩ := map_eq_some_iff.mp hrun
  simp only [Bool.and_eq_true, Bool.not_eq_true'] at hall
  obtain ⟨-, hr, hd⟩ := hsound₁ hall.1.1.1
  obtain ⟨⟨o, ho, hsound₂⟩, _⟩ := snapshot_transparent (j := 2) pair_injOn hgen hr hd pairChain
    (by simp) (fun i h hi hlt => by
      obtain rfl : i = 0 := by omega
      cases hi
      exact hstored) (show 2 < 3 by decide)
  obtain rfl : o = o₂ := some.inj (ho.symm.trans hsecond)
  obtain ⟨s, hs⟩ := exists_of_isOk hall.2
  exact ⟨o₁, o, s, hfirst, hsecond, hall.1.2, hs, ((hsound₂ hall.1.1.2).1 s).mp hs⟩

end Geth.Congress.Retrieval
