import Geth.Vm.JumpTable

namespace Geth.Vm.ExtraEips

open Common.Basic Machine JumpTable OpCode List

structure Config where
  jumpTable : JumpTable
  extraEips : List ℤ

/-- What activates an improvement, with the operations of the table that it writes to. -/
structure Activator where
  writes : List UInt8
  enable : JumpTable → JumpTable

def activators : ℤ → Option Activator
  | 3529 => some ⟨[sstore, selfdestruct], enable3529⟩
  | 3198 => some ⟨[], enable3198⟩
  | 2929 => some ⟨[sstore, sload, extCodeCopy, extCodeSize, extCodeHash, balance, call, callCode, staticCall,
      delegateCall, selfdestruct], enable2929⟩
  | 2200 => some ⟨[sload, sstore], enable2200⟩
  | 1884 => some ⟨[sload, balance, extCodeHash], enable1884⟩
  | 1344 => some ⟨[], enable1344⟩
  | _ => none

def validEip (eipNum : ℤ) : Bool := (activators eipNum).isSome

/-- An operation that is not in the table is a nil pointer. -/
def enableEIP (eipNum : ℤ) (jt : JumpTable) : Except Panic (Except String JumpTable) :=
  match activators eipNum with
  | none => .ok (.error ("undefined eip " ++ toString eipNum))
  | some a =>
    if ∀ op ∈ a.writes, op ∈ jt.map Prod.fst then .ok (.ok (a.enable jt)) else .error .nilPointer

def without (extraEips : List ℤ) (i : ℕ) : Except Panic (List ℤ) :=
  if extraEips = [] then .error .makeSliceLen
  else if extraEips.length < i + 1 then .error .sliceBounds
  else .ok (extraEips.eraseIdx i)

/-- The loop over the given list, whose places count although elements are taken out of the list that is left. -/
def activate : ℕ → List ℤ → JumpTable → List ℤ → Except Panic (JumpTable × List ℤ)
  | _, [], jt, extraEips => .ok (jt, extraEips)
  | i, eip :: eips, jt, extraEips => do
    match ← enableEIP eip jt with
    | .ok jt => activate (i + 1) eips jt extraEips
    | .error _ => activate (i + 1) eips jt (← without extraEips i)

def newEVMInterpreter (rules : Rules) (cfg : Config) : Except Panic Config :=
  match cfg.jumpTable.lookup 0x00 with
  | some _ => .ok cfg
  | none => do
    let (jt, extraEips) ← activate 0 cfg.extraEips (instructionSet rules) cfg.extraEips
    return ⟨jt, extraEips⟩

section

/-- The table has every operation the number's activator writes to. -/
def Allows (jt : JumpTable) (eip : ℤ) : Prop :=
  ∀ a ∈ activators eip, ∀ op ∈ a.writes, op ∈ jt.map Prod.fst

instance (jt : JumpTable) (eip : ℤ) : Decidable (Allows jt eip) :=
  inferInstanceAs (Decidable (∀ a ∈ activators eip, ∀ op ∈ a.writes, op ∈ jt.map Prod.fst))

/-- The tables have the same operations, apart from new ones, which no activator writes to. -/
def SameOps (jt jt' : JumpTable) : Prop :=
  ∀ op, op ∉ [0x46, 0x47, 0x48] → (op ∈ jt.map Prod.fst ↔ op ∈ jt'.map Prod.fst)

theorem mem_modify (op' op : UInt8) (f : Operation → Operation) (jt : JumpTable) :
    op' ∈ (JumpTable.modify op f jt).map Prod.fst ↔ op' ∈ jt.map Prod.fst := by
  have hkeys : (JumpTable.modify op f jt).map Prod.fst = jt.map Prod.fst := by
    rw [JumpTable.modify, map_map]
    refine map_congr_left fun e _ => ?_
    rw [Function.comp_apply]
    split <;> rfl
  rw [hkeys]

variable {jt jt' : JumpTable} {eip : ℤ} {a : Activator}

theorem sameOps_enable (h : activators eip = some a) : SameOps jt (a.enable jt) := by
  rw [activators.eq_def] at h
  intro op hop
  split at h <;> cases h <;>
    simp only [enable3529, enable3198, enable2929, enable2200, enable1884, enable1344, chargeAccess, setDynamicGas,
      setConstantGas, mem_modify, map_cons, mem_cons, mem_nil_iff, or_false, not_or] at hop ⊢
  all_goals simp only [hop, false_or]

theorem allows_congr (h : SameOps jt jt') : Allows jt eip ↔ Allows jt' eip := by
  have hold : ∀ a ∈ activators eip, ∀ op ∈ a.writes, op ∉ [0x46, 0x47, 0x48] := by
    rw [activators.eq_def]
    split <;> simp only [Option.mem_some_iff, forall_eq', Option.not_mem_none, IsEmpty.forall_iff, implies_true]
      <;> decide +kernel
  exact forall₂_congr fun a ha => forall₂_congr fun op hop => h op (hold a ha op hop)

end

section

variable {i k : ℕ} {eip : ℤ} {eips extraEips l p : List ℤ} {jt : JumpTable}

/-- What the loop leaves of the list, where no operation is missing. -/
def remaining : ℕ → List ℤ → List ℤ → Except Panic (List ℤ)
  | _, [], extraEips => .ok extraEips
  | i, eip :: eips, extraEips =>
    if validEip eip then remaining (i + 1) eips extraEips
    else without extraEips i >>= remaining (i + 1) eips

theorem activate_ok_iff : (∃ jt', activate i eips jt extraEips = .ok (jt', l)) ↔
    (∀ x ∈ eips, Allows jt x) ∧ remaining i eips extraEips = .ok l := by
  induction eips generalizing i jt extraEips with
  | nil =>
    rw [activate, remaining]
    simp
  | cons eip eips ih =>
    rw [activate, enableEIP, remaining, validEip, forall_mem_cons, and_assoc]
    cases ha : activators eip with
    | none =>
      have hallows : Allows jt eip := fun a h => absurd (ha.symm.trans h) nofun
      cases hrest : without extraEips i with
      | error e => simp [bind, Except.bind]
      | ok rest => simpa [bind, Except.bind, hrest, hallows] using ih
    | some a =>
      have hallows : Allows jt eip ↔ ∀ op ∈ a.writes, op ∈ jt.map Prod.fst := by
        simp only [Allows, ha, Option.mem_some_iff, forall_eq']
      rw [hallows]
      by_cases hops : ∀ op ∈ a.writes, op ∈ jt.map Prod.fst
      · have hsame (x : ℤ) : Allows jt x ↔ Allows (a.enable jt) x := allows_congr (sameOps_enable ha)
        simp only [if_pos hops, and_iff_right hops, hsame]
        exact ih
      simp only [hops]
      exact iff_of_false nofun nofun

theorem without_eq_ok : without extraEips i = .ok l ↔ i < extraEips.length ∧ extraEips.eraseIdx i = l := by
  rw [without]
  split
  · simp [*]
  split
  · simp; omega
  · simp; omega

theorem remaining_get (h : remaining i eips extraEips = .ok l) (hk : k < i) : l[k]? = extraEips[k]? := by
  induction eips generalizing i extraEips with
  | nil =>
    cases h
    rfl
  | cons eip eips ih =>
    rw [remaining] at h
    split at h
    · exact ih h (by omega)
    obtain ⟨rest, hrest, h⟩ := bind_eq_ok.mp h
    rw [ih h (by omega), ← (without_eq_ok.mp hrest).2, getElem?_eraseIdx_of_lt hk]

theorem remaining_known (h : ∀ x ∈ eips, validEip x = true) : remaining i eips extraEips = .ok extraEips := by
  induction eips generalizing i with
  | nil => rfl
  | cons eip eips ih =>
    rw [forall_mem_cons] at h
    rw [remaining, if_pos h.1, ih h.2]

/-- After a removal the next unknown number stands before the place the loop has come to, and stays. -/
theorem remaining_second (h : remaining (p.length + 1) eips (p ++ eips) = .ok l)
    (hl : ∀ x ∈ l, validEip x = true) : ∀ x ∈ eips, validEip x = true := by
  induction eips generalizing p with
  | nil => simp
  | cons x eips ih =>
    have hx : validEip x = true := by
      have hget := remaining_get h (Nat.lt_succ_self p.length)
      rw [getElem?_append_right le_rfl, Nat.sub_self] at hget
      exact hl x (mem_of_getElem? hget)
    rw [remaining, if_pos hx] at h
    have hrest := ih (p := p ++ [x]) (by simpa using h)
    exact forall_mem_cons.mpr ⟨hx, hrest⟩

theorem remaining_eq_filter (hp : ∀ x ∈ p, validEip x = true) :
    remaining p.length eips (p ++ eips) = .ok (p ++ eips.filter validEip) ↔
      eips.countP (!validEip ·) ≤ 1 := by
  induction eips generalizing p with
  | nil => simp [remaining]
  | cons x eips ih =>
    rw [remaining]
    by_cases hx : validEip x = true
    · have h := ih (p := p ++ [x]) (by simpa [or_imp, forall_and, hx] using hp)
      simpa [hx] using h
    have hcut : without (p ++ x :: eips) p.length = .ok (p ++ eips) := by
      rw [without_eq_ok, eraseIdx_append_of_length_le le_rfl]
      simp
    have hnone : eips.countP (!validEip ·) + 1 ≤ 1 ↔ ∀ y ∈ eips, validEip y = true := by simp
    rw [if_neg hx, hcut, filter_cons_of_neg hx, countP_cons_of_pos (by simpa using hx), hnone]
    refine ⟨fun h => remaining_second h ?_, fun h => ?_⟩
    · simpa [or_imp, forall_and] using hp
    rw [filter_eq_self.mpr h]
    exact remaining_known h

end

theorem extraEips_faithful_iff (rules : Rules) {cfg : Config} (h : cfg.jumpTable.lookup 0x00 = none) :
    (∃ cfg', newEVMInterpreter rules cfg = .ok cfg' ∧ cfg'.extraEips = cfg.extraEips.filter validEip) ↔
      (∀ eip ∈ cfg.extraEips, Allows (instructionSet rules) eip) ∧ cfg.extraEips.countP (!validEip ·) ≤ 1 := by
  rw [← remaining_eq_filter (p := []) (by simp), length_nil, nil_append, nil_append,
    ← activate_ok_iff, newEVMInterpreter, h]
  constructor
  · rintro ⟨cfg', hcfg, hlist⟩
    obtain ⟨⟨jt, l⟩, hrun, hret⟩ := bind_eq_ok.mp hcfg
    cases hret
    exact ⟨jt, hlist ▸ hrun⟩
  rintro ⟨jt, hrun⟩
  exact ⟨⟨jt, _⟩, bind_eq_ok.mpr ⟨_, hrun, rfl⟩, rfl⟩

def londonRules : Rules := ⟨true, true, true, true, true, true, true, true, true⟩

theorem extraEips_faithful_one_unknown : ∃ cfg', newEVMInterpreter londonRules ⟨[], [1344, 1, 2929]⟩ = .ok cfg' ∧
    cfg'.extraEips = [1344, 2929] :=
  (extraEips_faithful_iff londonRules rfl).mpr (by decide +kernel)

/-- The second unknown number stays, and a known one is removed in its place. -/
theorem extraEips_loses_known :
    (newEVMInterpreter londonRules ⟨[], [1, 2, 1344]⟩).toOption.map Config.extraEips = some [2] ∧
      [1, 2, 1344].filter validEip = [1344] := by
  decide +kernel

end Geth.Vm.ExtraEips
