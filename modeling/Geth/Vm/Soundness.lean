import Geth.Vm.Frames

namespace Geth.Vm.Soundness

open State.Revert Machine Instructions GasTable JumpTable Effects Metering
open Executions Frames List UInt8 Function
open SstoreMetering (fair_of_mem)

def isHalt (op : UInt8) : Bool := decide (op ∈ [0x00, 0xF3, 0xFD, 0xFF])

/-- What the interpreter relies on in its table. An operation that goes on costs
something, one that enters another contract even before its dynamic gas. -/
structure Sound (w : Prop) (env : Env) (op : UInt8) (o : Operation) : Prop where
  executes : Executes w env op o.minStack o.memorySize o.execute
  meters : (o.dynamicGas = none ∧ usesMemory op = false ∧ isCall op = false) ∨
    ∃ f, o.dynamicGas = some f ∧ Meters w env op f
  memory : usesMemory op = false → o.memorySize = none
  writes : isWrite op = true → o.writes = true
  halts : isHalt op = true → o.halts = true ∨ o.reverts = true
  priced : isHalt op = true ∨ 0 < o.constantGas.toNat ∨ ∃ f, o.dynamicGas = some f ∧ Charges env f
  nested : nests op = true → 0 < o.constantGas.toNat

def SoundTable (w : Prop) (env : Env) (table : JumpTable) : Prop := ∀ e ∈ table, Sound w env e.1 e.2

variable {w : Prop} {env : Env} {op : UInt8}

/-- A code of which nothing is known but that it costs something. -/
def isOrdinary (op : UInt8) : Bool :=
  !isWrite op && !isHalt op && !nests op && !isCall op

section

/-- What the code of an operation at a fixed cost is. -/
def isFixed (op : UInt8) : Bool := isOrdinary op && !usesMemory op

theorem isOrdinary_spec (h : isOrdinary op = true) :
    isWrite op = false ∧ isHalt op = false ∧ nests op = false ∧ isCall op = false := by
  simpa [isOrdinary, and_assoc] using h

theorem isFixed_spec (h : isFixed op = true) : isOrdinary op = true ∧ usesMemory op = false := by
  simpa [isFixed] using h

theorem sound_ordinary {o} (hop : isOrdinary op = true)
    (hexecutes : Executes w env op o.minStack o.memorySize o.execute)
    (hmeters : (o.dynamicGas = none ∧ usesMemory op = false ∧ isCall op = false) ∨
      ∃ f, o.dynamicGas = some f ∧ Meters w env op f)
    (hmemory : usesMemory op = false → o.memorySize = none)
    (hpriced : 0 < o.constantGas.toNat ∨ ∃ f, o.dynamicGas = some f ∧ Charges env f) :
    Sound w env op o := by
  obtain ⟨hwrite, hhalt, hnests, _⟩ := isOrdinary_spec hop
  refine ⟨hexecutes, hmeters, hmemory, fun h => ?_, fun h => ?_, .inr hpriced, fun h => ?_⟩
  · rw [hwrite] at h
    cases h
  · rw [hhalt] at h
    cases h
  rw [hnests] at h
  cases h

variable {execute : ExecutionFunc} {constantGas : UInt64} {pops : ℕ} (pushes : ℕ)

theorem sound_fixed
    (hop : isFixed op = true) (hgas : 0 < constantGas.toNat) (h : Executes w env op pops none execute) :
    Sound w env op (fixed execute constantGas pops pushes) := by
  obtain ⟨hordinary, hmemory⟩ := isFixed_spec hop
  obtain ⟨_, _, _, hcall⟩ := isOrdinary_spec hordinary
  exact sound_ordinary hordinary h (.inl ⟨rfl, hmemory, hcall⟩) (fun _ => rfl) (.inl hgas)

theorem sound_memorial {f} {memorySize} (hop : isOrdinary op = true) (hmemory : usesMemory op = true)
    (hgas : 0 < constantGas.toNat) (hf : Meters w env op f)
    (h : Executes w env op pops (some memorySize) execute) :
    Sound w env op (memorial execute constantGas f pops pushes memorySize) := by
  refine sound_ordinary hop h (.inr ⟨f, rfl, hf⟩) (fun hnot => ?_) (.inl hgas)
  rw [hmemory] at hnot
  cases hnot

end

section

variable {t : JumpTable} {f : GasFunc} {o : Operation} {gas : UInt64}

theorem sound_append {t'} (h : SoundTable w env t) (h' : SoundTable w env t') : SoundTable w env (t ++ t') :=
  forall_mem_append.mpr ⟨h, h'⟩

theorem sound_cons (ho : Sound w env op o) (h : SoundTable w env t) : SoundTable w env ((op, o) :: t) :=
  forall_mem_cons.mpr ⟨ho, h⟩

theorem sound_nil : SoundTable w env [] := forall_mem_nil _

theorem sound_modify {f} (h : SoundTable w env t)
    (hf : ∀ o, Sound w env op o → Sound w env op (f o)) : SoundTable w env (modify op f t) := by
  intro e he
  obtain ⟨e', he', rfl⟩ := mem_map.mp he
  split
  · next hop =>
    subst hop
    exact hf e'.2 (h e' he')
  · exact h e' he'

theorem modify_modify (f g : Operation → Operation) (t : JumpTable) :
    modify op g (modify op f t) = modify op (g ∘ f) t := by
  simp only [JumpTable.modify, map_map]
  refine map_congr_left fun e _ => ?_
  by_cases h : e.1 = op
  · simp only [comp_apply, if_pos h]
  · simp only [comp_apply, if_neg h]

theorem sound_constantGas (h : Sound w env op o) (hgas : 0 < gas.toNat) :
    Sound w env op { o with constantGas := gas } :=
  ⟨h.executes, h.meters, h.memory, h.writes, h.halts, .inr (.inl hgas), fun _ => hgas⟩

theorem sound_setConstantGas (h : SoundTable w env t) (hgas : 0 < gas.toNat) :
    SoundTable w env (setConstantGas op gas t) :=
  sound_modify h fun _ ho => sound_constantGas ho hgas

theorem sound_setDynamicGas (h : SoundTable w env t) (hf : Meters w env op f)
    (hpriced : isHalt op = true ∨ Charges env f) : SoundTable w env (setDynamicGas op f t) := by
  refine sound_modify h fun o hsound => ?_
  refine ⟨hsound.executes, .inr ⟨f, rfl, hf⟩, hsound.memory, hsound.writes, hsound.halts, ?_, hsound.nested⟩
  exact hpriced.imp id fun hcharges => .inr ⟨f, rfl, hcharges⟩

theorem sound_chargeAccess (h : SoundTable w env t) (hf : Meters w env op f) :
    SoundTable w env (chargeAccess op f t) := by
  rw [chargeAccess, setDynamicGas, setConstantGas, modify_modify]
  refine sound_modify h fun o hsound => ?_
  have hgas : 0 < SstoreGas.warmStorageReadCostEIP2929.toNat := by decide
  exact ⟨hsound.executes, .inr ⟨f, rfl, hf⟩, hsound.memory, hsound.writes, hsound.halts,
    .inr (.inl hgas), fun _ => hgas⟩

theorem sound_repriced (h : SoundTable w env t) (hnests : nests op = false)
    (hf : Meters w env op f) (hcharges : Charges env f) :
    SoundTable w env (setDynamicGas op f (setConstantGas op gas t)) := by
  rw [setDynamicGas, setConstantGas, modify_modify]
  refine sound_modify h fun o hsound => ?_
  refine ⟨hsound.executes, .inr ⟨f, rfl, hf⟩, hsound.memory, hsound.writes, hsound.halts,
    .inr (.inr ⟨f, rfl, hcharges⟩), fun hnot => ?_⟩
  rw [hnests] at hnot
  cases hnot

end

section

variable {gas : UInt64} (hop : isFixed op = true) (hgas : 0 < gas.toNat)
include hop hgas

theorem sound_replacing (f : Env → Evm → Scope → Word → Word) :
    Sound w env op (fixed (replacing f) gas 1 1) :=
  sound_fixed 1 hop hgas (executes_replacing f)

theorem sound_binary (f : Word → Word → Word) : Sound w env op (fixed (binary f) gas 2 1) :=
  sound_fixed 1 hop hgas (executes_binary f)

theorem sound_ternary (f : Word → Word → Word → Word) : Sound w env op (fixed (ternary f) gas 3 1) :=
  sound_fixed 1 hop hgas (executes_ternary f)

theorem sound_pushing (f : Env → Evm → Scope → Word) : Sound w env op (fixed (pushing f) gas 0 1) :=
  sound_fixed 1 hop hgas (executes_pushing f)

end

section

theorem sound_stop : Sound w env 0x00 { fixed opStop 0 0 0 with halts := true } :=
  ⟨executes_opStop, .inl ⟨rfl, rfl, rfl⟩, fun _ => rfl, fun h => absurd h (by decide), fun _ => .inl rfl,
    .inl rfl, fun h => absurd h (by decide)⟩

theorem sound_exp : Sound w env OpCode.exp { fixed opExp 0 2 1 with dynamicGas := some gasExpFrontier } :=
  sound_ordinary rfl (executes_binary _) (.inr ⟨_, rfl, meters_gasExp rfl rfl 10⟩) (fun _ => rfl)
    (.inr ⟨_, rfl, charges_gasExp (by decide)⟩)

theorem sound_arithmetic : SoundTable w env arithmetic := by
  refine sound_cons sound_stop ?_
  iterate 7 refine sound_cons (sound_binary rfl (by decide) _) ?_
  iterate 2 refine sound_cons (sound_ternary rfl (by decide) _) ?_
  refine sound_cons sound_exp ?_
  exact sound_cons (sound_binary rfl (by decide) _) sound_nil

theorem sound_block : SoundTable w env JumpTable.block := by
  refine sound_cons (sound_replacing rfl (by decide) _) ?_
  iterate 4 refine sound_cons (sound_pushing rfl (by decide) _) ?_
  exact sound_cons (sound_pushing rfl (by decide) _) sound_nil

theorem sound_pushes : SoundTable w env pushes := by
  refine sound_cons (sound_fixed 1 rfl (by decide) executes_opPush1) fun e he => ?_
  have hcodes : ∀ n ∈ range' 2 31, isFixed (ofNat (0x5F + n)) = true := by decide
  obtain ⟨n, hn, rfl⟩ := mem_map.mp he
  exact sound_fixed 1 (hcodes n hn) (by decide) (executes_makePush _ n)

theorem sound_dups : SoundTable w env dups := by
  intro e he
  have hcodes : ∀ n ∈ range' 1 16, isFixed (ofNat (0x7F + n)) = true ∧ 0 < n := by decide
  obtain ⟨n, hn, rfl⟩ := mem_map.mp he
  obtain ⟨hop, hpos⟩ := hcodes n hn
  exact sound_fixed (n + 1) hop (by decide) (executes_makeDup hpos)

theorem sound_swaps : SoundTable w env swaps := by
  intro e he
  have hcodes : ∀ n ∈ range' 1 16, isFixed (ofNat (0x8F + n)) = true := by decide
  obtain ⟨n, hn, rfl⟩ := mem_map.mp he
  exact sound_fixed (n + 1) (hcodes n hn) (by decide) (executes_makeSwap n)

variable (hC : AddressesDistinct env.crypto) {gas : UInt64} {f : GasFunc} {memorySize : MemorySizeFunc}
include hC

theorem sound_comparison : SoundTable w env comparison := by
  iterate 5 refine sound_cons (sound_binary rfl (by decide) _) ?_
  refine sound_cons (sound_replacing rfl (by decide) _) ?_
  iterate 3 refine sound_cons (sound_binary rfl (by decide) _) ?_
  refine sound_cons (sound_replacing rfl (by decide) _) ?_
  refine sound_cons (sound_binary rfl (by decide) _) ?_
  exact sound_cons (sound_memorial 1 rfl rfl (by decide) (meters_perWord rfl 1 6)
    (executes_opSha3 hC)) sound_nil

theorem sound_closure : SoundTable w env closure := by
  refine sound_cons (sound_pushing rfl (by decide) _) ?_
  refine sound_cons (sound_replacing rfl (by decide) _) ?_
  iterate 3 refine sound_cons (sound_pushing rfl (by decide) _) ?_
  refine sound_cons (sound_replacing rfl (by decide) _) ?_
  refine sound_cons (sound_pushing rfl (by decide) _) ?_
  refine sound_cons (sound_memorial 0 rfl rfl (by decide) (meters_perWord rfl 2 3)
    (executes_copying _)) ?_
  refine sound_cons (sound_pushing rfl (by decide) _) ?_
  refine sound_cons (sound_memorial 0 rfl rfl (by decide) (meters_perWord rfl 2 3)
    (executes_copying _)) ?_
  refine sound_cons (sound_pushing rfl (by decide) _) ?_
  refine sound_cons (sound_replacing rfl (by decide) _) ?_
  exact sound_cons (sound_memorial 0 rfl rfl (by decide) (meters_perWord rfl 3 3)
    (executes_opExtCodeCopy hC)) sound_nil

theorem sound_sstore : Sound w env OpCode.sstore
    { fixed opSstore 0 2 0 with dynamicGas := some gasSStore, writes := true } :=
  ⟨executes_opSstore hC rfl, .inr ⟨_, rfl, meters_gasSStore hC rfl rfl rfl⟩, fun _ => rfl, fun _ => rfl,
    fun h => absurd h (by decide), .inr (.inr ⟨_, rfl, charges_gasSStore⟩), fun h => absurd h (by decide)⟩

variable {execute : ExecutionFunc} {pops : ℕ}

omit hC in
theorem sound_jump (hop : isFixed op = true)
    (hgas : 0 < gas.toNat) (h : Executes w env op pops none execute) :
    Sound w env op { fixed execute gas pops 0 with jumps := true } :=
  have hs := sound_fixed 0 hop hgas h
  ⟨hs.executes, hs.meters, hs.memory, hs.writes, hs.halts, hs.priced, hs.nested⟩

theorem sound_flow : SoundTable w env flow := by
  refine sound_cons (sound_fixed 0 rfl (by decide) executes_opPop) ?_
  refine sound_cons (sound_memorial 1 rfl rfl (by decide) (meters_pureMemory rfl)
    executes_opMload) ?_
  refine sound_cons (sound_memorial 0 rfl rfl (by decide) (meters_pureMemory rfl)
    executes_opMstore) ?_
  refine sound_cons (sound_memorial 0 rfl rfl (by decide) (meters_pureMemory rfl)
    executes_opMstore8) ?_
  refine sound_cons (sound_fixed 1 rfl (by decide) (executes_opSload hC)) ?_
  refine sound_cons (sound_sstore hC) ?_
  refine sound_cons (sound_jump rfl (by decide) executes_opJump) ?_
  refine sound_cons (sound_jump rfl (by decide) executes_opJumpi) ?_
  iterate 3 refine sound_cons (sound_pushing rfl (by decide) _) ?_
  exact sound_cons (sound_fixed 0 rfl (by decide) executes_opJumpdest) sound_nil

theorem sound_logs : SoundTable w env logs := by
  intro e he
  have hcodes : ∀ n ∈ range 5, isWrite (ofNat (0xA0 + n)) = true ∧
      isCall (ofNat (0xA0 + n)) = false ∧ isHalt (ofNat (0xA0 + n)) = false ∧
      nests (ofNat (0xA0 + n)) = false ∧ usesMemory (ofNat (0xA0 + n)) = true := by decide
  obtain ⟨n, hn, rfl⟩ := mem_map.mp he
  obtain ⟨hwrite, hcall, hhalt, hnests, hmemory⟩ := hcodes n hn
  refine ⟨executes_makeLog hC hwrite n, .inr ⟨_, rfl, meters_withMemory hcall _⟩, fun h => ?_, fun _ => rfl,
    fun h => ?_, .inr (.inr ⟨_, rfl, charges_makeGasLog _⟩), fun h => ?_⟩
  · rw [hmemory] at h
    cases h
  · rw [hhalt] at h
    cases h
  rw [hnests] at h
  cases h

omit hC in
theorem sound_messaging (hwrite : isWrite op = false) (hhalt : isHalt op = false)
    (hmemory : usesMemory op = true) (hgas : 0 < gas.toNat) (hf : Meters w env op f)
    (h : Executes w env op pops (some memorySize) execute) :
    Sound w env op (messaging execute gas f pops memorySize) := by
  refine ⟨h, .inr ⟨f, rfl, hf⟩, fun hnot => ?_, fun hnot => ?_, fun hnot => ?_, .inr (.inl hgas),
    fun _ => hgas⟩
  · rw [hmemory] at hnot
    cases hnot
  · rw [hwrite] at hnot
    cases hnot
  rw [hhalt] at hnot
  cases hnot

omit hC in
theorem sound_creating (hhalt : isHalt op = false) (hmemory : usesMemory op = true)
    (hgas : 0 < gas.toNat) (hf : Meters w env op f) (h : Executes w env op pops (some memorySize) execute) :
    Sound w env op (creating execute gas f pops memorySize) := by
  refine ⟨h, .inr ⟨f, rfl, hf⟩, fun hnot => ?_, fun _ => rfl, fun hnot => ?_, .inr (.inl hgas), fun _ => hgas⟩
  · rw [hmemory] at hnot
    cases hnot
  rw [hhalt] at hnot
  cases hnot

omit hC in
theorem sound_return : Sound w env 0xF3 { memorial opReturn 0 gasReturn 2 0 memoryReturn with halts := true } :=
  ⟨executes_opReturn, .inr ⟨_, rfl, meters_pureMemory rfl⟩, fun h => absurd h (by decide),
    fun h => absurd h (by decide), fun _ => .inl rfl, .inl rfl, fun h => absurd h (by decide)⟩

theorem sound_selfdestruct : Sound w env OpCode.selfdestruct
    { fixed opSuicide 0 1 0 with dynamicGas := some gasSelfdestruct, halts := true, writes := true } :=
  ⟨executes_opSuicide hC rfl, .inr ⟨_, rfl, meters_gasSelfdestruct hC rfl rfl⟩, fun _ => rfl, fun _ => rfl,
    fun _ => .inl rfl, .inl rfl, fun h => absurd h (by decide)⟩

theorem sound_system (hE : env.rules.isEIP150 = true) : SoundTable w env system :=
  sound_cons (sound_creating rfl rfl (by decide) (meters_pureMemory rfl) (executes_opCreate hC)) <|
  sound_cons (sound_messaging rfl rfl rfl (by decide) (meters_callVariant hE rfl due_call)
    (executes_opCall hC)) <|
  sound_cons (sound_messaging rfl rfl rfl (by decide) (meters_callVariant hE rfl due_value)
    (executes_opCallCode hC)) <|
  sound_cons sound_return <| sound_cons (sound_selfdestruct hC) sound_nil

theorem sound_frontier (hE : env.rules.isEIP150 = true) : SoundTable w env newFrontierInstructionSet :=
  sound_append (sound_append (sound_append (sound_append (sound_append (sound_append (sound_append
    (sound_append (sound_append sound_arithmetic (sound_comparison hC)) (sound_closure hC)) sound_block)
      (sound_flow hC)) sound_pushes) sound_dups) sound_swaps) (sound_logs hC)) (sound_system hC hE)

end

section

variable (hC : AddressesDistinct env.crypto) (hE : env.rules.isEIP150 = true)
  (huses : usesAccessList env.rules = true)
include hC hE

theorem sound_homestead : SoundTable w env newHomesteadInstructionSet :=
  sound_cons (sound_messaging rfl rfl rfl (by decide) (meters_callVariant hE rfl (due_zero rfl))
    (executes_opDelegateCall hC)) (sound_frontier hC hE)

theorem sound_tangerineWhistle : SoundTable w env newTangerineWhistleInstructionSet := by
  iterate 7 refine sound_setConstantGas ?_ (by decide)
  exact sound_homestead hC hE

theorem sound_spuriousDragon : SoundTable w env newSpuriousDragonInstructionSet :=
  sound_setDynamicGas (sound_tangerineWhistle hC hE) (meters_gasExp rfl rfl 50)
    (.inr (charges_gasExp (by decide)))

omit hC hE in
theorem sound_revert : Sound w env 0xFD
    { memorial opRevert 0 gasRevert 2 0 memoryRevert with reverts := true, returns := true } :=
  ⟨executes_opReturn, .inr ⟨_, rfl, meters_pureMemory rfl⟩, fun h => absurd h (by decide),
    fun h => absurd h (by decide), fun _ => .inr rfl, .inl rfl, fun h => absurd h (by decide)⟩

theorem sound_byzantium : SoundTable w env newByzantiumInstructionSet :=
  sound_cons (sound_messaging rfl rfl rfl (by decide) (meters_callVariant hE rfl (due_zero rfl))
    (executes_opStaticCall hC)) <|
  sound_cons (sound_pushing rfl (by decide) _) <|
  sound_cons (sound_memorial 0 rfl rfl (by decide) (meters_perWord rfl 2 3)
    executes_opReturnDataCopy) <|
  sound_cons sound_revert (sound_spuriousDragon hC hE)

theorem sound_constantinople : SoundTable w env newConstantinopleInstructionSet := by
  iterate 3 refine sound_cons (sound_binary rfl (by decide) _) ?_
  refine sound_cons (sound_replacing rfl (by decide) _) ?_
  refine sound_cons ?_ (sound_byzantium hC hE)
  exact sound_creating rfl rfl (by decide) (meters_perWord rfl 2 6) (executes_opCreate2 hC)

omit hE in
theorem charges_schedule {R} (hR : R ∈ SstoreGas.schedules) : Charges env (meteredBy R) := by
  refine charges_meteredBy hC (fair_of_mem hR) ?_
  simp only [SstoreGas.schedules, mem_cons, not_mem_nil, or_false] at hR
  obtain rfl | rfl | rfl := hR <;> decide

theorem sound_istanbul : SoundTable w env newIstanbulInstructionSet := by
  refine sound_setDynamicGas (sound_setConstantGas ?_ (by decide)) (meters_meteredBy hC rfl rfl rfl fun h => absurd rfl h)
    (.inr (charges_schedule hC (by simp [SstoreGas.schedules])))
  refine sound_cons (sound_pushing rfl (by decide) _) ?_
  iterate 3 refine sound_setConstantGas ?_ (by decide)
  exact sound_cons (sound_pushing rfl (by decide) _) (sound_constantinople hC hE)

include huses

theorem sound_berlin : SoundTable w env newBerlinInstructionSet := by
  refine sound_setDynamicGas (sound_setConstantGas ?_ (by decide)) (meters_makeSelfdestruct hC rfl rfl true) (.inl rfl)
  iterate 2 refine sound_chargeAccess ?_ (meters_callEIP2929 hC hE rfl (due_zero rfl))
  refine sound_chargeAccess ?_ (meters_callEIP2929 hC hE rfl due_value)
  refine sound_chargeAccess ?_ (meters_callEIP2929 hC hE rfl due_call)
  iterate 3 refine sound_chargeAccess ?_ (meters_accountCheck hC rfl rfl)
  refine sound_chargeAccess ?_ (meters_extCodeCopy hC rfl)
  refine sound_repriced ?_ rfl (meters_gasSLoad hC rfl rfl) charges_gasSLoad
  exact sound_setDynamicGas (sound_istanbul hC hE) (meters_meteredBy hC rfl rfl rfl fun _ => huses)
    (.inr (charges_schedule hC (by simp [SstoreGas.schedules])))

theorem sound_london : SoundTable w env newLondonInstructionSet := by
  refine sound_cons (sound_pushing rfl (by decide) _) ?_
  refine sound_setDynamicGas ?_ (meters_makeSelfdestruct hC rfl rfl false) (.inl rfl)
  exact sound_setDynamicGas (sound_berlin hC hE huses) (meters_meteredBy hC rfl rfl rfl fun _ => huses)
    (.inr (charges_schedule hC (by simp [SstoreGas.schedules])))

omit huses in
theorem sound_instructionSet : SoundTable w env (instructionSet env.rules) := by
  rw [instructionSet]
  split
  · next hlondon =>
    exact sound_london hC hE (by rw [usesAccessList, hlondon, Bool.true_or])
  split
  · next hberlin =>
    exact sound_berlin hC hE (by rw [usesAccessList, hberlin, Bool.or_true])
  split
  · exact sound_istanbul hC hE
  split
  · exact sound_constantinople hC hE
  split
  · exact sound_byzantium hC hE
  split
  · exact sound_spuriousDragon hC hE
  exact sound_tangerineWhistle hC hE

end

end Geth.Vm.Soundness
