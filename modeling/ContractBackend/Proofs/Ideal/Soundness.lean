import ContractBackend.Proofs.Ideal.Optimizing
import ContractBackend.Proofs.Run.Convention
import ContractBackend.Proofs.Slots.Initialized

/-!
# Runs of the ideal machine do not get stuck in the code

In a run of static code on the ideal machine, every activation has the values that its next
instruction works on, every slot that is loaded has a value, and a subroutine returns with what it
is declared to return.
-/

namespace ContractBackend

open Machine (Limits Environment Value Flow)

namespace Ideal

variable {limits : Limits} {env : Environment} {below : Nat} {instr : Instr}
  {memory after : Memory} {flow : Flow} {slot : Slot}

/-- What an instruction does with the operands that it can tell is its stack effect. -/
theorem touched_of_bare {arguments : List Argument} {effect : StackEffect}
    (resolved : instr.operands.mapM Operand.bare? = some arguments)
    (known : instr.effect? = some effect) :
    Machine.touched instr.op arguments = effect.pops ∧
      Machine.yielded instr.op arguments = effect.pushes := by
  refine Machine.touched_of_depth known fun _ depth others operands => ?_
  simp only [operands, List.mapM_cons, Operand.bare?, Option.pure_def, Option.bind_eq_bind,
    Option.bind_some, Option.bind_eq_some_iff, Option.some.injEq] at resolved
  obtain ⟨rest, _, rfl⟩ := resolved
  exact ⟨rest, rfl⟩

namespace Acts

/-- An instruction finds the values that it takes, and leaves those that it makes. -/
theorem length (acts : Acts limits env below instr memory flow after) {effect : StackEffect}
    (known : instr.effect? = some effect) :
    after.stack.length = memory.stack.length - effect.pops + effect.pushes := by
  cases acts with
  | load =>
    cases known
    rfl
  | store isStack =>
    cases known
    simp [isStack]
  | plain _ resolved isOk =>
    obtain ⟨pops, pushes⟩ := touched_of_bare resolved known
    obtain ⟨made, count, isStack⟩ := (Machine.flows_of_execute isOk).2.stack
    simp only [Memory.take]
    rw [isStack, List.length_append, List.length_drop, count, pops, pushes, Nat.add_comm]
    rfl

/-- A slot without a value had none before, and nothing has been stored to it. -/
theorem of_slots_eq_none (acts : Acts limits env below instr memory flow after)
    (none : after.slots slot = none) :
    memory.slots slot = Option.none ∧ instr.storesTo slot = false := by
  cases acts with
  | load => exact ⟨none, rfl⟩
  | @store stored _ _ value =>
    by_cases same : slot = stored
    · subst same
      simp at none
    · refine ⟨by simpa [Function.update_of_ne same] using none, ?_⟩
      simp [Instr.storesTo, Instr.directSlot?, List.findSome?_cons, Operand.slot?, Ne.symm same]
  | plain plain =>
    refine ⟨none, ?_⟩
    have noStore : instr.op ≠ .store := fun isStore => by
      rw [isStore] at plain
      cases plain
    simp [Instr.storesTo, noStore]

end Acts

end Ideal

namespace Build

variable {main : Expr} {options : CompileOptions} {before : Program}

/-- The flat code is safe, with the arguments of each routine at its start. -/
theorem safe_static (build : Build main options before)
    (static : IsStatic main before) :
    (∀ {routine : Routine} {flat : FlatCode}, build.flat.lookup routine = some flat →
      flat.Safe (before.gauge .static routine) 0 (some (before.argCount routine))) ∧
      build.flat.IsStatic := by
  obtain ⟨routines, _⟩ := build.routines_static static
  have improved := routines.optimize Dialect.complete_static.toClosed options
  refine ⟨fun {routine flat} isFlat => ?_, improved.isStatic (Compile.of_flatten build.flattened)⟩
  have safeFlat := improved.flatten build.flattened _ (mem_of_lookup isFlat)
  simpa [Compile.SafeCode] using safeFlat

/-- An activation is ready to go on at a position of its code: what stands there may be executed
with the values it has, and control can come there with nothing stored to the slots of its own
that have no value. -/
structure Ready (build : Build main options before) (routine : Routine) (flat : FlatCode)
    (position height : Nat) (slots : Slot → Option Value) : Prop where
  isFlat : build.flat.lookup routine = some flat
  safe : flat.Safe (before.gauge .static routine) position (some height)
  unset : ∀ slot, build.setting.isOwn slot = true → slots slot = none → flat.Unset slot position
  shared : ∀ slot, build.setting.isOwn slot = false → (slots slot).isSome

/-- Every waiting activation has called the routine above it, and is ready to go on behind the
call once it has the results. -/
inductive Backed (build : Build main options before) : Routine → List Ideal.Frame → Prop where
  | main : Backed build .main []
  | call {caller : Routine} {position : Nat} {callee : SubroutineId} {stack : List Value}
      {slots : Slot → Option Value} {frames : List Ideal.Frame} {flat : FlatCode} {call : Instr}
      {handle : Handle} : before.declared callee = some handle →
      flat[position]? = some (.instr call) → CallGraph.callee? call = some callee →
      build.Ready caller flat (position + 1)
        ((if handle.returns.isValue then 1 else 0) + stack.length) slots →
      Backed build caller frames →
      Backed build (.subroutine callee) (⟨caller, position, callee, stack, slots⟩ :: frames)

/-- All activations of a state are ready to go on. -/
structure Sound (build : Build main options before) (state : Ideal.State) : Prop where
  ready : ∃ flat, build.Ready state.routine flat state.position state.memory.stack.length
    state.memory.slots
  backed : build.Backed state.routine state.frames

variable {build : Build main options before} {routine : Routine} {flat : FlatCode}
  {position target height cost below : Nat} {slots : Slot → Option Value} {instr : Instr}
  {limits : Limits} {env : Environment} {memory after : Ideal.Memory} {flow : Flow}
  {state later : Ideal.State}

/-- Where no number of a cell is known, the slots of its own that a routine mentions are private. -/
theorem mem_privateSlots_of_isOwn {slot : Slot} (isStatic : build.flat.IsStatic)
    (mentioned : slot ∈ build.usage.slotsOf routine) (isOwn : build.setting.isOwn slot = true) :
    slot ∈ build.usage.privateSlots routine := by
  simp only [setting, Bool.and_eq_true, Bool.not_eq_true'] at isOwn
  refine SlotUsage.mem_privateSlots.mpr ⟨mentioned, isOwn.1, isOwn.2, fun indexed => ?_⟩
  simp only [usage, SlotUsage.ofRoutines, Ascending.mem_ofList, List.mem_flatMap] at indexed
  obtain ⟨entry, inFlat, instr, inCode, indexed⟩ := indexed
  rw [Instr.indexedSlots_of_isStatic (isStatic entry inFlat instr inCode)] at indexed
  cases indexed

/-- Taking a value off the stack for a decision. -/
theorem test_eq {op : Opcode} {label : Label} {level : Level} (conditional : op = .bnz ∨ op = .bz)
    (tests : (before.gauge .static routine).test (some memory.stack.length) = some level)
    (acts : Ideal.Acts limits env below (.branch op label) memory flow after) :
    level = some after.stack.length := by
  have known : (Instr.branch op label).effect? = some ⟨1, 0⟩ := by
    rcases conditional with rfl | rfl <;> rfl
  have length : after.stack.length = memory.stack.length - 1 := acts.length known
  rw [length]
  cases count : memory.stack.length with
  | zero =>
    rw [count] at tests
    cases tests
  | succ count' =>
    rw [count] at tests
    cases tests
    rfl

namespace Ready

/-- Labels are passed over. -/
theorem label {label : Label} (ready : build.Ready routine flat position height slots)
    (here : flat[position]? = some (.label label)) :
    build.Ready routine flat (position + 1) height slots := by
  refine ⟨ready.isFlat, ready.safe.label here, fun slot isOwn none => ?_, ready.shared⟩
  exact .step (ready.unset slot isOwn none) (fun _ there => by simp [here] at there) (.label here)

/-- Behind an instruction an activation is ready wherever control goes on safely. -/
theorem act (ready : build.Ready routine flat position height memory.slots)
    (here : flat[position]? = some (.instr instr))
    (acts : Ideal.Acts limits env below instr memory flow after)
    (follows : flat.Follows position target)
    (safe : flat.Safe (before.gauge .static routine) target (some after.stack.length)) :
    build.Ready routine flat target after.stack.length after.slots := by
  refine ⟨ready.isFlat, safe, fun slot isOwn none => ?_, fun slot shared => ?_⟩
  · obtain ⟨noneBefore, noStore⟩ := acts.of_slots_eq_none none
    exact (ready.unset slot isOwn noneBefore).past here noStore follows
  · rw [Option.isSome_iff_ne_none]
    intro none
    have has := ready.shared slot shared
    rw [(acts.of_slots_eq_none none).1] at has
    cases has

theorem next (ready : build.Ready routine flat position memory.stack.length memory.slots)
    (here : flat[position]? = some (.instr instr))
    (acts : Ideal.Acts limits env below instr memory .next after) :
    build.Ready routine flat (position + 1) after.stack.length after.slots := by
  have flows := acts.flows
  cases ready.safe.passes.instr here with
  | leave exits =>
    obtain ⟨_, impossible⟩ := flows.eq_back exits (by rintro _ ⟨⟩)
    cases impossible
  | move goes moves safe =>
    obtain ⟨effect, known, _, rfl⟩ := exists_effect_of_move moves
    have noCall : instr.op ≠ .callsub := fun isCall => by
      rw [isCall] at flows
      cases flows
    have noJump : instr.op ≠ .b := fun isJump => by
      rw [isJump] at flows
      cases flows
    rw [Instr.effectIn?, CallGraph.callee?, if_neg noCall] at known
    exact ready.act here acts (.next here noJump goes) (acts.length known ▸ safe)
  | jump =>
    cases flows
  | branch conditional _ tests _ passed =>
    refine ready.act here acts (.next here ?_ ?_) (test_eq conditional tests acts ▸ passed)
    · rcases conditional with rfl | rfl <;> rintro ⟨⟩
    · rcases conditional with rfl | rfl <;> rfl

theorem jump {op : Opcode} {label : Label}
    (ready : build.Ready routine flat position memory.stack.length memory.slots)
    (here : flat[position]? = some (.instr (.branch op label)))
    (acts : Ideal.Acts limits env below (.branch op label) memory .jump after)
    (isTarget : flat.labelPosition? label = some target) :
    build.Ready routine flat target after.stack.length after.slots := by
  have branches := acts.flows.isBranch
  have follows : flat.Follows position target := .jump here branches isTarget
  cases ready.safe.passes.instr here with
  | leave exits =>
    obtain ⟨_, impossible⟩ := acts.flows.eq_back exits (by rintro _ ⟨⟩)
    cases impossible
  | move _ moves =>
    have straight := (before.gauge .static routine).straight moves
    rw [branches] at straight
    cases straight
  | jump isTarget' safe =>
    rw [isTarget] at isTarget'
    cases isTarget'
    have same : after.stack.length = memory.stack.length := acts.length rfl
    exact ready.act here acts follows (same ▸ safe)
  | branch conditional isTarget' tests taken =>
    rw [isTarget] at isTarget'
    cases isTarget'
    exact ready.act here acts follows (test_eq conditional tests acts ▸ taken)

/-- A call finds its arguments, and its activation is ready behind it. -/
theorem call {id : SubroutineId} (ready : build.Ready routine flat position height slots)
    (here : flat[position]? = some (.instr instr)) (calls : CallGraph.callee? instr = some id) :
    ∃ handle, before.declared id = some handle ∧ handle.argCount ≤ height ∧
      build.Ready routine flat (position + 1)
        ((if handle.returns.isValue then 1 else 0) + (height - handle.argCount)) slots := by
  have isCall := (CallGraph.callee?_eq_some.mp calls).1
  have goes : instr.op.isExit = false := by rw [isCall]; rfl
  obtain ⟨_, moves, safe⟩ := (ready.safe.passes.instr here).moves goes (by rw [isCall]; rfl)
  obtain ⟨effect, known, enough, rfl⟩ := exists_effect_of_move moves
  rw [Instr.effectIn?, calls] at known
  obtain ⟨handle, isDeclared, rfl⟩ := Option.map_eq_some_iff.mp known
  rw [Nat.add_comm (height - _)] at safe
  refine ⟨handle, isDeclared, enough, ready.isFlat, safe, fun slot isOwn none => ?_, ready.shared⟩
  exact (ready.unset slot isOwn none).past here (by simp [Instr.storesTo, isCall])
    (.next here (by simp [isCall]) goes)

/-- A subroutine returns with what it is declared to return. -/
theorem back (ready : build.Ready routine flat position height slots)
    (here : flat[position]? = some (.instr instr)) (isReturn : instr.op = .retsub) :
    routine ≠ .main ∧ height = before.results routine := by
  have leaves := (ready.safe.passes.instr here).leaves (by rw [isReturn]; rfl)
  refine ⟨?_, (leaves.2 height rfl).1 isReturn⟩
  rintro rfl
  have admitted := leaves.1
  simp [Dialect.static, Dialect.regular, isReturn] at admitted

/-- A slot that is loaded has a value. -/
theorem isSome_of_loadsFrom (isStatic : build.flat.IsStatic) {slot : Slot}
    (ready : build.Ready routine flat position height slots)
    (here : flat[position]? = some (.instr instr)) (loads : instr.loadsFrom slot = true) :
    (slots slot).isSome := by
  cases isOwn : build.setting.isOwn slot with
  | false => exact ready.shared slot isOwn
  | true =>
    rw [Option.isSome_iff_ne_none]
    intro none
    have mentioned : slot ∈ build.usage.slotsOf routine :=
      (SlotUsage.slotsOf_ofRoutines _ _).mpr ⟨flat, ready.isFlat, instr,
        FlatCode.mem_instrs.mpr (List.mem_of_getElem? here), Instr.mem_slots_of_loadsFrom loads⟩
    have checked := build.initialized _ (mem_of_lookup ready.isFlat)
    have quiet := SlotInit.loadsFrom_eq_false checked
      (mem_privateSlots_of_isOwn isStatic mentioned isOwn) (ready.unset slot isOwn none) here
    rw [loads] at quiet
    cases quiet

end Ready

/-! ## Runs -/

theorem sound_initial (static : IsStatic main before)
    (build : Build main options before) (env : Environment) :
    build.Sound (build.setting.initial env) := by
  obtain ⟨flat, isFlat⟩ := Option.ne_none_iff_exists'.mp (Keyed.mem_keys_iff.mp build.present)
  refine ⟨⟨flat, isFlat, (build.safe_static static).1 isFlat, fun slot _ _ => .start,
    fun slot shared => ?_⟩, .main⟩
  simp [Ideal.Setting.initial, shared]

/-- A step of the ideal machine keeps all activations ready. -/
theorem Sound.step (static : IsStatic main before) (sound : build.Sound state)
    (steps : Ideal.Step build.setting limits env state cost later) : build.Sound later := by
  obtain ⟨⟨flat, ready⟩, backed⟩ := sound
  cases steps with
  | label isFlat here =>
    cases ready.isFlat.symm.trans isFlat
    exact ⟨⟨flat, ready.label here⟩, backed⟩
  | next isFlat here acts =>
    cases ready.isFlat.symm.trans isFlat
    exact ⟨⟨flat, ready.next here acts⟩, backed⟩
  | jump isFlat here acts isTarget =>
    cases ready.isFlat.symm.trans isFlat
    exact ⟨⟨flat, ready.jump here acts isTarget⟩, backed⟩
  | @call routine position memory frames _ callee _ id handle arguments rest isFlat here calls
      isDeclared isCallee isStack count =>
      cases ready.isFlat.symm.trans isFlat
      obtain ⟨handle', isDeclared', _, behind⟩ := ready.call here calls
      cases isDeclared.symm.trans isDeclared'
      have isDeclared : before.declared id = some handle := isDeclared
      have argCount : before.argCount (.subroutine id) = arguments.length := by
        simp [Program.argCount, isDeclared, count]
      rw [isStack, List.length_append, count, Nat.add_sub_cancel_left] at behind
      refine ⟨⟨callee, isCallee, ?_, fun slot _ _ => .start, fun slot shared => ?_⟩,
        .call isDeclared here calls behind backed⟩
      · exact argCount ▸ (build.safe_static static).1 isCallee
      · simp only [Ideal.Setting.entered, shared, Bool.false_eq_true, if_false]
        exact ready.shared slot shared
  | @back _ _ memory frame frames _ _ handle isFlat here isReturn isDeclared count =>
    cases backed with
    | @call _ _ _ _ _ _ flat _ _ isDeclared' called calls behind backed =>
      cases isDeclared.symm.trans isDeclared'
      refine ⟨⟨flat, behind.isFlat, ?_, fun slot isOwn none => ?_, fun slot shared => ?_⟩, backed⟩
      · rw [List.length_append, count]
        exact behind.safe
      · simp only [Ideal.Setting.resumed, isOwn, Bool.true_or, if_true] at none
        exact behind.unset slot isOwn none
      · simp only [Ideal.Setting.resumed, shared, Bool.false_or]
        split
        · exact behind.shared slot shared
        · exact ready.shared slot shared

end Build

end ContractBackend
