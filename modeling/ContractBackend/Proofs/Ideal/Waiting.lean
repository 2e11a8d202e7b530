import ContractBackend.Proofs.Ideal.Soundness
import ContractBackend.Proofs.Ideal.CallSites

/-!
# Runs that stand for runs of the ideal machine

The memory of an activation on the ideal machine is part of the memory of a run: its values lie on
top of the stack, and its slots are in their cells. An instruction does the same on both.

A state of a run stands for a state of the ideal machine: control is at the same place, the memory
holds that of the activation at hand, and for every activation that waits, the values that it left
lie on the stack and its slots are in their cells or on the stack.
-/

namespace ContractBackend

open Machine (Limits Environment Value Flow)

/-- What an operand without a slot becomes, no instruction tells from what it is. -/
theorem Operand.alike_of_bare? {operand : Operand} {bare argument : Argument}
    {resolver : Link.Resolver} {scope : String} (isBare : operand.bare? = some bare)
    (resolved : resolver.operand scope operand = .ok argument) : bare.Alike argument := by
  cases operand with
  | slot | slotIndex => cases isBare
  | label =>
    cases isBare
    cases resolved
    exact .label _ _
  | subroutine =>
    cases isBare
    simp only [Link.Resolver.operand] at resolved
    split at resolved <;> cases resolved
    exact .label _ _
  | _ =>
    cases isBare
    cases resolved
    exact .refl _

theorem alike_of_resolved {operands : List Operand} {bare arguments : List Argument}
    {resolver : Link.Resolver} {scope : String} (isBare : operands.mapM Operand.bare? = some bare)
    (resolved : operands.mapM (resolver.operand scope) = .ok arguments) :
    List.Forall₂ Argument.Alike bare arguments := by
  induction operands generalizing bare arguments with
  | nil =>
    cases isBare
    cases resolved
    exact .nil
  | cons operand rest ih =>
    simp only [List.mapM_cons, Option.pure_def, Option.bind_eq_bind, Option.bind_eq_some_iff,
      Option.some.injEq] at isBare
    simp only [List.mapM_cons, Fallible.bind_eq_ok, Fallible.pure_eq_ok] at resolved
    obtain ⟨_, first, _, others, rfl⟩ := isBare
    obtain ⟨_, first', _, others', rfl⟩ := resolved
    exact .cons (Operand.alike_of_bare? first first') (ih others others')

/-- Operands that mention no slot can be told. -/
theorem exists_bare {instr : Instr} (none : instr.slots = []) :
    ∃ bare, instr.operands.mapM Operand.bare? = some bare := by
  simp only [Instr.slots, List.filterMap_eq_nil_iff] at none
  generalize instr.operands = operands at none
  induction operands with
  | nil => exact ⟨[], rfl⟩
  | cons operand rest ih =>
    rw [List.forall_mem_cons] at none
    obtain ⟨others, isOthers⟩ := ih none.2
    have known : ∃ argument, operand.bare? = some argument := by
      cases operand with
      | slot | slotIndex => cases none.1
      | _ => exact ⟨_, rfl⟩
    obtain ⟨argument, isArgument⟩ := known
    exact ⟨argument :: others, by simp [List.mapM_cons, isArgument, isOthers]⟩

namespace Build

variable {main : Expr} {options : CompileOptions} {before : Program}

/-- A routine sees the slots that it mentions, and those that no activation has its own of. -/
def Sees (build : Build main options before) (routine : Routine) (slot : Slot) : Prop :=
  slot ∈ build.usage.slotsOf routine ∨
    (build.setting.isOwn slot = false ∧ ∃ other, slot ∈ build.usage.slotsOf other)

/-- The memory of a run holds the memory of an activation: its values lie on top of others, and
the slots that it sees are in their cells. -/
structure Holds (build : Build main options before) (routine : Routine) (base : List Value)
    (memory : Ideal.Memory) (whole : Machine.Memory) : Prop where
  stack : whole.stack = memory.stack ++ base
  slots : ∀ slot, build.Sees routine slot → ∀ value, memory.slots slot = some value →
    whole.scratch.get (build.resolver.cellOf slot) = value
  effects : whole.effects = memory.effects
  appState : whole.appState = memory.appState

/-- Cells that are not those of the slots of a routine are left as they are. -/
def Spares (build : Build main options before) (routine : Routine)
    (scratch later : Vector Value cellCount) : Prop :=
  ∀ cell, (∀ slot ∈ build.usage.slotsOf routine, build.resolver.cellOf slot ≠ cell) →
    later.get cell = scratch.get cell

variable {build : Build main options before} {routine : Routine} {flat : FlatCode}
  {position line height : Nat} {slots : Slot → Option Value} {instr : Instr} {limits : Limits}
  {env : Environment} {memory after : Ideal.Memory} {whole later : Machine.Memory} {flow : Flow}
  {base : List Value} {arguments : List Argument}

/-- A slot that a routine sees shares its cell with none of the slots of the routine. -/
theorem cellOf_ne_of_sees {slot written : Slot} (sees : build.Sees routine slot)
    (mentioned : written ∈ build.usage.slotsOf routine) (different : written ≠ slot) :
    build.resolver.cellOf written ≠ build.resolver.cellOf slot := by
  intro same
  rcases sees with isMentioned | ⟨shared, other, isMentioned⟩
  · exact different (cellOf_inj mentioned isMentioned same)
  · obtain ⟨first, _, isPrivate, _, _⟩ :=
      SlotAssignment.exclusive_of_same_cell build.assigned (cell?_eq_cellOf isMentioned)
        (same ▸ cell?_eq_cellOf mentioned) different.symm
    obtain ⟨_, isLocal, free, _⟩ := SlotUsage.mem_privateSlots.mp isPrivate
    have isLocal : build.usage.isGlobal slot = false := isLocal
    simp [setting, isLocal, free] at shared

theorem Spares.refl (build : Build main options before) (routine : Routine)
    (scratch : Vector Value cellCount) : build.Spares routine scratch scratch :=
  fun _ _ => rfl

theorem Holds.eq_onto (holds : build.Holds routine base memory whole) :
    whole = memory.bare.onto base whole.scratch := by
  obtain ⟨stack, scratch, effects, appState⟩ := whole
  simp only [Machine.Memory.onto, Ideal.Memory.bare, Machine.Memory.mk.injEq, true_and]
  exact ⟨holds.stack, holds.effects, holds.appState⟩

/-- The rest of the stack and the cells do not matter to an instruction that accesses no cells. -/
theorem Holds.execute_eq_ok {bare : List Argument} (holds : build.Holds routine base memory whole)
    (plain : instr.op.accessesScratch = false)
    (alike : List.Forall₂ Argument.Alike bare arguments)
    (enough : Machine.touched instr.op bare ≤ memory.stack.length) :
    Machine.execute limits env ⟨instr.op, line⟩ arguments whole = .ok (flow, later) ↔
      ∃ part, Machine.execute (limits.above base.length) env ⟨instr.op, 0⟩ bare memory.bare =
        .ok (flow, part) ∧ later = part.onto base whole.scratch := by
  have goes : Machine.Exec.Alike base whole.scratch (Machine.touched instr.op bare)
      (Machine.execute (limits.above base.length) env ⟨instr.op, 0⟩ bare)
      (Machine.execute limits env ⟨instr.op, line⟩ arguments) :=
    Machine.execute_alike instr.op plain alike
  have goes := goes memory.bare enough
  rw [← holds.eq_onto] at goes
  split at goes
  next part isPart =>
    rw [goes, isPart]
    constructor
    · intro same
      cases same
      exact ⟨part, rfl, rfl⟩
    · rintro ⟨_, same, rfl⟩
      cases same
      rfl
  next isError =>
    obtain ⟨fault, fails⟩ := goes
    rw [fails, isError]
    simp

/-- An instruction of an activation does the same on both machines. -/
theorem Holds.acts (isFlat : build.flat.lookup routine = some flat)
    (here : flat[position]? = some (.instr instr)) {scope : String}
    (resolved : instr.operands.mapM (build.resolver.operand scope) = .ok arguments)
    (holds : build.Holds routine base memory whole)
    (acts : Ideal.Acts limits env base.length instr memory flow after) (line : Nat) :
    ∃ later, Machine.execute limits env ⟨instr.op, line⟩ arguments whole = .ok (flow, later) ∧
      build.Holds routine base after later ∧ build.Spares routine whole.scratch later.scratch := by
  cases acts with
  | @load slot others _ value isValue room =>
    obtain ⟨_, rfl⟩ := Link.Resolver.arguments_of_slot resolved
    have mentioned := mem_slotsOf isFlat here rfl
    have found := holds.slots slot (.inl mentioned) value isValue
    refine ⟨_, Machine.execute_load_eq_ok.mpr ⟨?_, rfl, rfl⟩, ?_, .refl _ _ _⟩
    · rw [holds.stack, List.length_append]
      exact room
    · exact ⟨by simp [holds.stack, found], holds.slots, holds.effects, holds.appState⟩
  | @store slot others _ value rest isStack =>
    obtain ⟨_, rfl⟩ := Link.Resolver.arguments_of_slot resolved
    have mentioned := mem_slotsOf isFlat here rfl
    have whole' : whole.stack = value :: (rest ++ base) := by rw [holds.stack, isStack]; rfl
    refine ⟨_, Machine.execute_store_eq_ok.mpr ⟨value, rest ++ base, whole', rfl, rfl⟩,
      ⟨rfl, fun other sees stored isStored => ?_, holds.effects, holds.appState⟩,
      fun cell apart => get_set_of_ne _ _ (apart slot mentioned)⟩
    have isStored : Function.update memory.slots slot (some value) other = some stored := isStored
    by_cases same : other = slot
    · subst same
      rw [Function.update_self] at isStored
      cases isStored
      exact get_set_self _ _ _
    · rw [Function.update_of_ne same] at isStored
      have apart := cellOf_ne_of_sees sees mentioned (Ne.symm same)
      exact (get_set_of_ne _ _ apart).trans (holds.slots other sees stored isStored)
  | @plain _ bare _ _ part plain isBare isOk =>
    have alike := alike_of_resolved isBare resolved
    have enough : Machine.touched instr.op bare ≤ memory.stack.length :=
      (Machine.flows_of_execute isOk).2.enough
    refine ⟨part.onto base whole.scratch,
      (holds.execute_eq_ok plain alike enough).mpr ⟨part, isOk, rfl⟩,
      ⟨rfl, holds.slots, rfl, rfl⟩, .refl _ _ _⟩

/-- What may be executed at a position is tidy, or it is a branch. -/
theorem Ready.isTidy (ready : build.Ready routine flat position height slots)
    (here : flat[position]? = some (.instr instr)) :
    instr.isTidy = true ∨ instr.op.isBranch = true := by
  have tidy : ∀ main, (Dialect.static main).admits instr = true → instr.isTidy = true := by
    intro main admitted
    simp only [Dialect.static, Dialect.regular, Bool.and_eq_true] at admitted
    exact admitted.1.1.1
  cases ready.safe.passes.instr here with
  | leave _ leaves =>
    exact .inl (tidy _ leaves.1)
  | move _ moves => exact .inl (tidy _ (admits_of_move moves))
  | jump =>
    exact .inr rfl
  | branch conditional =>
    rcases conditional with rfl | rfl <;> exact .inr rfl

/-- An activation has the values that an instruction takes. -/
theorem Ready.exists_effect (ready : build.Ready routine flat position height slots)
    (here : flat[position]? = some (.instr instr)) (noCall : instr.op ≠ .callsub)
    (noReturn : instr.op ≠ .retsub) :
    ∃ effect, instr.effect? = some effect ∧ effect.pops ≤ height := by
  cases ready.safe.passes.instr here with
  | leave exits leaves =>
    obtain ⟨op, operands⟩ := instr
    cases op with
    | retsub => exact absurd rfl noReturn
    | ret => exact ⟨⟨1, 0⟩, rfl, (leaves.2 height rfl).2 rfl⟩
    | err => exact ⟨⟨0, 0⟩, rfl, Nat.zero_le _⟩
    | _ => cases exits
  | move _ moves =>
    obtain ⟨effect, known, enough, _⟩ := exists_effect_of_move moves
    rw [Instr.effectIn?, CallGraph.callee?, if_neg noCall] at known
    exact ⟨effect, known, enough⟩
  | jump =>
    exact ⟨⟨0, 0⟩, rfl, Nat.zero_le _⟩
  | branch conditional _ tests =>
    cases height with
    | zero => cases tests
    | succ height =>
      refine ⟨⟨1, 0⟩, ?_, Nat.le_add_left 1 _⟩
      rcases conditional with rfl | rfl <;> rfl

/-- What a run executes, the activation can execute on the ideal machine. -/
theorem Holds.exists_acts (isStatic : build.flat.IsStatic)
    (ready : build.Ready routine flat position memory.stack.length memory.slots)
    (here : flat[position]? = some (.instr instr)) (noCall : instr.op ≠ .callsub)
    (noReturn : instr.op ≠ .retsub) {scope : String}
    (resolved : instr.operands.mapM (build.resolver.operand scope) = .ok arguments)
    (holds : build.Holds routine base memory whole)
    (executed : Machine.execute limits env ⟨instr.op, line⟩ arguments whole = .ok (flow, later)) :
    ∃ after, Ideal.Acts limits env base.length instr memory flow after := by
  obtain ⟨effect, known, enough⟩ := ready.exists_effect here noCall noReturn
  have static := isStatic _ (mem_of_lookup ready.isFlat) instr
    (FlatCode.mem_instrs.mpr (List.mem_of_getElem? here))
  by_cases access : instr.op = .load ∨ instr.op = .store
  · have tidy : instr.isTidy = true := by
      refine (ready.isTidy here).resolve_right fun branches => ?_
      rcases access with op | op <;>
        · rw [op] at branches
          cases branches
    obtain ⟨slot, others, operands⟩ := Instr.exists_slot tidy access
    obtain ⟨op, _⟩ := instr
    cases operands
    obtain ⟨_, rfl⟩ := Link.Resolver.arguments_of_slot resolved
    rcases access with isLoad | isStore
    · cases isLoad
      obtain ⟨room, rfl, _⟩ := Machine.execute_load_eq_ok.mp executed
      have loads : (⟨.load, .slot slot :: others⟩ : Instr).loadsFrom slot = true := by
        simp [Instr.loadsFrom, Instr.directSlot?, List.findSome?_cons, Operand.slot?]
      obtain ⟨value, isValue⟩ :=
        Option.isSome_iff_exists.mp (ready.isSome_of_loadsFrom isStatic here loads)
      rw [holds.stack, List.length_append] at room
      exact ⟨_, .load isValue room⟩
    · cases isStore
      cases known
      obtain ⟨_, _, _, rfl, _⟩ := Machine.execute_store_eq_ok.mp executed
      obtain ⟨value, rest, isStack⟩ := List.exists_cons_of_length_pos enough
      exact ⟨_, .store isStack⟩
  · have none := Instr.slots_of_isStatic static (not_or.mp access)
    obtain ⟨bare, isBare⟩ := exists_bare none
    have plain : instr.op.accessesScratch = false := by
      rw [Instr.isStatic] at static
      cases op : instr.op <;> simp_all [Opcode.accessesScratch]
    have alike := alike_of_resolved isBare resolved
    have enough : Machine.touched instr.op bare ≤ memory.stack.length :=
      (Ideal.touched_of_bare isBare known).1 ▸ enough
    obtain ⟨part, isOk, _⟩ := (holds.execute_eq_ok plain alike enough).mp executed
    exact ⟨_, .plain plain isBare isOk⟩

/-! ## Activations that wait -/

/-- Activations wait below the values of the one at hand. The slots of each that are saved lie on
the stack; the others that are its own stay in their cells. -/
inductive Waiting (build : Build main options before) (scratch : Vector Value cellCount) :
    Routine → List Value → List Ideal.Frame → List Nat → Prop where
  | main : Waiting build scratch .main [] [] []
  | call {caller : Routine} {position : Nat} {callee : SubroutineId} {stack base : List Value}
      {slots : Slot → Option Value} {frames : List Ideal.Frame} {lines : List Nat}
      {flat : FlatCode} {call : Instr} {handle : Handle} {low lower : List Instr}
      {saved : Slot → Value} :
      build.CallSite caller flat position call callee handle low lower →
      before.declared callee = some handle →
      (∀ slot ∈ build.setting.saved caller callee, ∀ value, slots slot = some value →
        saved slot = value) →
      (∀ slot ∈ build.usage.slotsOf caller, build.setting.isOwn slot = true →
        slot ∉ build.setting.saved caller callee → ∀ value, slots slot = some value →
          scratch.get (build.resolver.cellOf slot) = value) →
      Waiting build scratch caller base frames lines →
      Waiting build scratch (.subroutine callee)
        (((build.setting.saved caller callee).map saved).reverse ++ (stack ++ base))
        (⟨caller, position, callee, stack, slots⟩ :: frames)
        (Link.lineOf build.table caller (build.startOf caller flat position +
          ((Spill.saves (build.setting.saved caller callee) low).length + 1)) :: lines)

/-- A state of a run stands for a state of the ideal machine. -/
structure Represents (build : Build main options before) (limits : Limits) (state : Ideal.State)
    (run : Machine.State) : Prop where
  place : ∃ flat, build.flat.lookup state.routine = some flat ∧
    build.Nears state.routine run.line (build.startOf state.routine flat state.position)
  memory : ∃ base, build.Holds state.routine base state.memory run.memory ∧
    build.Waiting run.memory.scratch state.routine base state.frames run.frames
  fits : run.memory.stack.length ≤ limits.maxStack

variable {frames : List Ideal.Frame} {lines : List Nat} {scratch later : Vector Value cellCount}

namespace Waiting

/-- The ideal machine counts the values that lie below. -/
theorem below_eq (waiting : build.Waiting scratch routine base frames lines) :
    build.setting.below frames = base.length := by
  induction waiting with
  | main => rfl
  | call _ _ _ _ _ ih =>
    simp only [Ideal.Setting.below, ih, List.length_append, List.length_reverse, List.length_map]
    omega

theorem length_eq (waiting : build.Waiting scratch routine base frames lines) :
    lines.length = frames.length := by
  induction waiting with
  | main => rfl
  | call _ _ _ _ _ ih => simp [ih]

/-- Every waiting activation has called the one above it. -/
theorem isPath (waiting : build.Waiting scratch routine base frames lines) :
    build.callGraph.IsPath (routine :: frames.map Ideal.Frame.routine) := by
  induction waiting with
  | main => exact List.isChain_singleton _
  | @call _ _ callee _ _ _ _ _ flat call _ _ _ _ site _ _ _ _ ih =>
    have called := CallGraph.mem_callees_ofRoutines.mpr
      ⟨flat, call, site.isFlat, List.mem_of_getElem? site.here, site.calls⟩
    exact List.isChain_cons_cons.mpr ⟨⟨callee, rfl, called⟩, ih⟩

/-- What routines store that are active above waiting activations is none of the slots of these. -/
theorem keep_below (isStatic : build.flat.IsStatic) {writer : Routine} {front : List Routine}
    (path : build.callGraph.IsPath (front ++ routine :: frames.map Ideal.Frame.routine))
    (active : writer ∈ front ++ [routine]) (spares : build.Spares writer scratch later)
    (waiting : build.Waiting scratch routine base frames lines) :
    build.Waiting later routine base frames lines := by
  induction waiting generalizing front with
  | main => exact .main
  | @call caller _ callee _ _ _ frames _ _ _ _ _ _ _ site isDeclared isSaved kept _ ih =>
    have path' : build.callGraph.IsPath ((front ++ [.subroutine callee]) ++
        caller :: frames.map Ideal.Frame.routine) := by simpa using path
    refine .call site isDeclared isSaved ?_ (ih path' (List.mem_append_left _ active))
    intro slot mentioned isOwn notSaved value isValue
    rw [← kept slot mentioned isOwn notSaved value isValue]
    have isPrivate := mem_privateSlots_of_isOwn isStatic mentioned isOwn
    have single := isReentry_of_not_saved (mem_localsOf_of_private isPrivate) notSaved
    exact spares _ fun written isWritten => cellOf_ne path single active isWritten isPrivate

theorem keep (isStatic : build.flat.IsStatic) (spares : build.Spares routine scratch later)
    (waiting : build.Waiting scratch routine base frames lines) :
    build.Waiting later routine base frames lines := by
  have path : build.callGraph.IsPath ([] ++ routine :: frames.map Ideal.Frame.routine) :=
    waiting.isPath
  exact waiting.keep_below isStatic path (by simp) spares

end Waiting

/-- Putting slots back changes the cells of the routine only. -/
theorem spares_restored {saved : Slot → Value} {slots : List Slot}
    (mentioned : ∀ slot ∈ slots, slot ∈ build.usage.slotsOf routine) :
    build.Spares routine scratch (build.resolver.restored saved slots scratch) :=
  fun _ apart => Link.Resolver.get_restored_of_ne fun slot member => apart slot (mentioned slot member)

/-- The slots of a caller behind a call: those that were saved are put back, its other own ones
are still in their cells, and the rest is as the callee left it. -/
theorem holds_resumed {caller : Routine} {callee : SubroutineId} {position : Nat}
    {stack : List Value} {slots : Slot → Option Value} {saved : Slot → Value}
    {memory : Ideal.Memory} {whole : Machine.Memory}
    (holds : build.Holds routine base memory whole)
    (isSaved : ∀ slot ∈ build.setting.saved caller callee, ∀ value, slots slot = some value →
      saved slot = value)
    (kept : ∀ slot ∈ build.usage.slotsOf caller, build.setting.isOwn slot = true →
      slot ∉ build.setting.saved caller callee → ∀ value, slots slot = some value →
        whole.scratch.get (build.resolver.cellOf slot) = value) :
    ∀ slot, build.Sees caller slot → ∀ value,
      build.setting.resumed ⟨caller, position, callee, stack, slots⟩ memory.slots slot = some value →
      (build.resolver.restored saved (build.setting.saved caller callee) whole.scratch).get
        (build.resolver.cellOf slot) = value := by
  intro slot sees value resumes
  by_cases member : slot ∈ build.setting.saved caller callee
  · simp only [Ideal.Setting.resumed, member, decide_true, Bool.or_true, if_true] at resumes
    rw [get_restored (fun other => mem_slotsOf_of_saved) member]
    exact isSaved slot member value resumes
  · have apart : ∀ other ∈ build.setting.saved caller callee,
        build.resolver.cellOf other ≠ build.resolver.cellOf slot := fun other isOther =>
      cellOf_ne_of_sees sees (mem_slotsOf_of_saved isOther) fun same => member (same ▸ isOther)
    rw [Link.Resolver.get_restored_of_ne apart]
    simp only [Ideal.Setting.resumed, member, decide_false, Bool.or_false] at resumes
    cases isOwn : build.setting.isOwn slot with
    | true =>
      rw [isOwn, if_pos rfl] at resumes
      have mentioned := sees.resolve_right fun shared => by
        rw [isOwn] at shared
        cases shared.1
      exact kept slot mentioned isOwn member value resumes
    | false =>
      rw [isOwn, if_neg Bool.false_ne_true] at resumes
      have mentioned : ∃ other, slot ∈ build.usage.slotsOf other :=
        sees.elim (fun mentioned => ⟨caller, mentioned⟩) And.right
      exact holds.slots slot (.inr ⟨isOwn, mentioned⟩) value resumes

end Build

end ContractBackend
