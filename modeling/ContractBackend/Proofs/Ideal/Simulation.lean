import ContractBackend.Proofs.Ideal.Waiting

/-!
# Runs follow the ideal machine

A step of the ideal machine is as many steps of a run as it charges: a label is none, a call comes
with the code that saves slots before it, and a return with the code that puts them back. So a run
ends where the ideal machine does, after the number of steps that it has charged.
-/

namespace ContractBackend

open Machine (State Limits Environment Value Flow Outcome)

/-- An outcome of a run is a result of the ideal machine, after a number of steps. -/
structure Ideal.Delivers (outcome : Outcome) (result : Result) (steps : Nat) : Prop where
  approved : outcome.approved = result.approved
  effects : outcome.memory.effects = result.effects
  appState : outcome.memory.appState = result.appState
  steps : outcome.steps = steps

namespace Build

variable {main : Expr} {options : CompileOptions} {before : Program} {args rest : List Value}

/-- A run executes an instruction, at a position of the flat code, as the ideal machine does. -/
structure Executed (build : Build main options before) (limits : Limits) (env : Environment)
    (flat : FlatCode) (instr : Instr) (flow : Flow) (state : Ideal.State) (after : Ideal.Memory)
    (run : State) (line : Nat) (arguments : List Argument) (whole : Machine.Memory) : Prop where
  fetched : build.code.fetch run.line = some (line, instr.op, arguments)
  resolved : instr.operands.mapM (build.resolver.operand (build.resolver.scope state.routine)) =
    .ok arguments
  executed : Machine.execute limits env ⟨instr.op, line + 1⟩ arguments run.memory =
    .ok (flow, whole)
  nears : build.Nears state.routine (line + 1)
    (build.startOf state.routine flat (state.position + 1))
  memory : ∃ base, build.Holds state.routine base after whole ∧
    build.Waiting whole.scratch state.routine base state.frames run.frames
  fits : whole.stack.length ≤ limits.maxStack

variable {build : Build main options before} {routine : Routine} {flat : FlatCode}
  {position line target cost count : Nat} {instr : Instr} {arguments : List Argument}
  {limits : Limits} {env : Environment} {after : Ideal.Memory} {whole : Machine.Memory}
  {flow : Flow} {state later : Ideal.State} {run : State} {result : Ideal.Result}

/-- Slots that a routine saves have cells. -/
theorem hasCell_of_saved {callee : SubroutineId} :
    ∀ slot ∈ build.setting.saved routine callee, build.resolver.HasCell slot :=
  fun _ isSaved => cell?_eq_cellOf (mem_slotsOf_of_saved isSaved)

theorem length_saved_lt (build : Build main options before) (routine : Routine)
    (callee : SubroutineId) : (build.setting.saved routine callee).length < UInt64.size := by
  simp only [setting]
  split
  · exact build.length_localsOf_lt routine
  · decide

/-- An instruction that is no call is fetched as it is. -/
theorem exists_fetch
    (isFlat : build.flat.lookup routine = some flat)
    (here : flat[position]? = some (.instr instr)) (noCall : instr.op ≠ .callsub)
    (nears : build.Nears routine line (build.startOf routine flat position)) :
    ∃ found arguments, build.code.fetch line = some (found, instr.op, arguments) ∧
      instr.operands.mapM (build.resolver.operand (build.resolver.scope routine)) =
        .ok arguments ∧
      build.Nears routine (found + 1) (build.startOf routine flat (position + 1)) := by
  have standing : build.Standing routine flat position instr := by
    rcases standing_or_surrounded isFlat here with standing | ⟨_, _, _, _, surrounded⟩
    · exact standing
    · exact absurd surrounded.op_eq noCall
  have located : build.Located routine (build.startOf routine flat position) [instr] := by
    refine ⟨_, lookup_of_flat isFlat, fun offset other isOther => ?_⟩
    cases offset with
    | succ => cases isOther
    | zero =>
      cases isOther
      exact item_of_element standing.getElem?
  obtain ⟨arguments, fetched, resolved⟩ := located.fetch nears
  refine ⟨_, arguments, fetched, resolved, ?_⟩
  rw [standing.startOf_succ]
  rfl

/-- A label of the flat code is where its element starts. -/
theorem labelPosition?_elements {label : Label} (isTarget : flat.labelPosition? label = some target) :
    FlatCode.labelPosition? ((flat.flatMap (build.elements routine)).map Link.Element.item) label =
      some (build.startOf routine flat target) := by
  rw [items_elements, startOf_eq]
  exact FlatCode.labelPosition?_flatMap Spill.expand_label Spill.not_label_mem_expand isTarget

/-- Every run starts where the ideal machine does. -/
theorem represents_initial (static : IsStatic main before)
    (build : Build main options before) (limits : Limits) (env : Environment) :
    build.Represents limits (build.setting.initial env) (State.initial env) := by
  obtain ⟨⟨flat, ready⟩, _⟩ := build.sound_initial static env
  refine ⟨⟨flat, ready.isFlat, ?_⟩, ⟨[], ⟨rfl, ?_, rfl, rfl⟩, .main⟩, Nat.zero_le _⟩
  · have line : Link.lineOf build.table .main 0 = 0 := build.firstLine_main
    have start : build.startOf .main flat 0 = 0 := startOf_zero
    change build.Nears .main 0 (build.startOf .main flat 0)
    rw [start, Nears, line]
  · intro slot _ value isValue
    simp only [Ideal.Setting.initial] at isValue
    split at isValue
    · cases isValue
    · cases isValue
      exact Vector.getElem_replicate _

/-! ## Steps -/

/-- An instruction is executed as on the ideal machine, unless it is a call. -/
theorem Represents.exists_executed (static : IsStatic main before)
    (represents : build.Represents limits state run)
    (isFlat : build.flat.lookup state.routine = some flat)
    (here : flat[state.position]? = some (.instr instr))
    (acts : Ideal.Acts limits env (build.setting.below state.frames) instr state.memory flow after)
    (stays : flow ≠ .call) :
    ∃ line arguments whole,
      build.Executed limits env flat instr flow state after run line arguments whole := by
  have noCall : instr.op ≠ .callsub := fun isCall => by
    have flows := acts.flows
    rw [isCall] at flows
    exact stays flows
  obtain ⟨⟨flat', isFlat', nears⟩, ⟨base, holds, waiting⟩, fits⟩ := represents
  cases isFlat.symm.trans isFlat'
  obtain ⟨line, arguments, fetched, resolved, behind⟩ :=
    exists_fetch isFlat here noCall nears
  rw [waiting.below_eq] at acts
  obtain ⟨whole, executed, holds', spares⟩ := holds.acts isFlat here resolved acts (line + 1)
  refine ⟨line, arguments, whole, fetched, resolved, executed, behind,
    ⟨base, holds', waiting.keep (build.safe_static static).2 spares⟩, ?_⟩
  rw [holds.stack, List.length_append] at fits
  rw [holds'.stack, List.length_append]
  exact acts.fits fits

theorem Executed.represents
    (executed : build.Executed limits env flat instr flow state after run line arguments whole)
    (isFlat : build.flat.lookup state.routine = some flat) {there steps : Nat}
    (nears : build.Nears state.routine there (build.startOf state.routine flat target)) :
    build.Represents limits ⟨state.routine, target, after, state.frames⟩
      ⟨whole, there, run.frames, steps⟩ :=
  ⟨⟨flat, isFlat, nears⟩, executed.memory, executed.fits⟩

section Calls

variable {caller : Routine} {callee : SubroutineId} {call : Instr} {handle : Handle}
  {low lower : List Instr}

/-- A run saves slots below the arguments of a call. -/
theorem CallSite.travels_saves
    (site : build.CallSite caller flat position call callee handle low lower)
    (small : handle.argCount < UInt64.size) (count : args.length = handle.argCount)
    (isStack : run.memory.stack = args ++ rest)
    (room : run.memory.stack.length + (build.setting.saved caller callee).length ≤ limits.maxStack)
    (nears : build.Nears caller run.line (build.startOf caller flat position)) :
    ∃ line, build.Nears caller line (build.startOf caller flat position +
        (Spill.saves (build.setting.saved caller callee) low).length) ∧
      State.Travels limits env build.code run
        (Ideal.savingSteps (build.setting.saved caller callee) handle)
        ⟨{ run.memory with
            stack := args ++ (((build.setting.saved caller callee).map
              (build.resolver.valueIn run.memory)).reverse ++ rest) }, line, run.frames,
          run.steps + Ideal.savingSteps (build.setting.saved caller callee) handle⟩ := by
  have executes : build.Executes limits env caller
      (Spill.saves (build.setting.saved caller callee) low) run.memory _ :=
    (Link.Resolver.executes_saves small site.surrounds.low count isStack).mpr
      ⟨hasCell_of_saved, fun _ => room, rfl⟩
  rw [← site.surrounds.length_saves]
  exact Executes.travels (fun _ => site.surrounds.inserted_of_mem_saves) executes
    site.located_saves nears run.frames run.steps

/-- A run puts slots back behind a call. -/
theorem CallSite.travels_restores
    (site : build.CallSite caller flat position call callee handle low lower)
    {saved : Slot → Value} {results : List Value}
    (count : results.length = if handle.returns.isValue then 1 else 0)
    (isStack : whole.stack =
      results ++ (((build.setting.saved caller callee).map saved).reverse ++ rest))
    (fits : whole.stack.length ≤ limits.maxStack) (env : Environment) (frames : List Nat)
    (steps : Nat) :
    ∃ line, build.Nears caller line (build.startOf caller flat (position + 1)) ∧
      State.Travels limits env build.code
        ⟨whole, Link.lineOf build.table caller (build.startOf caller flat position +
          ((Spill.saves (build.setting.saved caller callee) low).length + 1)), frames, steps⟩
        (Ideal.restoringSteps (build.setting.saved caller callee) handle)
        ⟨{ whole with
            stack := results ++ rest
            scratch := build.resolver.restored saved (build.setting.saved caller callee)
              whole.scratch }, line, frames,
          steps + Ideal.restoringSteps (build.setting.saved caller callee) handle⟩ := by
  have small := build.length_saved_lt caller callee
  have executes : build.Executes limits env caller
      (Spill.restores (build.setting.saved caller callee) lower) whole _ :=
    (Link.Resolver.executes_restores small site.surrounds count isStack).mpr
      ⟨fun _ => fits, hasCell_of_saved, rfl⟩
  rw [← site.surrounds.length_restores, site.startOf_succ]
  exact Executes.travels (fun _ => site.surrounds.inserted_of_mem_restores) executes
    site.located_restores rfl frames steps

end Calls

/-- A call that control comes to names the subroutine that it calls. -/
theorem Ready.exists_callee {height : Nat} {slots : Slot → Option Value}
    (ready : build.Ready routine flat position height slots)
    (here : flat[position]? = some (.instr instr)) (isCall : instr.op = .callsub) :
    ∃ id others, instr.operands = .subroutine id :: others ∧ CallGraph.callee? instr = some id := by
  refine Instr.exists_callee
    (Instr.isNamed_of_isTidy ((ready.isTidy here).resolve_right fun branches => ?_)) isCall
  rw [isCall] at branches
  cases branches

/-- The callee sees the slots that no activation has its own of. -/
theorem Holds.entered {caller : Routine} {callee : SubroutineId} {memory : Ideal.Memory}
    {lower base : List Value} (holds : build.Holds caller base memory whole) :
    build.Holds (.subroutine callee) lower
      { memory with stack := args, slots := build.setting.entered memory.slots }
      { whole with stack := args ++ lower } := by
  refine ⟨rfl, fun slot sees value isValue => ?_, holds.effects, holds.appState⟩
  simp only [Ideal.Setting.entered] at isValue
  split at isValue
  next => cases isValue
  next shared =>
    have shared : build.setting.isOwn slot = false := Bool.not_eq_true _ ▸ shared
    have mentioned : ∃ other, slot ∈ build.usage.slotsOf other :=
      sees.elim (fun mentioned => ⟨_, mentioned⟩) And.right
    exact holds.slots slot (.inr ⟨shared, mentioned⟩) value isValue

/-- A call saves slots and enters the callee, in the steps that the ideal machine charges. -/
theorem Represents.call (static : IsStatic main before) (sound : build.Sound state)
    (represents : build.Represents limits state run) {callee : FlatCode} {id : SubroutineId}
    {handle : Handle} (isFlat : build.flat.lookup state.routine = some flat)
    (here : flat[state.position]? = some (.instr instr))
    (calls : CallGraph.callee? instr = some id) (isDeclared : before.declared id = some handle)
    (isCallee : build.flat.lookup (.subroutine id) = some callee)
    (isStack : state.memory.stack = args ++ rest) (isCount : args.length = handle.argCount)
    (shallow : state.frames.length < limits.maxCallDepth)
    (room : state.memory.stack.length + (build.setting.saved state.routine id).length +
      build.setting.below state.frames ≤ limits.maxStack) :
    ∃ run', State.Travels limits env build.code run
        (Ideal.savingSteps (build.setting.saved state.routine id) handle + 1) run' ∧
      build.Represents limits
        ⟨.subroutine id, 0,
          { state.memory with stack := args, slots := build.setting.entered state.memory.slots },
          ⟨state.routine, state.position, id, rest, state.memory.slots⟩ :: state.frames⟩ run' := by
  obtain ⟨⟨flat', isFlat', nears⟩, ⟨base, holds, waiting⟩, fits⟩ := represents
  cases isFlat.symm.trans isFlat'
  obtain ⟨low, lower, site⟩ :=
    exists_callSite isFlat here calls (build.sameDeclarations.declared ▸ isDeclared)
  have whole : run.memory.stack = args ++ (rest ++ base) := by
    rw [holds.stack, isStack, List.append_assoc]
  rw [waiting.below_eq] at room
  have room' : run.memory.stack.length + (build.setting.saved state.routine id).length ≤
      limits.maxStack := by
    rw [holds.stack, List.length_append]
    omega
  obtain ⟨line, nears', travels⟩ := site.travels_saves
    (static.made.argCount_lt isDeclared) isCount whole room' nears
  -- The call leads to the first line of the callee.
  obtain ⟨arguments, fetched, resolved⟩ := site.located_call.fetch nears'
  have isCall := (CallGraph.callee?_eq_some.mp calls).1
  obtain ⟨⟨_, ready⟩, _⟩ := sound
  cases isFlat.symm.trans ready.isFlat
  obtain ⟨_, others, operands, calls'⟩ := ready.exists_callee here isCall
  cases calls.symm.trans calls'
  obtain ⟨leads, _⟩ := target_of_callee operands resolved
  rw [isCall] at fetched
  rw [← waiting.length_eq] at shallow
  refine ⟨_, travels.trans (.single (.call fetched shallow (leads _))),
    ⟨callee, isCallee, ?_⟩, ⟨_, holds.entered, ?_⟩, ?_⟩
  · rw [startOf_zero]
    exact nears_firstLine (lookup_of_flat isCallee)
  · exact .call site isDeclared
      (fun slot isSaved => holds.slots slot (.inl (mem_slotsOf_of_saved isSaved)))
      (fun slot mentioned _ _ => holds.slots slot (.inl mentioned)) waiting
  · rw [whole] at room'
    simp only [List.length_append, List.length_reverse, List.length_map] at room' ⊢
    omega

/-- A return goes back to the caller and puts its slots back, in the steps that the ideal
machine charges. -/
theorem Represents.back (static : IsStatic main before)
    (represents : build.Represents limits state run)
    {frame : Ideal.Frame} {frames : List Ideal.Frame} {handle : Handle}
    (isFlat : build.flat.lookup state.routine = some flat)
    (here : flat[state.position]? = some (.instr instr)) (isReturn : instr.op = .retsub)
    (isTop : state.frames = frame :: frames) (isDeclared : before.declared frame.callee = some handle)
    (isCount : state.memory.stack.length = if handle.returns.isValue then 1 else 0) :
    ∃ run', State.Travels limits env build.code run
        (1 + Ideal.restoringSteps (build.setting.saved frame.routine frame.callee) handle) run' ∧
      build.Represents limits
        ⟨frame.routine, frame.position + 1,
          { state.memory with
            stack := state.memory.stack ++ frame.stack
            slots := build.setting.resumed frame state.memory.slots }, frames⟩ run' := by
  obtain ⟨⟨flat', isFlat', nears⟩, ⟨base, holds, waiting⟩, fits⟩ := represents
  cases isFlat.symm.trans isFlat'
  have noCall : instr.op ≠ .callsub := by
    rw [isReturn]
    nofun
  obtain ⟨line, arguments, fetched, _, _⟩ := exists_fetch isFlat here noCall nears
  rw [isReturn] at fetched
  obtain ⟨routine, position, memory, _⟩ := state
  cases isTop
  generalize isFrames : run.frames = lines at waiting
  cases waiting with
  | call site isDeclared' isSaved kept waiting =>
    cases isDeclared.symm.trans isDeclared'
    have moves : State.Moves limits env build.code run _ := .back fetched isFrames
    obtain ⟨line', nears', travels⟩ := site.travels_restores isCount holds.stack
      fits env _ (run.steps + 1)
    refine ⟨_, .trans (.single moves) travels, ⟨_, site.isFlat, nears'⟩,
      ⟨_, ?_, waiting.keep (build.safe_static static).2
        (spares_restored fun _ => mem_slotsOf_of_saved)⟩, ?_⟩
    · exact ⟨(List.append_assoc _ _ _).symm, holds_resumed holds isSaved kept, holds.effects,
        holds.appState⟩
    · rw [holds.stack] at fits
      simp only [List.length_append] at fits ⊢
      omega

/-- A run follows a step of the ideal machine in the steps that this charges. -/
theorem Represents.step (static : IsStatic main before) (sound : build.Sound state)
    (represents : build.Represents limits state run)
    (steps : Ideal.Step build.setting limits env state cost later) :
    ∃ run', State.Travels limits env build.code run cost run' ∧
      build.Represents limits later run' := by
  cases steps with
  | label isFlat here =>
    obtain ⟨⟨_, isFlat', nears⟩, memory, fits⟩ := represents
    cases isFlat.symm.trans isFlat'
    exact ⟨run, .refl, ⟨_, isFlat', nears.past isFlat' here⟩, memory, fits⟩
  | next isFlat here acts =>
    obtain ⟨line, arguments, whole, executed⟩ :=
      represents.exists_executed static isFlat here acts nofun
    exact ⟨_, .single (.intro executed.fetched executed.executed .next),
      executed.represents isFlat executed.nears⟩
  | jump isFlat here acts isTarget =>
    obtain ⟨line, arguments, whole, executed⟩ :=
      represents.exists_executed static isFlat here acts nofun
    have leads := fun site => target_of_label site (lookup_of_flat isFlat)
      executed.resolved (labelPosition?_elements isTarget)
    exact ⟨_, .single (.intro executed.fetched executed.executed (.jump (leads _))),
      executed.represents isFlat rfl⟩
  | call isFlat here calls isDeclared isCallee isStack isCount shallow room =>
    exact represents.call static sound isFlat here calls isDeclared isCallee isStack isCount
      shallow room
  | back isFlat here isReturn isDeclared isCount =>
    exact represents.back static isFlat here isReturn rfl isDeclared isCount

/-! ## Runs -/

/-- A run ends where the ideal machine does. -/
theorem Represents.ends (static : IsStatic main before) (sound : build.Sound state)
    (represents : build.Represents limits state run)
    (ends : Ideal.Ends build.setting limits env state count result) :
    ∃ outcome, State.Ends limits env build.code run outcome ∧
      Ideal.Delivers outcome result (run.steps + count) := by
  induction ends generalizing run with
  | halt isFlat here acts =>
    obtain ⟨line, arguments, whole, executed⟩ :=
      represents.exists_executed static isFlat here acts nofun
    obtain ⟨_, holds, _⟩ := executed.memory
    exact ⟨_, ⟨0, run, .refl, .halt executed.fetched executed.executed⟩, rfl, holds.effects,
      holds.appState, rfl⟩
  | step steps _ ih =>
    obtain ⟨run', travels, represents'⟩ := represents.step static sound steps
    obtain ⟨outcome, ends, delivers⟩ := ih (sound.step static steps) represents'
    rw [travels.steps, Nat.add_assoc] at delivers
    exact ⟨outcome, .of_travels travels ends, delivers⟩

end Build

end ContractBackend
