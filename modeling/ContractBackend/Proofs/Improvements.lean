import ContractBackend.Proofs.Ideal.Simulation

/-!
# Improvements do not change what a program does

The ideal machine ends where a run of static code does. The run has executed every instruction that
it has come to, and for each of them the ideal machine has what it takes: the values of the
instruction are those of the activation at hand, the slots that it loads have values, and what has
been saved on the stack before a call has found room there.

A static program that is compiled with improvements ends as the one that is compiled without them,
with the same verdict and effects, and in no more steps. Both are followed by the ideal machine,
where every activation has its slots to itself, so that it does not matter which cells the slots
have been given and which of them are saved around calls.
-/

namespace ContractBackend

open Machine (State Limits Environment Value Flow Outcome)

/-- An outcome tells the result. -/
theorem Ideal.Delivers.unique {outcome : Outcome} {result other : Result} {count number : Nat}
    (delivers : Delivers outcome result count) (delivers' : Delivers outcome other number) :
    other = result ∧ number = count := by
  obtain ⟨approved, effects, appState⟩ := result
  obtain ⟨approved', effects', appState'⟩ := other
  constructor
  · rw [Result.mk.injEq]
    exact ⟨delivers'.approved.symm.trans delivers.approved,
      delivers'.effects.symm.trans delivers.effects,
      delivers'.appState.symm.trans delivers.appState⟩
  · exact delivers'.steps.symm.trans delivers.steps

namespace Build

variable {main : Expr} {options : CompileOptions} {before : Program}
  {build : Build main options before} {routine : Routine} {flat : FlatCode}
  {position height : Nat} {slots : Slot → Option Value} {instr : Instr} {limits : Limits}
  {env : Environment} {state : Ideal.State} {run : State} {outcome : Outcome}

namespace Ready

/-- A branch has a target. -/
theorem exists_target (ready : build.Ready routine flat position height slots)
    (here : flat[position]? = some (.instr instr)) (branches : instr.op.isBranch = true) :
    ∃ op label target, instr = .branch op label ∧ flat.labelPosition? label = some target := by
  cases ready.safe.passes.instr here with
  | leave exits =>
    cases op : instr.op <;> simp_all [Opcode.isExit, Opcode.isBranch]
  | move _ moves =>
    have straight := (before.gauge .static routine).straight moves
    rw [branches] at straight
    cases straight
  | jump isTarget | branch _ isTarget =>
    exact ⟨_, _, _, rfl, isTarget⟩

end Ready

/-- The ideal machine can return to the caller. -/
theorem Sound.exists_back (sound : build.Sound state)
    (isFlat : build.flat.lookup state.routine = some flat)
    (here : flat[state.position]? = some (.instr instr)) (isReturn : instr.op = .retsub) :
    ∃ cost later, Ideal.Step build.setting limits env state cost later ∧ 0 < cost := by
  obtain ⟨routine, position, memory, frames⟩ := state
  obtain ⟨⟨_, ready⟩, backed⟩ := sound
  cases isFlat.symm.trans ready.isFlat
  obtain ⟨notMain, isCount⟩ := ready.back here isReturn
  cases backed with
  | main => exact absurd rfl notMain
  | @call _ _ callee _ _ _ _ _ handle isDeclared =>
    have results : before.results (.subroutine callee) = if handle.returns.isValue then 1 else 0 := by
      simp [Program.results, isDeclared, Returns.results]
    exact ⟨_, _, .back isFlat here isReturn isDeclared (isCount.trans results),
      Nat.add_pos_left Nat.one_pos _⟩

/-- The ideal machine can make a call that a run has made: what has been saved found room on the
stack, and the call was not too deep. -/
theorem Represents.exists_call (static : IsStatic main before) (sound : build.Sound state)
    (represents : build.Represents limits state run)
    (ends : State.Ends limits env build.code run outcome)
    (isFlat : build.flat.lookup state.routine = some flat)
    (here : flat[state.position]? = some (.instr instr)) (isCall : instr.op = .callsub) :
    ∃ cost later, Ideal.Step build.setting limits env state cost later ∧ 0 < cost := by
  obtain ⟨⟨_, ready⟩, _⟩ := sound
  cases isFlat.symm.trans ready.isFlat
  obtain ⟨⟨_, isFlat', nears⟩, ⟨base, holds, waiting⟩, fits⟩ := represents
  cases isFlat.symm.trans isFlat'
  obtain ⟨id, others, operands, calls⟩ := ready.exists_callee here isCall
  obtain ⟨handle, isDeclared, enough, _⟩ := ready.call here calls
  obtain ⟨low, lower, site⟩ :=
    exists_callSite isFlat here calls (build.sameDeclarations.declared ▸ isDeclared)
  have small := static.made.argCount_lt isDeclared
  obtain ⟨_, executes⟩ := site.located_saves.exists_executes
    (fun _ => site.surrounds.inserted_of_mem_saves) nears ends
  -- The run goes on to the call itself.
  have count : (state.memory.stack.take handle.argCount).length = handle.argCount :=
    List.length_take_of_le enough
  have isStack : run.memory.stack = state.memory.stack.take handle.argCount ++
      (state.memory.stack.drop handle.argCount ++ base) := by
    rw [← List.append_assoc, List.take_append_drop, holds.stack]
  have room : run.memory.stack.length + (build.setting.saved state.routine id).length ≤
      limits.maxStack := by
    obtain ⟨_, space, _⟩ :=
      (Link.Resolver.executes_saves small site.surrounds.low count isStack).mp executes
    by_cases none : build.setting.saved state.routine id = []
    · rwa [none]
    · exact space none
  obtain ⟨line, nears', travels⟩ :=
    site.travels_saves small count isStack room nears
  obtain ⟨arguments, fetched, resolved⟩ := site.located_call.fetch nears'
  obtain ⟨_, _, isCallee⟩ := target_of_callee operands resolved
  rw [lookup_table, Option.map_eq_some_iff] at isCallee
  obtain ⟨callee, isCallee, _⟩ := isCallee
  obtain ⟨flow, _, executed, continues⟩ := (travels.ends ends).exists_execute fetched
  have isFlow : flow = .call := by
    have flows := (Machine.flows_of_execute executed).1
    rwa [isCall] at flows
  subst isFlow
  obtain ⟨_, impossible⟩ | ⟨_, goes⟩ := continues
  · cases impossible
  cases goes with
  | call shallow =>
    rw [holds.stack, List.length_append, ← waiting.below_eq] at room
    rw [waiting.length_eq] at shallow
    exact ⟨_, _, .call isFlat here calls isDeclared isCallee (List.take_append_drop _ _).symm count
      shallow (by omega), Nat.succ_pos _⟩

/-- The ideal machine goes on or ends where a run has executed an instruction. -/
theorem Represents.exists_step (static : IsStatic main before) (sound : build.Sound state)
    (represents : build.Represents limits state run)
    (ends : State.Ends limits env build.code run outcome)
    (isFlat : build.flat.lookup state.routine = some flat)
    (here : flat[state.position]? = some (.instr instr)) :
    (∃ cost later, Ideal.Step build.setting limits env state cost later ∧ 0 < cost) ∨
      ∃ result, Ideal.Ends build.setting limits env state 1 result := by
  by_cases isCall : instr.op = .callsub
  · exact .inl (represents.exists_call static sound ends isFlat here isCall)
  by_cases isReturn : instr.op = .retsub
  · exact .inl (sound.exists_back isFlat here isReturn)
  obtain ⟨⟨_, ready⟩, _⟩ := sound
  cases isFlat.symm.trans ready.isFlat
  obtain ⟨⟨_, isFlat', nears⟩, ⟨base, holds, waiting⟩, fits⟩ := represents
  cases isFlat.symm.trans isFlat'
  obtain ⟨line, arguments, fetched, resolved, _⟩ :=
    exists_fetch isFlat here isCall nears
  obtain ⟨flow, whole, executed, continues⟩ := ends.exists_execute fetched
  obtain ⟨after, acts⟩ :=
    holds.exists_acts (build.safe_static static).2 ready here isCall isReturn resolved executed
  rw [← waiting.below_eq] at acts
  obtain ⟨approved, rfl⟩ | ⟨_, goes⟩ := continues
  · exact .inr ⟨_, .halt isFlat here acts⟩
  cases goes with
  | next => exact .inl ⟨1, _, .next isFlat here acts, Nat.one_pos⟩
  | jump =>
    obtain ⟨op, label, target, rfl, isTarget⟩ := ready.exists_target here acts.flows.isBranch
    exact .inl ⟨1, _, .jump isFlat here acts isTarget, Nat.one_pos⟩
  | call => exact absurd acts.flows.eq_callsub isCall
  | back => exact absurd acts.flows.eq_retsub isReturn

/-- The ideal machine passes over labels. -/
theorem Represents.exists_instr (static : IsStatic main before)
    (sound : build.Sound state) (represents : build.Represents limits state run)
    (env : Environment) :
    ∃ position flat instr, build.flat.lookup state.routine = some flat ∧
      flat[position]? = some (.instr instr) ∧
      build.Sound { state with position } ∧ build.Represents limits { state with position } run ∧
      ∀ {count result}, Ideal.Ends build.setting limits env { state with position } count result →
        Ideal.Ends build.setting limits env state count result := by
  obtain ⟨flat, ready⟩ := sound.ready
  generalize isLeft : flat.length - state.position = left
  induction left generalizing state with
  | zero =>
    obtain ⟨item, here⟩ := ready.safe.exists_item
    have inside := (List.getElem?_eq_some_iff.mp here).1
    omega
  | succ left ih =>
    obtain ⟨item, here⟩ := ready.safe.exists_item
    cases item with
    | instr instr =>
      exact ⟨state.position, flat, instr, ready.isFlat, here, sound, represents, fun ends => ends⟩
    | label label =>
      have steps : Ideal.Step build.setting limits env state 0
          { state with position := state.position + 1 } := .label ready.isFlat here
      obtain ⟨run', travels, represents'⟩ := represents.step static sound steps
      cases travels
      have isLess : flat.length - (state.position + 1) = left := by omega
      obtain ⟨position, flat', instr, isFlat, here', sound', represents'', passes⟩ :=
        ih (sound.step static steps) represents' (ready.label here) isLess
      refine ⟨position, flat', instr, isFlat, here', sound', represents'', fun ends => ?_⟩
      have behind := Ideal.Ends.step steps (passes ends)
      rwa [Nat.zero_add] at behind

/-- The ideal machine ends where a run does. -/
theorem Represents.exists_ends (static : IsStatic main before)
    (sound : build.Sound state) (represents : build.Represents limits state run)
    (ends : State.Ends limits env build.code run outcome) :
    ∃ count result, Ideal.Ends build.setting limits env state count result := by
  obtain ⟨number, last, travels, stops⟩ := ends
  induction number using Nat.strongRecOn generalizing state run with
  | ind number ih =>
    obtain ⟨position, flat, instr, isFlat, here, sound', represents', passes⟩ :=
      represents.exists_instr static sound env
    rcases represents'.exists_step static sound' ⟨number, last, travels, stops⟩ isFlat here with
      ⟨cost, later, steps, positive⟩ | ⟨result, ends⟩
    · obtain ⟨run', travels', represents''⟩ := represents'.step static sound' steps
      obtain ⟨rest, isNumber, behind⟩ := travels'.exists_rest travels stops
      have less : rest < number := by omega
      obtain ⟨count, result, ends⟩ := ih rest less (sound'.step static steps) represents'' behind
      exact ⟨_, result, passes (.step steps ends)⟩
    · exact ⟨1, result, passes ends⟩

/-- Runs of static code are runs of the ideal machine: they end alike, after as many steps. -/
theorem run_iff_ends (static : IsStatic main before)
    (build : Build main options before) {count : Nat} {result : Ideal.Result} :
    (∃ outcome, Machine.run build.assembly env limits = .ok outcome ∧
        Ideal.Delivers outcome result count) ↔
      Ideal.Ends build.setting limits env (build.setting.initial env) count result ∧
        count ≤ limits.maxSteps := by
  have sound := build.sound_initial static env
  have represents := build.represents_initial static limits env
  constructor
  · rintro ⟨outcome, isOk, delivers⟩
    obtain ⟨runs, inTime⟩ := State.run_eq_ok_iff.mp isOk
    obtain ⟨count', result', ends⟩ := represents.exists_ends static sound runs
    obtain ⟨other, runs', delivers'⟩ := represents.ends static sound ends
    cases runs.unique runs'
    have steps : (State.initial env).steps + count' = count' := Nat.zero_add count'
    rw [steps] at delivers'
    obtain ⟨rfl, rfl⟩ := delivers'.unique delivers
    exact ⟨ends, delivers.steps ▸ inTime⟩
  · rintro ⟨ends, inTime⟩
    obtain ⟨outcome, runs, delivers⟩ := represents.ends static sound ends
    have steps : (State.initial env).steps + count = count := Nat.zero_add count
    rw [steps] at delivers
    exact ⟨outcome, State.run_eq_ok_iff.mpr ⟨runs, delivers.steps ▸ inTime⟩, delivers⟩

end Build

variable {main : Expr} {before : Program}

/-- Improvements preserve runs. -/
theorem improvements_preserve_runs (options : CompileOptions) (static : IsStatic main before)
    {plain improved : Artifact} {after later : Program}
    (plainly : (compile main { options with optimize := {} }).run before = (.ok plain, after))
    (compiled : (compile main options).run before = (.ok improved, later))
    {limits : Limits} {env : Environment} {outcome : Outcome}
    (runs : Machine.run plain.assembly env limits = .ok outcome) :
    ∃ other, Machine.run improved.assembly env limits = .ok other ∧
      other.approved = outcome.approved ∧ other.memory.effects = outcome.memory.effects ∧
      other.memory.appState = outcome.memory.appState ∧ other.steps ≤ outcome.steps := by
  obtain ⟨first, rfl, _⟩ := Build.run_compile_eq_ok.mp plainly
  obtain ⟨second, rfl, _⟩ := Build.run_compile_eq_ok.mp compiled
  have delivers : Ideal.Delivers outcome
      ⟨outcome.approved, outcome.memory.effects, outcome.memory.appState⟩ outcome.steps :=
    ⟨rfl, rfl, rfl, rfl⟩
  obtain ⟨ends, inTime⟩ := (first.run_iff_ends static).mp ⟨outcome, runs, delivers⟩
  obtain ⟨fewer, less, ends'⟩ := second.ends_of_plain first static rfl ⟨rfl, rfl⟩ ends
  obtain ⟨other, runs', delivers'⟩ :=
    (second.run_iff_ends static).mpr ⟨ends', Nat.le_trans less inTime⟩
  exact ⟨other, runs', delivers'.approved, delivers'.effects, delivers'.appState,
    delivers'.steps ▸ less⟩

/-! ## A program that is improved -/

/-- A subroutine that calls itself: the sum of squares. -/
def squares : Handle := ⟨0, "squares", 1, .value .uint64⟩

/-- A variable that is loaded once, right behind its store. -/
def square : Var := ⟨⟨0, none⟩, .uint64⟩

/-- The argument of the subroutine. -/
def squaresOf : Var := ⟨⟨1, none⟩, .any⟩

def squaresBody : Expr :=
  .ifElse (.binary .eq squaresOf.load (.int 0))
    (.int 0)
    (.seq [square.store (.binary .mul squaresOf.load squaresOf.load),
      .binary .add square.load (.call squares [.binary .sub squaresOf.load (.int 1)])])

def squaresProgram : Program where
  slots := ⟨2⟩
  subroutines := #[⟨squares, [squaresOf], .pending [] fun _ => (squaresBody, [])⟩]

def squaresMain : Expr := .retValue (.binary .eq (.call squares [.int 2]) (.int 5))

theorem isStatic_squares : IsStatic squaresMain squaresProgram where
  made := Program.Made.define (.newVar .uint64 none .empty) "squares" 1 (.value .uint64) []
    fun _ => (squaresBody, [])
  disciplined := rfl
  static := rfl
  bodies := by
    intro id subroutine found
    match id with
    | 0 =>
      cases found
      exact fun _ _ => ⟨rfl, rfl⟩
    | id + 1 => cases found

theorem exists_run_squares :
    ∃ plain after outcome, (compile squaresMain {}).run squaresProgram = (.ok plain, after) ∧
      Machine.run plain.assembly {} = .ok outcome ∧ outcome.approved = true ∧ outcome.steps = 59 := by
  have isOk : (((compile squaresMain {}).run squaresProgram).1.toOption.bind fun plain =>
      (Machine.run plain.assembly {}).toOption.map fun outcome =>
        (outcome.approved, outcome.steps)) = some (true, 59) := by
    decide +kernel
  obtain ⟨plain, isPlain, runs⟩ := Option.bind_eq_some_iff.mp isOk
  obtain ⟨outcome, isOutcome, same⟩ := Option.map_eq_some_iff.mp runs
  obtain ⟨approved, steps⟩ := Prod.mk.inj same
  obtain ⟨after, compiled⟩ := Fallible.exists_eq_ok isPlain
  exact ⟨plain, after, outcome, compiled, Fallible.toOption_eq_some.mp isOutcome, approved, steps⟩

theorem exists_compile_squares :
    ∃ improved after, (compile squaresMain { optimize := .all }).run squaresProgram =
      (.ok improved, after) :=
  Fallible.exists_of_isSome (by decide +kernel)

theorem improvements_preserve_runs_squares :
    IsStatic squaresMain squaresProgram ∧
      ∃ plain improved after later,
        (compile squaresMain {}).run squaresProgram = (.ok plain, after) ∧
        (compile squaresMain { optimize := .all }).run squaresProgram = (.ok improved, later) ∧
        ∃ outcome other, Machine.run plain.assembly {} = .ok outcome ∧ outcome.approved = true ∧
          outcome.steps = 59 ∧ Machine.run improved.assembly {} = .ok other ∧
          other.approved = outcome.approved ∧ other.memory.effects = outcome.memory.effects ∧
          other.memory.appState = outcome.memory.appState ∧ other.steps ≤ outcome.steps := by
  obtain ⟨plain, after, outcome, plainly, runs, approved, steps⟩ := exists_run_squares
  obtain ⟨improved, later, compiled⟩ := exists_compile_squares
  obtain ⟨other, preserved⟩ :=
    improvements_preserve_runs { optimize := .all } isStatic_squares plainly compiled runs
  exact ⟨isStatic_squares, plain, improved, after, later, plainly, compiled, outcome, other, runs,
    approved, steps, preserved⟩

end ContractBackend
