import ContractBackend.Proofs.Run.Regions

/-!
# The calling convention

Where all expressions are disciplined, an activation works on values of its own, which lie on top
of what it found below its arguments. A subroutine that returns leaves what it is declared to
return in place of its arguments.
-/

namespace ContractBackend

open Machine (State Limits Environment Memory Value)

variable {arguments : List Argument}

/-- The stack effect of an instruction is what it does once its operands are resolved. -/
theorem Instr.touched_of_effect? {instr : Instr} {effect : StackEffect} {resolver : Link.Resolver}
    {scope : String} (resolved : instr.operands.mapM (resolver.operand scope) = .ok arguments)
    (known : instr.effect? = some effect) :
    Machine.touched instr.op arguments = effect.pops ∧
      Machine.yielded instr.op arguments = effect.pushes := by
  refine Machine.touched_of_depth known fun _ depth others operands => ?_
  rw [operands] at resolved
  obtain _ | ⟨⟨⟩, _⟩ := Fallible.mapM_eq_ok.mp resolved
  exact ⟨_, rfl⟩

namespace Activation

/-- What an activation found below its arguments. -/
def below (program : Program) (activation : Activation) : List Value :=
  activation.entered.drop (program.argCount activation.routine)

/-- An activation has a number of values of its own on top of what it found below its
arguments. -/
def Owns (program : Program) (stack : List Value) (activation : Activation) (level : Level) :
    Prop :=
  program.argCount activation.routine ≤ activation.entered.length ∧
    ∃ own, level = some own.length ∧ stack = own ++ activation.below program

/-- A caller has values of its own below the arguments of the callee, and gets the results of the
callee in their place. -/
def Awaits (program : Program) (callee : Routine) (entered : List Value) (caller : Activation)
    (level : Level) : Prop :=
  program.argCount caller.routine ≤ caller.entered.length ∧
    ∃ own, level = some (program.results callee + own.length) ∧
      entered.drop (program.argCount callee) = own ++ caller.below program

end Activation

namespace Build

variable {main : Expr} {options : CompileOptions} {before : Program}
  {build : Build main options before} {dialect : Bool → Dialect} {limits : Limits}
  {env : Environment}

def startHeight (before : Program) (routine : Routine) : Level := some (before.argCount routine)

/-- An instruction with a known effect, executed on values of the activation. -/
theorem owns_of_performs {program : Program} {activation : Activation} {height : Nat}
    {op : Opcode} {effect : StackEffect} {memory after : Memory}
    (owns : activation.Owns program memory.stack (some height)) (enough : effect.pops ≤ height)
    (effects : Machine.touched op arguments = effect.pops ∧
      Machine.yielded op arguments = effect.pushes)
    (performs : Machine.Performs limits op arguments memory after) :
    activation.Owns program after.stack (some (height - effect.pops + effect.pushes)) := by
  obtain ⟨arguments, own, isHeight, isStack⟩ := owns
  cases isHeight
  obtain ⟨made, isMade, isAfter⟩ := performs.stack
  refine ⟨arguments, made ++ own.drop effect.pops, ?_, ?_⟩
  · rw [List.length_append, List.length_drop, isMade, effects.2, Nat.add_comm]
  · rw [isAfter, effects.1, isStack, List.drop_append_of_le_length enough, List.append_assoc]

/-- What activations own is kept in a run. -/
theorem sustains_owns (build : Build main options before) (dialect : Bool → Dialect)
    (limits : Limits) (env : Environment) :
    build.Sustains (before.gauge dialect) (startHeight before) limits env
      (fun memory => Activation.Owns before memory.stack) (Activation.Awaits before) where
  initial := ⟨Nat.le_refl 0, [], rfl, rfl⟩
  straight := by
    intro memory next top line level after code index instr arguments inserted owns fetches _ goes
      noCall moves executed
    obtain ⟨argued, own, isLevel, isStack⟩ := owns
    subst isLevel
    obtain ⟨effect, known, enough, rfl⟩ := exists_effect_of_move moves
    have straight : instr.effect? = some effect := by
      rw [Instr.effectIn?, CallGraph.callee?, if_neg noCall] at known
      exact known
    have owns := owns_of_performs ⟨argued, own, rfl, isStack⟩ enough
      (Instr.touched_of_effect? fetches.resolved straight) (Machine.flows_of_execute executed).2
    cases inserted <;> exact owns
  branch := by
    intro memory next top line level after code index instr arguments flow owns fetches conditional
      tests executed
    obtain ⟨argued, own, isLevel, isStack⟩ := owns
    subst isLevel
    cases own with
    | nil => cases tests
    | cons value rest =>
      cases tests
      have effects : Machine.touched instr.op arguments = (StackEffect.mk 1 0).pops ∧
          Machine.yielded instr.op arguments = (StackEffect.mk 1 0).pushes := by
        rcases conditional with op | op <;> rw [op] <;> exact ⟨rfl, rfl⟩
      exact owns_of_performs ⟨argued, _, rfl, isStack⟩ (Nat.le_add_left 1 _) effects
        (Machine.flows_of_execute executed).2
  call := by
    intro memory top line level after code index instr arguments id owns fetches calls moves
    obtain ⟨argued, own, isLevel, isStack⟩ := owns
    subst isLevel
    obtain ⟨effect, known, enough, rfl⟩ := exists_effect_of_move moves
    rw [Instr.effectIn?, calls] at known
    obtain ⟨handle, isDeclared, rfl⟩ := Option.map_eq_some_iff.mp known
    have argCount : before.argCount (.subroutine id) = handle.argCount := by
      simp [Program.argCount, isDeclared]
    have results : before.results (.subroutine id) = if handle.returns.isValue then 1 else 0 := by
      simp [Program.results, Returns.results, isDeclared]
    have enough : handle.argCount ≤ own.length := enough
    have deep : handle.argCount ≤ memory.stack.length := by
      rw [isStack, List.length_append]
      omega
    refine ⟨⟨argCount ▸ deep, memory.stack.take handle.argCount, ?_, ?_⟩,
      argued, own.drop handle.argCount, ?_, ?_⟩
    · rw [startHeight, argCount, List.length_take_of_le deep]
    · rw [Activation.below, Activation.enter, argCount, List.take_append_drop]
    · rw [results, List.length_drop, Nat.add_comm]
    · rw [argCount, isStack, List.drop_append_of_le_length enough]
  back := by
    intro memory top caller level after instr owns isReturn leaves waits
    obtain ⟨_, own, isLevel, isStack⟩ := owns
    obtain ⟨argued, waiting, isAfter, isEntered⟩ := waits
    have isResult : own.length = before.results top.routine :=
      (leaves.2 own.length isLevel).1 isReturn
    refine ⟨argued, own ++ waiting, ?_, ?_⟩
    · rw [isAfter, List.length_append, isResult]
    · rw [isStack, Activation.below, isEntered, List.append_assoc]

/-- The calling convention for the activation at hand: what it works on are values of its own, and
a return leaves the results in place of the arguments. -/
structure Conforms (build : Build main options before) (limits : Limits) (env : Environment)
    (state : State) (activation : Activation) : Prop where
  /-- The arguments were there on entry. -/
  argued : before.argCount activation.routine ≤ activation.entered.length
  own : ∃ own, state.memory.stack = own ++ activation.below before ∧
    ∀ line op arguments, build.code.fetch state.line = some (line, op, arguments) →
      Machine.touched op arguments ≤ own.length ∧
      (op = .retsub → own.length = before.results activation.routine) ∧
      ∀ next, state.step limits env build.code = .ok (.running next) → ∃ made,
        next.memory.stack = made ++ state.memory.stack.drop (Machine.touched op arguments)

variable {state : State} {top : Activation} {rest : List Activation} {level : Level}

/-- An instruction touches values of the activation only. -/
theorem touched_of_fetches {routine : Routine} {line height : Nat} {code : List Link.Element}
    {index : Nat} {instr : Instr}
    (fetches : build.Fetches (before.gauge dialect) routine line (some height) code index instr
      arguments) :
    Machine.touched instr.op arguments ≤ height ∧
      (instr.op = .retsub → height = before.results routine) := by
  cases fetches.passes.instr fetches.here with
  | leave exits leaves =>
    obtain ⟨isReturn, isEnd⟩ := leaves.2 height rfl
    refine ⟨?_, isReturn⟩
    cases op : instr.op with
    | ret => exact isEnd op
    | retsub | err => exact Nat.zero_le _
    | _ => simp [op, Opcode.isExit] at exits
  | move goes moves =>
    refine ⟨?_, fun isReturn => by simp [isReturn, Opcode.isExit] at goes⟩
    by_cases isCall : instr.op = .callsub
    · rw [isCall]
      exact Nat.zero_le _
    · obtain ⟨effect, known, enough, _⟩ := exists_effect_of_move moves
      rw [Instr.effectIn?, CallGraph.callee?, if_neg isCall] at known
      rw [(Instr.touched_of_effect? fetches.resolved known).1]
      exact enough
  | jump =>
    exact ⟨Nat.zero_le _, by rintro ⟨⟩⟩
  | branch conditional _ tests =>
    cases height with
    | zero => cases tests
    | succ height =>
      rcases conditional with rfl | rfl <;> exact ⟨Nat.le_add_left 1 _, by rintro ⟨⟩⟩

theorem conforms_of_kept
    (kept : build.Kept (before.gauge dialect) (fun memory => Activation.Owns before memory.stack)
      (Activation.Awaits before) state top rest level) :
    build.Conforms limits env state top := by
  obtain ⟨argued, own, rfl, isStack⟩ := kept.holds
  obtain ⟨code, index, instr, arguments, fetches⟩ := kept.stands.fetch
  refine ⟨argued, own, isStack, fun line op arguments fetched => ?_⟩
  rw [fetches.fetched] at fetched
  cases fetched
  obtain ⟨enough, returns⟩ := touched_of_fetches fetches
  refine ⟨enough, returns, fun next steps => ?_⟩
  obtain ⟨⟨isFetched, executed, goes⟩, _⟩ := State.of_step_eq_ok steps
  rw [fetches.fetched] at isFetched
  cases isFetched
  obtain ⟨made, _, isMade⟩ := (Machine.flows_of_execute executed).2.stack
  cases goes <;> exact ⟨made, isMade⟩

/-- The code of disciplined expressions is safe, and the height of the stack is known. -/
theorem certified_disciplined (build : Build main options before) (made : before.Made)
    (disciplined : main.disciplined = true)
    (bodies : before.BodiesHave fun body => body.disciplined = true) :
    build.Certified (before.gauge .regular) (startHeight before) := by
  have counted : ∀ height, some 0 = some height → height = 0 ∧ before.IsWellDeclared :=
    fun height known => ⟨(Option.some.inj known).symm, made.isWellDeclared⟩
  have certified := build.certified Dialect.complete_regular isTidy_of_regular
    (Expr.fits_disciplined disciplined true)
    (bodies.mono fun _ disciplined => Expr.fits_disciplined disciplined false) counted
  have heights : (fun routine => (some 0).map (· + before.argCount routine)) =
      startHeight before := by
    funext routine
    simp [startHeight]
  rwa [heights] at certified

/-- Subroutines keep to the calling convention, in programs whose expressions are
disciplined. -/
theorem subroutines_keep_convention {artifact : Artifact} {after : Program}
    (made : before.Made) (disciplined : main.disciplined = true)
    (bodies : before.BodiesHave fun body => body.disciplined = true)
    (compiled : (compile main options).run before = (.ok artifact, after)) :
    ∃ build : Build main options before, build.artifact = artifact ∧
      ∀ limits env state chain, build.Reaches limits env state chain →
        ∃ activation rest, chain = activation :: rest ∧
          build.Conforms limits env state activation := by
  obtain ⟨build, rfl, _⟩ := run_compile_eq_ok.mp compiled
  have certified := build.certified_disciplined made disciplined bodies
  refine ⟨build, rfl, fun limits env state chain reaches => ?_⟩
  obtain ⟨top, rest, level, rfl, kept⟩ :=
    certified.exists_kept (build.sustains_owns .regular limits env) reaches
  exact ⟨top, rest, rfl, conforms_of_kept kept⟩

theorem subroutines_keep_convention_factorial :
    factorialProgram.Made ∧ factorialMain.disciplined = true ∧
      factorialProgram.BodiesHave (fun body => body.disciplined = true) ∧
      ∃ artifact after, (compile factorialMain { optimize := .all }).run factorialProgram =
          (.ok artifact, after) ∧
        ∃ build : Build factorialMain { optimize := .all } factorialProgram,
          build.artifact = artifact ∧
          ∀ limits env state chain, build.Reaches limits env state chain →
            ∃ activation rest, chain = activation :: rest ∧
              build.Conforms limits env state activation := by
  obtain ⟨artifact, after, compiled⟩ := exists_compile_factorial
  have disciplined : factorialMain.disciplined = true := rfl
  have bodies : factorialProgram.BodiesHave fun body => body.disciplined = true :=
    bodies_factorialProgram rfl
  exact ⟨made_factorialProgram, disciplined, bodies, artifact, after, compiled,
    subroutines_keep_convention made_factorialProgram disciplined bodies compiled⟩

end Build

/-! ## Without discipline -/

/-- A subroutine without arguments, and a program that has nothing else. -/
def plain : Handle := ⟨0, "f", 0, .value .uint64⟩

def plainProgram (locals : List Ty) (body : List Var → Expr) : Program where
  subroutines := #[⟨plain, [], .pending locals fun scope => (body scope.locals, [])⟩]

theorem made_plainProgram (locals : List Ty) (body : List Var → Expr) :
    (plainProgram locals body).Made :=
  Program.Made.define .empty "f" 0 (.value .uint64) locals fun scope => (body scope.locals, [])

theorem bodies_plainProgram {property : Expr → Prop} {locals : List Ty} {body : List Var → Expr}
    (holds : ∀ vars, property (body vars)) : (plainProgram locals body).BodiesHave property := by
  intro id subroutine found
  cases id with
  | zero =>
    cases found
    exact fun vars _ => holds vars
  | succ id => cases found

namespace Build

variable {main : Expr} {options : CompileOptions} {before : Program}

/-- Whether the instruction at hand takes values that the activation does not own, or returns with
more or fewer values than it should. -/
def trespasses (build : Build main options before) (state : State) (activation : Activation) :
    Bool :=
  (build.code.fetch state.line).any fun fetched =>
    decide (state.memory.stack.length < Machine.touched fetched.2.1 fetched.2.2 +
      (activation.below before).length) ||
    decide (fetched.2.1 = .retsub ∧ state.memory.stack.length ≠
      before.results activation.routine + (activation.below before).length)

theorem not_conforms_of_trespasses {build : Build main options before} {limits : Limits}
    {env : Environment} {state : State} {activation : Activation}
    (trespasses : build.trespasses state activation = true) :
    ¬ build.Conforms limits env state activation := by
  intro conforms
  obtain ⟨own, isStack, works⟩ := conforms.own
  obtain ⟨⟨line, op, arguments⟩, fetched, wrong⟩ := (Option.any_eq_true _ _).mp trespasses
  obtain ⟨enough, returns, _⟩ := works line op arguments fetched
  rw [isStack, List.length_append] at wrong
  simp only [Bool.or_eq_true, decide_eq_true_eq] at wrong
  rcases wrong with short | ⟨isReturn, differ⟩
  · omega
  · exact differ (congrArg (· + _) (returns isReturn))

theorem exists_not_conforms (count : Nat)
    (breaks : (make? main options before).any (holdsAfter count trespasses) = true) :
    ∃ build : Build main options before, ∃ state activation rest,
      build.Reaches {} {} state (activation :: rest) ∧ ¬ build.Conforms {} {} state activation := by
  obtain ⟨build, state, activation, rest, reaches, breaks⟩ := exists_reaches count breaks
  exact ⟨build, state, activation, rest, reaches, not_conforms_of_trespasses breaks⟩

end Build

/-- Code of the catalog does not always keep to the convention. An operator with an operand that
leaves no value takes one of the caller. A return from within an operand leaves the other operand
behind, and so does reading a variable without a value. -/
theorem catalog_code_breaks_convention :
    let taking : List Var → Expr := fun _ => .binary .eq (.int 1) (.seq [])
    let returning : List Var → Expr := fun _ =>
      .binary .add (.int 1) (.seq [.retValue (.int 2), .int 3])
    let reading : List Var → Expr := fun vars =>
      .seq ((vars.map fun var => .seq [var.store (.int 7), var.load]) ++ [.int 1])
    let main := Expr.retValue (.binary .add (.int 5) (.call plain []))
    main.isCatalog = true ∧
    ∀ body ∈ [taking, returning, reading],
      (plainProgram [.none] body).Made ∧
      (plainProgram [.none] body).BodiesHave (fun body => body.isCatalog = true) ∧
      ∃ build : Build main {} (plainProgram [.none] body), ∃ state activation rest,
        build.Reaches {} {} state (activation :: rest) ∧
        ¬ build.Conforms {} {} state activation := by
  intro taking returning reading main
  refine ⟨by decide, ?_⟩
  simp only [List.forall_mem_cons, List.not_mem_nil, false_imp_iff, forall_const, and_true]
  refine ⟨⟨made_plainProgram _ _, bodies_plainProgram fun _ => by decide,
      Build.exists_not_conforms 3 (by decide +kernel)⟩,
    ⟨made_plainProgram _ _, bodies_plainProgram fun _ => by decide,
      Build.exists_not_conforms 4 (by decide +kernel)⟩,
    made_plainProgram _ _, bodies_plainProgram fun vars => ?_,
    Build.exists_not_conforms 6 (by decide +kernel)⟩
  refine Expr.every_iff.mpr ⟨rfl, fun part isPart => ?_⟩
  obtain ⟨var, _, rfl⟩ | rfl : (∃ var ∈ vars, Expr.seq [var.store (.int 7), var.load] = part) ∨
      part = .int 1 := by
    simpa [reading, Expr.parts] using isPart
  all_goals rfl

end ContractBackend
