import ContractBackend.Proofs.Run.Control

/-!
# Activations

The activations of routines in a run: a call starts one, the return from it ends it. What is
kept of the activation at hand by each instruction, and of its caller by the call, holds in
every state of the run.
-/

namespace ContractBackend

open Machine (State Limits Environment Memory Value Flow)

structure Activation where
  routine : Routine
  /-- The stack on entry, with the arguments on top. -/
  entered : List Value
  /-- What the activation has stored to each slot last. -/
  stored : Slot → Option Value

namespace Activation

/-- The activation at its start. -/
def enter (routine : Routine) (entered : List Value) : Activation := ⟨routine, entered, fun _ => none⟩

/-- The activation after an instruction of its routine. -/
def after (activation : Activation) (instr : Instr) (stack : List Value) : Activation :=
  { activation with
    stored := fun slot =>
      if instr.storesTo slot then stack.head? else activation.stored slot }

end Activation

namespace Build

variable {α : Type} {main : Expr} {options : CompileOptions} {before : Program}

/-- The activations after a step, the one at hand first. Instructions that save slots do not
count as stores of the activation. -/
def advance (build : Build main options before) (state next : State) :
    List Activation → List Activation
  | [] => []
  | top :: rest =>
      match build.code.fetch state.line with
      | none => top :: rest
      | some (line, op, _) =>
          match op, build.origins[line]? with
          | .callsub, _ =>
              match build.origins[next.line]? with
              | some origin => .enter origin.routine next.memory.stack :: top :: rest
              | none => top :: rest
          | .retsub, _ => rest
          | _, some ⟨_, some (.instr instr), false⟩ => top.after instr state.memory.stack :: rest
          | _, _ => top :: rest

/-- A state that a run comes to, with the activations at that time. -/
inductive Reaches (build : Build main options before) (limits : Limits) (env : Environment) :
    State → List Activation → Prop where
  | start : Reaches build limits env (State.initial env) [.enter .main []]
  | step {state next : State} {chain : List Activation} : Reaches build limits env state chain →
      state.step limits env build.code = .ok (.running next) →
      Reaches build limits env next (build.advance state next chain)

/-- The state after a number of steps, if the run gets there. -/
def follow (build : Build main options before) (limits : Limits) (env : Environment) :
    Nat → Option (State × List Activation)
  | 0 => some (State.initial env, [.enter .main []])
  | count + 1 => do
      let (state, chain) ← build.follow limits env count
      match state.step limits env build.code with
      | .ok (.running next) => some (next, build.advance state next chain)
      | _ => none

theorem reaches_of_follow {build : Build main options before} {limits : Limits}
    {env : Environment} {count : Nat} {state : State} {chain : List Activation}
    (follows : build.follow limits env count = some (state, chain)) :
    build.Reaches limits env state chain := by
  induction count generalizing state chain with
  | zero =>
    cases follows
    exact .start
  | succ count ih =>
    obtain ⟨⟨middle, before⟩, isMiddle, follows⟩ := Option.bind_eq_some_iff.mp follows
    simp only at follows
    split at follows
    next steps =>
      cases follows
      exact .step (ih isMiddle) steps
    next => cases follows

/-- Whether a check succeeds after a number of steps, for the activation at hand. -/
def holdsAfter (count : Nat) (check : Build main options before → State → Activation → Bool)
    (build : Build main options before) : Bool :=
  match build.follow {} {} count with
  | some (state, activation :: _) => check build state activation
  | _ => false

theorem exists_reaches {check : Build main options before → State → Activation → Bool} (count : Nat)
    (holds : (make? main options before).any (holdsAfter count check) = true) :
    ∃ build : Build main options before, ∃ state activation rest,
      build.Reaches {} {} state (activation :: rest) ∧ check build state activation = true := by
  obtain ⟨build, _, holds⟩ := (Option.any_eq_true _ _).mp holds
  rw [holdsAfter] at holds
  split at holds
  next state activation rest follows =>
    exact ⟨build, state, activation, rest, reaches_of_follow follows, holds⟩
  next => cases holds

variable {build : Build main options before} {gauge : Routine → Gauge α} {start : Routine → α}
  {limits : Limits} {env : Environment} {state next : State} {routine : Routine} {level : α}
  {code : List Link.Element} {index : Nat} {instr : Instr} {arguments : List Argument}
  {top : Activation} {rest : List Activation}

section Advance

/-- What the instruction that is fetched comes from. -/
theorem Finds.exists_origin {line : Nat}
    (finds : build.Finds routine line code index instr arguments) :
    ∃ inserted, code[index]? = some ⟨.instr instr, inserted⟩ ∧
      build.origins[Link.lineOf build.table routine index]? =
        some ⟨routine, some (.instr instr), inserted⟩ := by
  have here := finds.here
  rw [List.getElem?_map, Option.map_eq_some_iff] at here
  obtain ⟨⟨_, inserted⟩, atIndex, isItem⟩ := here
  cases isItem
  exact ⟨inserted, atIndex, Link.origins_lineOf finds.found atIndex⟩

/-- An instruction is found where it comes from. -/
theorem exists_finds {line found : Nat} {op : Opcode} {inserted : Bool}
    (fetched : build.code.fetch line = some (found, op, arguments))
    (isOrigin : build.origins[found]? = some ⟨routine, some (.instr instr), inserted⟩) :
    ∃ code index, found = Link.lineOf build.table routine index ∧
      code[index]? = some ⟨.instr instr, inserted⟩ ∧
      build.Finds routine line code index instr arguments := by
  obtain ⟨code, isCode, ⟨index, ⟨_, _⟩, atIndex, rfl, isItem⟩ | ⟨_, _, _, isNone⟩⟩ :=
    Link.exists_of_origins build.isListed.nodup isOrigin
  · cases isItem
    have same := Link.origins_lineOf isCode atIndex
    rw [← origins, isOrigin] at same
    cases same
    have here : (code.map Link.Element.item)[index]? = some (.instr instr) := by
      rw [List.getElem?_map, atIndex]
      rfl
    obtain ⟨resolved, isResolved, there⟩ := build.isListed.lineOf_instr isCode here
    have isLine := (Machine.Code.of_fetch fetched).2
    rw [lines_code, there] at isLine
    cases isLine
    exact ⟨code, index, rfl, atIndex, isCode, here, fetched, isResolved⟩
  · cases isNone

/-- An instruction of the routine at hand. -/
theorem advance_straight
    (finds : build.Finds routine state.line code index instr arguments)
    (goes : instr.op.isExit = false) (noCall : instr.op ≠ .callsub) :
    ∃ inserted, code[index]? = some ⟨.instr instr, inserted⟩ ∧
      build.advance state next (top :: rest) =
        (if inserted then top else top.after instr state.memory.stack) :: rest := by
  obtain ⟨inserted, atIndex, isOrigin⟩ := finds.exists_origin
  refine ⟨inserted, atIndex, ?_⟩
  simp only [advance, finds.fetched, isOrigin]
  cases op : instr.op with
  | callsub => exact absurd op noCall
  | retsub => simp [op, Opcode.isExit] at goes
  | _ => cases inserted <;> rfl

theorem advance_branch (finds : build.Finds routine state.line code index instr arguments)
    (branches : instr.op.isBranch = true) :
    build.advance state next (top :: rest) = top :: rest := by
  have goes : instr.op.isExit = false ∧ instr.op ≠ .callsub ∧ instr.op ≠ .store := by
    cases op : instr.op <;> simp_all [Opcode.isBranch, Opcode.isExit]
  obtain ⟨inserted, _, advanced⟩ := advance_straight finds goes.1 goes.2.1
  rw [advanced]
  cases inserted with
  | true => rfl
  | false => simp [Activation.after, Instr.storesTo, goes.2.2]

theorem advance_call {id : SubroutineId} {callee : List Link.Element}
    (finds : build.Finds routine state.line code index instr arguments)
    (isCall : instr.op = .callsub) (isCallee : build.table.lookup (.subroutine id) = some callee)
    (isLine : next.line = Link.firstLine build.table (.subroutine id)) :
    build.advance state next (top :: rest) =
      .enter (.subroutine id) next.memory.stack :: top :: rest := by
  have isOrigin : build.origins[next.line]? = some ⟨.subroutine id, none, false⟩ := by
    rw [isLine]
    exact Link.origins_firstLine isCallee
  simp only [advance, finds.fetched, isCall, isOrigin]

theorem advance_back
    (finds : build.Finds routine state.line code index instr arguments)
    (isReturn : instr.op = .retsub) : build.advance state next (top :: rest) = rest := by
  simp only [advance, finds.fetched, isReturn]

end Advance

/-! ## What is kept in a run -/

/-- The activation at hand and those that wait for a call to return, with the lines at which they
go on. Of a waiting activation something holds that its callee does not change. -/
inductive Suspended (build : Build main options before) (gauge : Routine → Gauge α)
    (awaits : Routine → List Value → Activation → α → Prop) :
    Activation → List Activation → List Nat → Prop where
  | main {top : Activation} : top.routine = .main → Suspended build gauge awaits top [] []
  | call {top caller : Activation} {rest : List Activation} {line : Nat} {frames : List Nat}
      {level : α} {id : SubroutineId} : top.routine = .subroutine id →
      id ∈ build.callGraph.callees caller.routine →
      build.Stands gauge caller.routine line level → awaits top.routine top.entered caller level →
      Suspended build gauge awaits caller rest frames →
      Suspended build gauge awaits top (caller :: rest) (line :: frames)

theorem Suspended.congr {awaits : Routine → List Value → Activation → α → Prop}
    {other : Activation} {frames : List Nat}
    (suspended : build.Suspended gauge awaits top rest frames)
    (routine : other.routine = top.routine) (entered : other.entered = top.entered) :
    build.Suspended gauge awaits other rest frames := by
  cases suspended with
  | main isMain => exact .main (routine.trans isMain)
  | call isSub edge stands waits further =>
    exact .call (routine.trans isSub) edge stands (routine ▸ entered ▸ waits) further

/-- Something that each instruction keeps of the activation at hand. -/
structure Sustains (build : Build main options before) (gauge : Routine → Gauge α)
    (start : Routine → α) (limits : Limits) (env : Environment)
    (holds : Memory → Activation → α → Prop)
    (awaits : Routine → List Value → Activation → α → Prop) : Prop where
  initial : holds (State.initial env).memory (.enter .main []) (start .main)
  straight : ∀ {memory next : Memory} {top : Activation} {line : Nat} {level after : α}
    {code : List Link.Element} {index : Nat} {instr : Instr} {arguments : List Argument}
    {inserted : Bool}, holds memory top level →
    build.Fetches gauge top.routine line level code index instr arguments →
    code[index]? = some ⟨.instr instr, inserted⟩ → instr.op.isExit = false →
    instr.op ≠ .callsub → (gauge top.routine).move instr level = some after →
    Machine.execute limits env ⟨instr.op, Link.lineOf build.table top.routine index + 1⟩ arguments
      memory = .ok (.next, next) →
    holds next (if inserted then top else top.after instr memory.stack) after
  branch : ∀ {memory next : Memory} {top : Activation} {line : Nat} {level after : α}
    {code : List Link.Element} {index : Nat} {instr : Instr} {arguments : List Argument}
    {flow : Flow}, holds memory top level →
    build.Fetches gauge top.routine line level code index instr arguments →
    instr.op = .bnz ∨ instr.op = .bz → (gauge top.routine).test level = some after →
    Machine.execute limits env ⟨instr.op, Link.lineOf build.table top.routine index + 1⟩ arguments
      memory = .ok (flow, next) →
    holds next top after
  call : ∀ {memory : Memory} {top : Activation} {line : Nat} {level after : α}
    {code : List Link.Element} {index : Nat} {instr : Instr} {arguments : List Argument}
    {id : SubroutineId}, holds memory top level →
    build.Fetches gauge top.routine line level code index instr arguments →
    CallGraph.callee? instr = some id → (gauge top.routine).move instr level = some after →
    holds memory (.enter (.subroutine id) memory.stack) (start (.subroutine id)) ∧
      awaits (.subroutine id) memory.stack top after
  back : ∀ {memory : Memory} {top caller : Activation} {level after : α} {instr : Instr},
    holds memory top level → instr.op = .retsub → (gauge top.routine).leave instr level →
    awaits top.routine top.entered caller after → holds memory caller after

/-- A call stands in the code of the routine before slots are saved. -/
theorem Finds.mem_callees {line : Nat}
    (finds : build.Finds routine line code index instr arguments)
    {id : SubroutineId} (calls : CallGraph.callee? instr = some id) :
    id ∈ build.callGraph.callees routine := by
  have found := finds.found
  rw [lookup_table, Option.map_eq_some_iff] at found
  obtain ⟨flat, isFlat, isCode⟩ := found
  have member := List.mem_of_getElem? finds.here
  rw [← isCode, items_elements, List.mem_flatMap] at member
  obtain ⟨item, inFlat, member⟩ := member
  have isItem := Spill.eq_of_mem_expand member calls
  subst isItem
  exact CallGraph.mem_callees_ofRoutines.mpr ⟨flat, instr, isFlat, inFlat, calls⟩

/-- What is kept of the state of a run and its activations. -/
structure Kept (build : Build main options before) (gauge : Routine → Gauge α)
    (holds : Memory → Activation → α → Prop)
    (awaits : Routine → List Value → Activation → α → Prop) (state : State) (top : Activation)
    (rest : List Activation) (level : α) : Prop where
  stands : build.Stands gauge top.routine state.line level
  holds : holds state.memory top level
  suspended : build.Suspended gauge awaits top rest state.frames

section Kept

variable {holds : Memory → Activation → α → Prop}
  {awaits : Routine → List Value → Activation → α → Prop}

theorem Certified.keeps (certified : build.Certified gauge start)
    (sustains : build.Sustains gauge start limits env holds awaits)
    (kept : build.Kept gauge holds awaits state top rest level)
    (steps : state.step limits env build.code = .ok (.running next)) :
    ∃ top' rest' level', build.advance state next (top :: rest) = top' :: rest' ∧
      build.Kept gauge holds awaits next top' rest' level' := by
  obtain ⟨code, index, instr, arguments, fetches⟩ := kept.stands.fetch
  have finds := fetches.toFinds
  cases certified.moves fetches steps with
  | @straight after goes noCall moves executed frames stands =>
    obtain ⟨inserted, atIndex, advanced⟩ : ∃ inserted,
        code[index]? = some ⟨.instr instr, inserted⟩ ∧
          build.advance state next (top :: rest) = _ := advance_straight finds goes noCall
    have holds := sustains.straight kept.holds fetches atIndex goes noCall moves executed
    refine ⟨_, _, after, advanced, ?_, holds, ?_⟩
    · cases inserted <;> exact stands
    · rw [frames]
      cases inserted <;> exact kept.suspended.congr rfl rfl
  | jump isJump memory frames stands =>
    exact ⟨top, rest, level, advance_branch finds (by rw [isJump]; rfl), stands,
      memory ▸ kept.holds, frames ▸ kept.suspended⟩
  | @branch after _ conditional tests executed frames stands =>
    have branches : instr.op.isBranch = true := by
      rcases conditional with op | op <;> rw [op] <;> rfl
    exact ⟨top, rest, after, advance_branch finds branches, stands,
      sustains.branch kept.holds fetches conditional tests executed, frames ▸ kept.suspended⟩
  | call isCall callee moves memory isLine frames entered stays =>
    obtain ⟨code, isCallee⟩ : ∃ code, build.table.lookup (.subroutine _) = some code := by
      cases entered with
      | entry found | inside found => exact ⟨_, found⟩
    obtain ⟨holds, waits⟩ := sustains.call kept.holds fetches callee moves
    refine ⟨_, _, _, advance_call finds isCall isCallee isLine, entered, ?_, ?_⟩
    · rw [memory]
      exact holds
    · rw [frames, memory]
      exact .call rfl (fetches.mem_callees callee) stays waits kept.suspended
  | back isReturn leaves memory frames =>
    have suspended := kept.suspended
    rw [frames] at suspended
    cases suspended with
    | call _ _ stands waits further =>
      refine ⟨_, _, _, advance_back finds isReturn, stands, ?_, further⟩
      rw [memory]
      exact sustains.back kept.holds isReturn leaves waits

theorem Certified.exists_kept (certified : build.Certified gauge start)
    (sustains : build.Sustains gauge start limits env holds awaits) {chain : List Activation}
    (reaches : build.Reaches limits env state chain) :
    ∃ top rest level, chain = top :: rest ∧ build.Kept gauge holds awaits state top rest level := by
  induction reaches with
  | start =>
    have present : .main ∈ build.table.map Prod.fst := build.keys_table ▸ build.present
    obtain ⟨code, found⟩ := Option.ne_none_iff_exists'.mp (Keyed.mem_keys_iff.mp present)
    exact ⟨_, [], start .main, rfl, .entry found build.firstLine_main.symm (certified.safe found),
      sustains.initial, .main rfl⟩
  | step _ steps ih =>
    obtain ⟨top, rest, level, rfl, kept⟩ := ih
    exact certified.keeps sustains kept steps

end Kept

end Build

end ContractBackend
