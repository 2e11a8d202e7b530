import ContractBackend.Proofs.Build

/-!
# Legal instructions

The flat code is checked against the target before slots are saved around calls. What is inserted
then needs no check of its own: it is available wherever the call is. So every instruction of a
listing is available in the version and the mode that it is compiled for.
-/

namespace ContractBackend

/-! ## Where the instructions of a listing come from -/

namespace Link

/-- A line of a listing is the label of a subroutine, with its name, or an element of the code of a
routine, with the operands resolved. -/
theorem of_mem_lines {program : Program} {slots : SlotAssignment} {version : Version}
    {routines : RoutineTable FlatCode} {assembly : Assembly}
    (isOk : link program slots version routines = .ok assembly) :
    ∃ named, labels program ((subroutines routines).map Prod.fst) = .ok named ∧
      ∀ line ∈ assembly.lines,
        (∃ id subroutine, program.subroutine id = .ok subroutine ∧
          line = .label ((named.lookup id).getD "") (some subroutine.handle.name)) ∨
        ∃ entry ∈ routines, ∃ item ∈ entry.2,
          Resolver.item ⟨slots, named⟩ (Resolver.scope ⟨slots, named⟩ entry.1) item = .ok line := by
  simp only [link, Fallible.bind_eq_ok] at isOk
  obtain ⟨named, isNamed, isOk⟩ := isOk
  refine ⟨named, isNamed, fun line member => ?_⟩
  split at isOk
  next => simp at isOk
  next main isMain =>
    simp only [Fallible.bind_eq_ok, Fallible.pure_eq_ok] at isOk
    obtain ⟨mainLines, mainOk, subLines, subsOk, rfl⟩ := isOk
    rcases List.mem_append.mp member with inMain | inSubs
    · obtain ⟨item, inCode, resolved⟩ := Fallible.exists_of_mem_mapM mainOk inMain
      exact .inr ⟨_, mem_of_lookup isMain, item, inCode, resolved⟩
    · obtain ⟨lines, isLines, inLines⟩ := List.mem_flatten.mp inSubs
      obtain ⟨sub, isSub, made⟩ := Fallible.exists_of_mem_mapM subsOk isLines
      simp only [Resolver.subroutine, Fallible.bind_eq_ok, Fallible.pure_eq_ok] at made
      obtain ⟨subroutine, isSubroutine, own, isOwn, rfl⟩ := made
      obtain ⟨⟨routine, code⟩, inRoutines, isEntry⟩ := List.mem_filterMap.mp isSub
      obtain ⟨id, isId, rfl⟩ := Option.map_eq_some_iff.mp isEntry
      cases routine with
      | main => cases isId
      | subroutine =>
        cases isId
        rcases List.mem_cons.mp inLines with rfl | inOwn
        · exact .inl ⟨id, subroutine, isSubroutine, rfl⟩
        · obtain ⟨item, inCode, resolved⟩ := Fallible.exists_of_mem_mapM isOwn inOwn
          exact .inr ⟨_, inRoutines, item, inCode, resolved⟩

/-- The instruction on a line of a listing is one of a routine, with the operands resolved. -/
theorem exists_of_mem_lines {program : Program} {slots : SlotAssignment} {version : Version}
    {routines : RoutineTable FlatCode} {assembly : Assembly} {op : Opcode}
    {arguments : List Argument} (isOk : link program slots version routines = .ok assembly)
    (member : .instr op arguments ∈ assembly.lines) :
    ∃ entry ∈ routines, ∃ instr, .instr instr ∈ entry.2 ∧ instr.op = op ∧
      ∃ (resolver : Resolver) (scope : String),
        instr.operands.mapM (resolver.operand scope) = .ok arguments := by
  obtain ⟨named, _, lines⟩ := of_mem_lines isOk
  rcases lines _ member with ⟨_, _, _, same⟩ | ⟨entry, isEntry, item, inCode, resolved⟩
  · cases same
  · cases item with
    | label => cases resolved
    | instr instr =>
      simp only [Resolver.item, Fallible.bind_eq_ok, Fallible.pure_eq_ok] at resolved
      obtain ⟨_, isOk, same⟩ := resolved
      cases same
      exact ⟨entry, isEntry, instr, inCode, rfl, _, _, isOk⟩

end Link

namespace Spill

variable (program : Program) (graph : CallGraph) (version : Version)
  (locals : RoutineTable (List Slot)) (flat : RoutineTable FlatCode)

/-- An instruction of the flat code, or one that is inserted around a call in it. -/
inductive Emits (instr : Instr) : Prop where
  | written {routine : Routine} {code : FlatCode} : (routine, code) ∈ flat →
      .instr instr ∈ code → Emits instr
  | inserted {routine : Routine} {code : FlatCode} {call : Instr} {callee : SubroutineId}
      {handle : Handle} : (routine, code) ∈ flat → .instr call ∈ code →
      CallGraph.callee? call = some callee → graph.isReentry routine callee = true →
      program.declared callee = some handle →
      Inserted ((locals.lookup routine).getD []) handle.argCount handle.returns.isValue version
        instr → Emits instr

variable {program graph version locals flat} {spilled : RoutineTable FlatCode} {sites : Nat}
  {instr : Instr}

theorem emits_of_mem (isOk : routines program graph version locals flat = .ok (spilled, sites))
    {entry : Routine × FlatCode} (isEntry : entry ∈ spilled) (member : .instr instr ∈ entry.2) :
    Emits program graph version locals flat instr := by
  rw [(routines_eq_ok isOk).1] at isEntry
  obtain ⟨⟨routine, code⟩, inFlat, rfl⟩ := List.mem_map.mp isEntry
  obtain ⟨item, inCode, expanded⟩ := List.mem_flatMap.mp member
  rcases mem_expand expanded with rfl | ⟨call, callee, handle, instrs, saves, inserted⟩
  · exact .written inFlat inCode
  · have isCall := saves.isCall
    subst isCall
    exact .inserted inFlat inCode saves.calls saves.reenters saves.isDeclared inserted

end Spill

/-! ## The target has them all -/

/-- The target that is compiled for has an opcode. -/
def Opcode.IsLegal (op : Opcode) (options : CompileOptions) : Prop :=
  op.minVersion ≤ options.version ∧ op.allows options.mode = true

namespace Opcode.IsLegal

variable {options : CompileOptions} {op : Opcode}

/-- Slots can be accessed and values swapped wherever calls can be made. -/
theorem of_callsub (call : Opcode.callsub.IsLegal options) (plain : op ∈ [.load, .store, .swap]) :
    op.IsLegal options := by
  have older : ∀ op ∈ [Opcode.load, .store, .swap], op.minVersion ≤ Opcode.callsub.minVersion ∧
      op.allows .signature = true ∧ op.allows .application = true := by decide
  obtain ⟨available, signature, application⟩ := older op plain
  refine ⟨UInt8.le_trans available call.1, ?_⟩
  cases options.mode with
  | signature => exact signature
  | application => exact application

theorem of_verifyInstr {routine : String}
    (isOk : Compile.verifyInstr options routine instr = .ok ()) : instr.op.IsLegal options := by
  rw [Compile.verifyInstr] at isOk
  split at isOk
  next => cases isOk
  next recent =>
    split at isOk
    next allowed => exact ⟨UInt8.not_lt.mp recent, allowed⟩
    next => cases isOk

/-- What is inserted around a call is legal if the call is. Only moving a value down over several
others needs a version that not all calls need, and there it is not inserted. -/
theorem of_inserted {slots : List Slot} {argCount : Nat} {returnsValue : Bool}
    (call : Opcode.callsub.IsLegal options)
    (inserted : Spill.Inserted slots argCount returnsValue options.version instr) :
    instr.op.IsLegal options := by
  cases inserted with
  | load | store | swap => exact call.of_callsub (by simp [Instr.load, Instr.store])
  | cover available => exact ⟨available, by cases options.mode <;> rfl⟩

end Opcode.IsLegal

namespace Compile

variable {program : Program} {options : CompileOptions} {graphs : RoutineTable RoutineGraph}

/-- The flat code is legal, whatever graphs it is laid out from. -/
theorem legal_of_flatten {flat : RoutineTable FlatCode}
    (flattened : flatten program options graphs = .ok flat) {routine : Routine} {code : FlatCode}
    (isEntry : (routine, code) ∈ flat) (member : .instr instr ∈ code) :
    instr.op.IsLegal options := by
  obtain ⟨entry, _, made⟩ := Fallible.exists_of_mem_mapM flattened isEntry
  simp only [Fallible.bind_eq_ok, Fallible.pure_eq_ok] at made
  obtain ⟨laid, _, ⟨⟩, verified, same⟩ := made
  cases same
  exact .of_verifyInstr (Fallible.forM_eq_ok.mp verified instr (FlatCode.mem_instrs.mpr member))

/-- Once slots are saved around calls, the code is legal still. -/
theorem legal_of_emits {flat : RoutineTable FlatCode} {locals : RoutineTable (List Slot)}
    {graph : CallGraph} (flattened : flatten program options graphs = .ok flat)
    (emits : Spill.Emits program graph options.version locals flat instr) :
    instr.op.IsLegal options := by
  cases emits with
  | written isEntry member => exact legal_of_flatten flattened isEntry member
  | inserted isEntry member calls _ _ inserted =>
    have legal := legal_of_flatten flattened isEntry member
    rw [(CallGraph.callee?_eq_some.mp calls).1] at legal
    exact .of_inserted legal inserted

/-- The stages behind lowering make legal code of any graphs. -/
theorem legal_of_backend {artifact : Artifact}
    (made : backend program options graphs = .ok artifact) {op : Opcode}
    (member : op ∈ artifact.assembly.opcodes) : op.IsLegal options := by
  simp only [backend, assemble, Fallible.bind_eq_ok, Fallible.pure_eq_ok] at made
  obtain ⟨flat, flattened, assembly, ⟨_, _, slots, _, ⟨spilled, sites⟩, isSpilled, linked⟩, rfl⟩ :=
    made
  obtain ⟨line, isLine, isOp⟩ := List.mem_filterMap.mp member
  cases line with
  | label => cases isOp
  | instr other arguments =>
    cases isOp
    obtain ⟨entry, isEntry, instr, inCode, rfl, _⟩ := Link.exists_of_mem_lines linked isLine
    exact legal_of_emits flattened (Spill.emits_of_mem isSpilled isEntry inCode)

end Compile

/-- What the stages behind lowering make of the graphs. -/
theorem Build.backend {main : Expr} {options : CompileOptions} {before : Program}
    (build : Build main options before) :
    Compile.backend build.context.program options build.graphs = .ok build.artifact := by
  simp only [Compile.backend, build.flattened, Compile.assemble,
    Fallible.forM_eq_ok.mpr build.initialized, build.assigned, build.isSpilled, build.linked,
    Fallible.ok_bind]
  rfl

/-- Every instruction of the listing is legal, in the version and the mode that are compiled for.
This is so for every expression, those with code of their own included, and also for graphs that
no expression is lowered to. -/
theorem compiled_code_is_legal (options : CompileOptions) :
    (∀ main before artifact after,
      (compile main options).run before = (.ok artifact, after) →
        ∀ op ∈ artifact.assembly.opcodes,
          op.minVersion ≤ options.version ∧ op.allows options.mode = true) ∧
      ∀ program graphs artifact, Compile.backend program options graphs = .ok artifact →
        ∀ op ∈ artifact.assembly.opcodes,
          op.minVersion ≤ options.version ∧ op.allows options.mode = true := by
  constructor
  · intro main before artifact after compiled op member
    obtain ⟨build, rfl, _⟩ := Build.run_compile_eq_ok.mp compiled
    exact Compile.legal_of_backend build.backend member
  · intro program graphs artifact made op member
    exact Compile.legal_of_backend made member

/-- The oldest target that has subroutines. There values are moved by swaps. -/
def earliest : CompileOptions := { version := 4, optimize := .all }

/-- The graph of a routine that approves. -/
def approving : RoutineTable RoutineGraph :=
  [(.main, ⟨{ blocks := #[{ instrs := [.immediate .int 1, ⟨.ret, []⟩] }] }, 0⟩)]

theorem compiled_code_is_legal_factorial :
    (∃ artifact after, (compile factorialMain earliest).run factorialProgram = (.ok artifact, after) ∧
      .swap ∈ artifact.assembly.opcodes ∧ ∀ op ∈ artifact.assembly.opcodes,
        op.minVersion ≤ earliest.version ∧ op.allows earliest.mode = true) ∧
      ∃ artifact, Compile.backend {} earliest approving = .ok artifact ∧
        .ret ∈ artifact.assembly.opcodes ∧ ∀ op ∈ artifact.assembly.opcodes,
          op.minVersion ≤ earliest.version ∧ op.allows earliest.mode = true := by
  have first : ((compile factorialMain earliest).run factorialProgram).1.toOption.any
      fun artifact => decide (.swap ∈ artifact.assembly.opcodes) := by
    decide +kernel
  have second : (Compile.backend {} earliest approving).toOption.any
      fun artifact => decide (.ret ∈ artifact.assembly.opcodes) := by
    decide +kernel
  constructor
  · rcases compiled : (compile factorialMain earliest).run factorialProgram with
      ⟨_ | artifact, after⟩
    · simp [compiled, Except.toOption] at first
    · refine ⟨artifact, after, rfl, ?_,
        (compiled_code_is_legal earliest).1 _ _ _ _ compiled⟩
      simpa [compiled, Except.toOption] using first
  · rcases made : Compile.backend {} earliest approving with _ | artifact
    · simp [made, Except.toOption] at second
    · refine ⟨artifact, rfl, ?_, (compiled_code_is_legal earliest).2 _ _ _ made⟩
      simpa [made, Except.toOption] using second

end ContractBackend
