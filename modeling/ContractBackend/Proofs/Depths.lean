import ContractBackend.Proofs.Legality
import ContractBackend.Proofs.Registry
import ContractBackend.Proofs.Run.Regions
import ContractBackend.Proofs.Slots.Locals

/-!
# How deep values are moved

Values are moved down the stack only where slots are saved around a call: what is saved goes
below the arguments, of which there are few enough, and a result goes below all that has been
saved. A routine can have as many slots of its own as there are cells, and that is one more than
the immediate of the instruction has room for.
-/

namespace ContractBackend

/-! ## The arguments of subroutines -/

/-- No subroutine of a program takes more arguments than there is room for. -/
theorem Program.Made.argCount_le {program : Program} (made : program.Made) {id : SubroutineId}
    {handle : Handle} (isDeclared : program.declared id = some handle) :
    handle.argCount ≤ maxArguments := by
  induction made with
  | empty => simp [Program.declared] at isDeclared
  | newVar _ _ _ ih => exact ih isDeclared
  | @declare program name argCount returns _ ih =>
    by_cases many : maxArguments < argCount
    · have same : ((Program.declare name argCount returns).run program).2 = program := by
        simp only [Program.declare, many, if_true]
        rfl
      exact ih (same ▸ isDeclared)
    · have pushed : ((Program.declare name argCount returns).run program).2.subroutines =
          program.subroutines.push ⟨⟨program.subroutines.size, name, argCount, returns⟩,
            (newVars (.replicate argCount .any) program).1, .missing⟩ := by
        simp only [Program.declare, many, if_false]
        rfl
      rw [Program.declared, pushed, Array.getElem?_push] at isDeclared
      split at isDeclared
      next =>
        cases isDeclared
        exact Nat.le_of_not_lt many
      next => exact ih isDeclared
  | @implement program handle locals build _ ih =>
    exact ih ((sameDeclarations_implement program handle locals build).declared ▸ isDeclared)
  | @body program id _ ih =>
    exact ih ((sameDeclarations_body program id).declared ▸ isDeclared)

theorem Program.Made.argCount_lt {program : Program} (made : program.Made) {id : SubroutineId}
    {handle : Handle} (isDeclared : program.declared id = some handle) :
    handle.argCount < UInt64.size :=
  Nat.lt_of_le_of_lt (made.argCount_le isDeclared) (by decide)

/-! ## Nothing is moved before slots are saved -/

theorem admits_of_through {dialect : Dialect} {declared : SubroutineId → Option Handle}
    {results : Nat} {instrs : List Instr} {level : Level} {behind : Level → Prop}
    (through : (Gauge.heights dialect declared results).Through instrs level behind) :
    ∀ instr ∈ instrs, dialect.admits instr = true := by
  induction instrs generalizing level with
  | nil => nofun
  | cons head rest ih =>
    rw [Gauge.Through] at through
    rw [List.forall_mem_cons]
    split at through
    next =>
      obtain ⟨leaves, rfl⟩ := through
      exact ⟨leaves.1, nofun⟩
    next =>
      obtain ⟨next, moves, through⟩ := through
      exact ⟨admits_of_move moves, ih through⟩

/-- The flat code of a safe graph has branches and what its dialect admits. -/
theorem RoutineGraph.admits_of_mem_flatten {dialect : Dialect}
    {declared : SubroutineId → Option Handle} {results : Nat} {routine : RoutineGraph}
    {code : FlatCode} {level : Level} (isOk : routine.flatten = .ok code)
    (safe : routine.graph.Safe (.heights dialect declared results) routine.entry level)
    {instr : Instr} (member : .instr instr ∈ code) :
    dialect.admits instr = true ∨
      ∃ branch : Graph.Branch, branch.op.isBranch = true ∧ instr = branch.instr := by
  obtain ⟨order, placed, laid, rfl⟩ := Graph.exists_laid_of_flatten isOk safe
  obtain ⟨position, id, branches, found, inBlock | ⟨branch, isBranch, rfl⟩⟩ :=
    Graph.mem_listing member
  · obtain ⟨_, here⟩ := safe.exists_of_reachable id (laid.reached found)
    exact .inl (admits_of_through here.through instr inBlock)
  · exact .inr ⟨branch, (laid.leads found).isBranch branch isBranch, rfl⟩

namespace Build

variable {main : Expr} {options : CompileOptions} {before : Program}

/-- The flat code has branches and what a dialect admits that all expressions fit. -/
theorem admits_of_mem_flat {dialect : Bool → Dialect} (closed : Dialect.Closed dialect)
    (build : Build main options before) (mainFits : main.Fits true (dialect true) none)
    (bodies : before.BodiesHave fun body => body.Fits false (dialect false) none)
    {entry : Routine × FlatCode} (isEntry : entry ∈ build.flat) {instr : Instr}
    (member : .instr instr ∈ entry.2) :
    (dialect (entry.1 = .main)).admits instr = true ∨
      ∃ branch : Graph.Branch, branch.op.isBranch = true ∧ instr = branch.instr := by
  obtain ⟨routines, _⟩ :=
    Compile.routines_of_lowerRoutines closed mainFits nofun bodies build.lowered
  have improved := routines.optimize closed options
  obtain ⟨routine, isRoutine, same, laid⟩ :=
    Fallible.exists_related_of_mem (Compile.of_flatten build.flattened) isEntry
  rw [← same]
  exact RoutineGraph.admits_of_mem_flatten laid (improved routine isRoutine) member

/-- The code of a catalog program moves no value down before slots are saved. -/
theorem op_ne_cover (build : Build main options before) (catalog : main.isCatalog = true)
    (bodies : before.BodiesHave fun body => body.isCatalog = true) {entry : Routine × FlatCode}
    (isEntry : entry ∈ build.flat) {instr : Instr} (member : .instr instr ∈ entry.2) :
    instr.op ≠ .cover := by
  have fits : ∀ (main : Bool) (expr : Expr), expr.isCatalog = true →
      expr.Fits main (.plain main) none := fun main expr isCatalog =>
    ⟨Expr.emits_plain_of_isCatalog main isCatalog, Expr.isProper_of_isCatalog isCatalog, nofun⟩
  rcases build.admits_of_mem_flat Dialect.closed_plain (fits true main catalog)
    (bodies.mono (fits false)) isEntry member with admitted | ⟨branch, isBranch, rfl⟩
  · rw [Dialect.plain, Bool.and_eq_true, bne_iff_ne] at admitted
    exact admitted.2
  · intro isCover
    rw [show branch.op = .cover from isCover] at isBranch
    cases isBranch

/-- A call that can enter its caller again, returns a value, and has to save as many slots as there
are cells. -/
structure Crowded (build : Build main options before) (caller : Routine) (callee : SubroutineId) :
    Prop where
  called : callee ∈ build.callGraph.callees caller
  reenters : build.callGraph.isReentry caller callee = true
  returns : ∃ handle, before.declared callee = some handle ∧ handle.returns.isValue = true
  full : (build.localsOf caller).length = cellCount

variable {build : Build main options before}

/-- Values are moved below arguments or, by crowded calls, below as many values as there are
cells. -/
theorem depth_of_mem_lines (made : before.Made) (catalog : main.isCatalog = true)
    (bodies : before.BodiesHave fun body => body.isCatalog = true) {arguments : List Argument}
    (member : .instr .cover arguments ∈ build.assembly.lines) :
    ∃ depth, arguments = [.uint (UInt64.ofNat depth)] ∧ depth ≤ cellCount ∧
      (maxArguments < depth → ∃ caller callee, build.Crowded caller callee) := by
  have same := build.sameDeclarations
  obtain ⟨entry, isEntry, instr, inCode, isCover, resolver, scope, resolved⟩ :=
    Link.exists_of_mem_lines build.linked member
  cases Spill.emits_of_mem build.isSpilled isEntry inCode with
  | written inFlat inFlatCode =>
    exact absurd isCover (build.op_ne_cover catalog bodies inFlat inFlatCode)
  | @inserted caller code call callee handle inFlat inFlatCode calls reenters isDeclared inserted =>
    rw [same.declared] at isDeclared
    have few := made.argCount_le isDeclared
    have fits : (build.localsOf caller).length ≤ cellCount :=
      SlotUsage.length_locals_le build.assigned
    have room : maxArguments + 1 = cellCount := rfl
    cases inserted with
    | load | store | swap => cases isCover
    | @cover depth _ sinks =>
      obtain _ | ⟨⟨⟩, ⟨⟩⟩ := Fallible.mapM_eq_ok.mp resolved
      refine ⟨depth, rfl, ?_, fun deep => ?_⟩
      · rcases sinks with rfl | ⟨_, rfl⟩
        · omega
        · exact fits
      · rcases sinks with rfl | ⟨returns, rfl⟩
        · omega
        · refine ⟨caller, callee, ?_, reenters, ⟨handle, isDeclared, returns⟩, ?_⟩
          · exact CallGraph.mem_callees_ofRoutines.mpr ⟨code, call,
              lookup_of_mem build.ordered.nodup inFlat, inFlatCode, calls⟩
          · exact Nat.le_antisymm fits (room ▸ deep)

/-- A crowded call moves its result below as many values as there are cells. -/
theorem Crowded.mem_lines {caller : Routine} {callee : SubroutineId}
    (crowded : build.Crowded caller callee) :
    .instr .cover [.uint (UInt64.ofNat cellCount)] ∈ build.assembly.lines := by
  have same := build.sameDeclarations
  obtain ⟨code, call, found, inCode, calls⟩ :=
    CallGraph.mem_callees_ofRoutines.mp crowded.called
  obtain ⟨handle, isDeclared, returns⟩ := crowded.returns
  have reentered : Spill.reentered? build.callGraph caller (.instr call) = some (call, callee) :=
    Spill.reentered?_eq_some.mpr ⟨rfl, calls, crowded.reenters⟩
  have inserted : .instr (.immediate .cover (UInt64.ofNat cellCount)) ∈
      Spill.expand build.context.program build.callGraph options.version caller
        (build.localsOf caller) (.instr call) := by
    cases build.becomes _ (mem_of_lookup found) _ inCode with
    | kept _ stays =>
      rcases stays with none | empty
      · simp [reentered] at none
      · have full := crowded.full
        rw [empty] at full
        cases full
    | saved saves =>
      have isCall := saves.isCall
      cases isCall
      have sameCallee := saves.calls
      rw [calls] at sameCallee
      cases sameCallee
      have sameHandle := saves.isDeclared
      rw [same.declared, isDeclared] at sameHandle
      cases sameHandle
      rw [saves.expands]
      obtain ⟨_, lower, surrounds, rfl⟩ := Spill.sequence_eq_ok.mp saves.made
      have sunk := surrounds.lower
      rw [returns, if_pos rfl, crowded.full, Spill.sink_eq_ok] at sunk
      obtain ⟨none, _⟩ | ⟨_, _, rfl⟩ | ⟨one, _⟩ := sunk
      · cases none
      · simp [Spill.restores]
      · cases one
  have here : .instr (.immediate .cover (UInt64.ofNat cellCount)) ∈
      (code.flatMap (build.elements caller)).map Link.Element.item := by
    rw [items_elements]
    exact List.mem_flatMap.mpr ⟨_, inCode, inserted⟩
  obtain ⟨index, atIndex⟩ := List.mem_iff_getElem?.mp here
  have inTable : build.table.lookup caller = some (code.flatMap (build.elements caller)) := by
    rw [lookup_table, found]
    rfl
  obtain ⟨arguments, resolved, atLine⟩ :=
    build.isListed.lineOf_instr inTable atIndex
  obtain _ | ⟨⟨⟩, ⟨⟩⟩ := Fallible.mapM_eq_ok.mp resolved
  exact List.mem_of_getElem? atLine

/-- How deep values are moved. No value is moved below more values than there are cells; and one
is moved below more than the greatest number of arguments exactly where a call is crowded. -/
theorem moved_values_fit_unless_crowded {artifact : Artifact} {after : Program} (made : before.Made)
    (catalog : main.isCatalog = true)
    (bodies : before.BodiesHave fun body => body.isCatalog = true)
    (compiled : (compile main options).run before = (.ok artifact, after)) :
    ∃ build : Build main options before, build.artifact = artifact ∧
      (∀ arguments, .instr .cover arguments ∈ artifact.assembly.lines →
        ∃ depth, arguments = [.uint (UInt64.ofNat depth)] ∧ depth ≤ cellCount) ∧
      ((∃ depth : UInt64, maxArguments < depth.toNat ∧
          .instr .cover [.uint depth] ∈ artifact.assembly.lines) ↔
        ∃ caller callee, build.Crowded caller callee) := by
  obtain ⟨build, rfl, _⟩ := run_compile_eq_ok.mp compiled
  refine ⟨build, rfl, fun arguments member => ?_, ?_, ?_⟩
  · obtain ⟨depth, isDepth, fits, _⟩ := depth_of_mem_lines made catalog bodies member
    exact ⟨depth, isDepth, fits⟩
  · rintro ⟨depth, deep, member⟩
    obtain ⟨number, same, fits, crowds⟩ := depth_of_mem_lines made catalog bodies member
    cases same
    refine crowds ?_
    rwa [UInt64.toNat_ofNat_of_lt' (Nat.lt_of_le_of_lt fits (by decide))] at deep
  · rintro ⟨caller, callee, crowded⟩
    exact ⟨_, by decide, crowded.mem_lines⟩

theorem moved_values_fit_unless_crowded_factorial :
    factorialProgram.Made ∧ factorialMain.isCatalog = true ∧
      factorialProgram.BodiesHave (fun body => body.isCatalog = true) ∧
      ∃ artifact after, (compile factorialMain { optimize := .all }).run factorialProgram =
          (.ok artifact, after) ∧
        ∃ build : Build factorialMain { optimize := .all } factorialProgram,
          build.artifact = artifact ∧
          (∀ arguments, .instr .cover arguments ∈ artifact.assembly.lines →
            ∃ depth, arguments = [.uint (UInt64.ofNat depth)] ∧ depth ≤ cellCount) ∧
          ((∃ depth : UInt64, maxArguments < depth.toNat ∧
              .instr .cover [.uint depth] ∈ artifact.assembly.lines) ↔
            ∃ caller callee, build.Crowded caller callee) := by
  obtain ⟨artifact, after, compiled⟩ := exists_compile_factorial
  have catalog : factorialMain.isCatalog = true := rfl
  have bodies : factorialProgram.BodiesHave fun body => body.isCatalog = true :=
    bodies_factorialProgram rfl
  exact ⟨made_factorialProgram, catalog, bodies, artifact, after, compiled,
    moved_values_fit_unless_crowded made_factorialProgram catalog bodies compiled⟩

end Build

/-! ## A crowded call -/

/-- A subroutine that returns a value. -/
def crowdProgram : Program where
  subroutines := #[⟨⟨0, "crowd", 0, .value .uint64⟩, [], .missing⟩]

/-- It stores to as many slots of its own as there are cells, and calls itself. -/
def crowdCode : RoutineTable FlatCode :=
  [(.main, [.instr (.callsub 0), .instr ⟨.ret, []⟩]),
   (.subroutine 0, (List.range cellCount).reverse.flatMap (fun id =>
     [.instr (.int 0), .instr (.store ⟨id, none⟩)]) ++ [.instr (.callsub 0), .instr ⟨.retsub, []⟩])]

/-- The code around the call moves the result further down than the immediate has room for. -/
theorem crowded_call_moves_too_deep :
    maxArguments < (256 : UInt64).toNat ∧
      (Spill.routines crowdProgram (.ofRoutines crowdCode) newestVersion
        (SlotUsage.ofRoutines crowdCode).locals crowdCode).toOption.any (fun made =>
          decide (∃ entry ∈ made.1, .instr (.immediate .cover 256) ∈ entry.2)) = true := by
  decide +kernel

end ContractBackend
