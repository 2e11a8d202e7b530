import ContractBackend.CallGraph
import ContractBackend.Program

/-!
# Local slots across recursive calls

A call that can enter its caller again would overwrite the caller's own slots. Their values are
put on the stack below the arguments before such a call and taken back behind it.
-/

namespace ContractBackend.Spill

/-- Move the topmost value below the given number of values under it. Old versions can only swap
two values. -/
def sink (depth : Nat) (version : Version) (fault : ProgramFault) :
    Except CompileError (List Instr) :=
  if depth = 0 then .ok []
  else if Opcode.cover.minVersion ≤ version then .ok [.immediate .cover (UInt64.ofNat depth)]
  else if depth = 1 then .ok [⟨.swap, []⟩]
  else .error (.invalidProgram fault)

/-- A call with the given slots saved before it and put back behind it. -/
def sequence (call : Instr) (slots : List Slot) (argCount : Nat) (returnsValue : Bool)
    (version : Version) : Except CompileError (List Instr) := do
  let saves ← slots.mapM fun slot => do
    pure (.load slot :: (← sink argCount version .spillBelowArguments))
  let lower ←
    if returnsValue then sink slots.length version .spillBelowResult else pure []
  pure (saves.flatten ++ call :: lower ++ slots.reverse.map .store)

/-- The callee of a call that can enter its caller again. -/
def reentered? (graph : CallGraph) (routine : Routine) : Item → Option (Instr × SubroutineId)
  | .label _ => none
  | .instr instr =>
      match CallGraph.callee? instr with
      | some callee => if graph.isReentry routine callee then some (instr, callee) else none
      | none => none

/-- Save the slots around the calls of a routine that can enter it again; the number of these calls
comes with the code. -/
def code (program : Program) (graph : CallGraph) (version : Version) (routine : Routine)
    (slots : List Slot) : FlatCode → Except CompileError (FlatCode × Nat)
  | [] => .ok ([], 0)
  | item :: rest =>
      match reentered? graph routine item with
      | none => do
          let (behind, sites) ← code program graph version routine slots rest
          pure (item :: behind, sites)
      | some (call, callee) => do
          let handle := (← program.subroutine callee).handle
          let spilled ← sequence call slots handle.argCount handle.returns.isValue version
          let (behind, sites) ← code program graph version routine slots rest
          pure (spilled.map .instr ++ behind, sites + 1)

/-- Save the slots of a routine if it has some of its own. -/
def ownCode (program : Program) (graph : CallGraph) (version : Version)
    (locals : RoutineTable (List Slot)) (routine : Routine) (flat : FlatCode) :
    Except CompileError (FlatCode × Nat) :=
  let slots := (locals.lookup routine).getD []
  if slots.isEmpty then .ok (flat, 0) else code program graph version routine slots flat

/-- Save the slots of one routine after the other. The code of a routine is taken out of the table
and put back rewritten. Where it cannot be rewritten, it is not put back, and the routines behind it
are left alone. The number of rewritten calls, or what was wrong, comes with the table. -/
def rewrite (program : Program) (graph : CallGraph) (version : Version)
    (locals : RoutineTable (List Slot)) :
    RoutineTable FlatCode → RoutineTable FlatCode × Except CompileError Nat
  | [] => ([], .ok 0)
  | (routine, flat) :: rest =>
      match ownCode program graph version locals routine flat with
      | .error problem => ((routine, []) :: rest, .error problem)
      | .ok (flat, sites) =>
          let (rest, more) := rewrite program graph version locals rest
          ((routine, flat) :: rest, more.map (sites + ·))

/-- The routines with their slots saved, if all of them can be rewritten. -/
def routines (program : Program) (graph : CallGraph) (version : Version)
    (locals : RoutineTable (List Slot)) (table : RoutineTable FlatCode) :
    Except CompileError (RoutineTable FlatCode × Nat) :=
  let (spilled, sites) := rewrite program graph version locals table
  sites.map (spilled, ·)

end ContractBackend.Spill
