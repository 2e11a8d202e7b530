import ContractBackend.FlatCode.Layout
import ContractBackend.Graph.Incoming
import ContractBackend.Graph.Merge
import ContractBackend.Graph.Order
import ContractBackend.Link
import ContractBackend.Lowering.Expr
import ContractBackend.Optimize.Dedupe
import ContractBackend.Optimize.Elide
import ContractBackend.Slots.Initialized
import ContractBackend.Spill

/-!
# Compilation

From a program and its main expression to an artifact: the routines are lowered to graphs,
optimised, laid out as flat code, checked, given cells and linked.
-/

namespace ContractBackend

/-- Which optional improvements are made. -/
structure OptimizeOptions where
  /-- Duplicate repeated values. -/
  dedupe : Bool := false
  /-- Remove stores that are loaded at once. -/
  elide : Bool := false
  /-- Let subroutines that are never active together share cells. -/
  share : Bool := false
  deriving DecidableEq

instance : Inhabited OptimizeOptions := ⟨{}⟩

namespace OptimizeOptions

def all : OptimizeOptions := { dedupe := true, elide := true, share := true }

end OptimizeOptions

/-- What a program is compiled for. -/
structure CompileOptions where
  version : Version := newestVersion
  mode : Mode := .application
  optimize : OptimizeOptions := {}
  deriving DecidableEq

instance : Inhabited CompileOptions := ⟨{}⟩

namespace CompileOptions

/-- Refuse versions that cannot be compiled for. -/
def validate (options : CompileOptions) : Except CompileError Unit :=
  if oldestVersion ≤ options.version ∧ options.version ≤ newestVersion then .ok ()
  else .error (.unsupportedVersion options.version)

end CompileOptions

/-- The graph of a routine and the block it starts with. -/
structure RoutineGraph where
  graph : Graph
  entry : BlockId
  deriving DecidableEq, Inhabited

namespace RoutineGraph

/-- Record predecessors and merge blocks. -/
def prepare (routine : RoutineGraph) : Except CompileError RoutineGraph := do
  let recorded := routine.graph.recordIncoming routine.entry
  recorded.validate routine.entry
  let (merged, _) := recorded.normalize routine.entry
  merged.validate routine.entry
  pure { routine with graph := merged }

/-- The instructions of the reachable blocks, in breadth-first order. -/
def instrs (routine : RoutineGraph) : List Instr :=
  (routine.graph.reachable routine.entry).flatMap fun id => (routine.graph.block id).instrs

/-- Lay the graph out as flat code. -/
def flatten (routine : RoutineGraph) : Except CompileError FlatCode := do
  routine.graph.flatten (← routine.graph.order routine.entry)

end RoutineGraph

namespace Compile

open Lowering

/-- Put an instruction behind the last block. -/
def append (exit : BlockId) (op : Opcode) : LowerM Unit := do
  let tail ← simple [⟨op, []⟩]
  setNext exit tail

/-- End the main routine: its value is the verdict. -/
def finishMain (main : Expr) (exit : BlockId) : LowerM Unit :=
  if main.terminates then
    pure ()
  else
    match main.ty with
    | .uint64 | .any => append exit .ret
    | .bytes => throw (.invalidProgram .mainProducesBytes)
    | .none => throw (.invalidProgram .mainUnfinished)

def lowerMain (main : Expr) : LowerM RoutineGraph := do
  beginRoutine none
  let span ← main.lower
  finishMain main span.exit
  let graph ← finishRoutine
  RoutineGraph.prepare ⟨graph, span.entry⟩

/-- End a subroutine: what its body leaves has to fit what it returns. -/
def finishSubroutine (handle : Handle) (body : Expr) (exit : BlockId) : LowerM Unit :=
  if body.terminates then
    pure ()
  else
    match handle.returns, body.ty.isValue with
    | .value _, false => throw (.invalidProgram (.bodyWithoutValue handle.name))
    | .nothing, true => throw (.invalidProgram (.bodyWithValue handle.name))
    | _, _ => append exit .retsub

/-- Lower a subroutine. It starts by storing its arguments, of which the last is on top. -/
def lowerSubroutine (id : SubroutineId) : LowerM RoutineGraph := do
  let subroutine ← (← get).program.subroutine id
  let body ← onProgram (Program.body id)
  beginRoutine (some subroutine.handle)
  let entry ← simple (subroutine.params.reverse.map fun param => .store param.slot)
  let span ← body.lower
  setNext entry span.entry
  finishSubroutine subroutine.handle body span.exit
  let graph ← finishRoutine
  RoutineGraph.prepare ⟨graph, entry⟩

/-- Lower subroutines that are referred to and have not been lowered, the lowest number first, at
most as many as given. -/
def lowerReferenced : Nat → RoutineTable RoutineGraph → LowerM (RoutineTable RoutineGraph)
  | 0, graphs => pure graphs
  | count + 1, graphs => do
      let context ← get
      match context.referenced.find? fun id => (graphs.lookup (.subroutine id)).isNone with
      | none => pure graphs
      | some id =>
          let graph ← lowerSubroutine id
          lowerReferenced count (Keyed.insert (.subroutine id) graph graphs)

/-- Lower the main routine in the way given, and every subroutine it reaches. -/
def lowerFrom (main : LowerM RoutineGraph) : LowerM (RoutineTable RoutineGraph) := do
  let graph ← main
  lowerReferenced (← get).program.subroutines.size [(.main, graph)]

abbrev lowerRoutines (main : Expr) : LowerM (RoutineTable RoutineGraph) :=
  lowerFrom (lowerMain main)

/-- Make the improvements asked for. Slots that another routine can see are left alone. -/
def optimize (options : CompileOptions) (graphs : RoutineTable RoutineGraph) :
    RoutineTable RoutineGraph :=
  let deduped :=
    if options.optimize.dedupe then
      graphs.map fun entry =>
        (entry.1, { entry.2 with graph := (entry.2.graph.dedupe entry.2.entry options.version).1 })
    else
      graphs
  if options.optimize.elide then
    let pinned := (SlotUsage.ofRoutines (deduped.map fun entry =>
      (entry.1, entry.2.instrs.map Item.instr))).pinned
    deduped.map fun entry =>
      (entry.1, { entry.2 with graph := (entry.2.graph.elide entry.2.entry pinned).1 })
  else
    deduped

/-- The name of a routine in messages: subroutines go by the name they were declared with. -/
def routineName (program : Program) (routine : Routine) : String :=
  match routine with
  | .main => "main"
  | .subroutine id =>
      match program.subroutine id with
      | .ok subroutine => subroutine.handle.name
      | .error _ => routine.text

/-- Refuse an instruction that the target does not have. -/
def verifyInstr (options : CompileOptions) (routine : String) (instr : Instr) :
    Except CompileError Unit :=
  if options.version < instr.op.minVersion then
    .error (.versionMismatch instr.op.mnemonic instr.op.minVersion options.version routine)
  else if instr.op.allows options.mode then
    .ok ()
  else
    .error (.modeMismatch instr.op options.mode routine)

def flatten (program : Program) (options : CompileOptions)
    (graphs : RoutineTable RoutineGraph) : Except CompileError (RoutineTable FlatCode) :=
  graphs.mapM fun entry => do
    let code ← entry.2.flatten
    code.instrs.forM (verifyInstr options (routineName program entry.1))
    pure (entry.1, code)

/-- Check, give cells and link. -/
def assemble (program : Program) (options : CompileOptions) (flat : RoutineTable FlatCode) :
    Except CompileError Assembly := do
  let graph := CallGraph.ofRoutines flat
  let usage := SlotUsage.ofRoutines flat
  flat.forM fun entry =>
    SlotInit.check (routineName program entry.1) entry.2 (usage.privateSlots entry.1)
  let slots ← SlotAssignment.assign usage graph options.optimize.share
  let (spilled, _) ← Spill.routines program graph options.version usage.locals flat
  Link.link program slots options.version spilled

/-- The stages behind lowering. -/
def backend (program : Program) (options : CompileOptions)
    (graphs : RoutineTable RoutineGraph) : Except CompileError Artifact := do
  let flat ← flatten program options (optimize options graphs)
  let assembly ← assemble program options flat
  pure ⟨options.version, options.mode, assembly, assembly.render⟩

end Compile

/-- Compile a main routine, lowered in the way given, with every subroutine it reaches. Bodies that
are built on the way stay built, also where compilation fails. -/
def compileFrom (main : LowerM RoutineGraph) (options : CompileOptions) : ProgramM Artifact := do
  options.validate
  let context : Context := { program := ← get, version := options.version }
  let (lowered, context) := (Compile.lowerFrom main).run context
  set context.program
  Compile.backend context.program options (← lowered)

/-- Compile a main expression. -/
def compile (main : Expr) : CompileOptions → ProgramM Artifact :=
  compileFrom (Compile.lowerMain main)

end ContractBackend
