import ContractBackend.Ascending
import ContractBackend.Graph.Basic
import ContractBackend.Program

/-!
# The state of lowering

What is threaded through the lowering of one compilation: the graph of the routine at hand, the
exits of the loops around the current place, and the subroutines referred to so far. A step that
fails leaves what it has done behind.
-/

namespace ContractBackend

/-- The blocks that leave or repeat a loop and wait for their target. -/
structure LoopExits where
  breaks : List BlockId := []
  continues : List BlockId := []
  deriving DecidableEq, Inhabited

structure Context where
  program : Program
  version : Version
  graph : Graph := {}
  /-- The subroutine at hand; none in the main routine. -/
  current : Option Handle := none
  /-- The open loops, innermost first. -/
  loops : List LoopExits := []
  /-- The subroutines referred to, in ascending order. -/
  referenced : List SubroutineId := []

abbrev LowerM := ExceptT CompileError (StateM Context)

/-- The code of an expression: its first and its last block. -/
structure Span where
  entry : BlockId
  exit : BlockId
  deriving DecidableEq, Inhabited

namespace Context

def routineName (context : Context) : String :=
  match context.current with
  | some handle => handle.name
  | none => "main"

end Context

namespace Lowering

def beginRoutine (current : Option Handle) : LowerM Unit :=
  modify fun context => { context with graph := {}, current, loops := [] }

/-- Hand over the graph of the routine at hand. -/
def finishRoutine : LowerM Graph :=
  modifyGet fun context => (context.graph, { context with graph := {}, current := none })

def addBlock (block : Block) : LowerM BlockId :=
  modifyGet fun context =>
    (context.graph.size, { context with graph := context.graph.push block })

/-- Add a block without targets. -/
def simple (instrs : List Instr) : LowerM BlockId := addBlock { instrs }

/-- Add an empty block with two targets still to be set. -/
def conditional : LowerM BlockId := addBlock { shape := .conditional none none }

def setNext (source target : BlockId) : LowerM Unit := do
  let context ← get
  set { context with graph := ← context.graph.setNext source target }

def setBranches (source onTrue onFalse : BlockId) : LowerM Unit := do
  let context ← get
  set { context with graph := ← context.graph.setBranches source onTrue onFalse }

def single (instr : Instr) : LowerM Span := do
  let block ← simple [instr]
  pure ⟨block, block⟩

/-- Open a loop. -/
def enterLoop : LowerM Unit :=
  modify fun context => { context with loops := {} :: context.loops }

/-- Close the innermost loop. -/
def exitLoop : LowerM LoopExits := do
  let context ← get
  match context.loops with
  | [] => throw (.internal .noOpenLoop)
  | exits :: loops =>
      set { context with loops }
      pure exits

/-- Let a block leave the innermost loop. -/
def addBreak (block : BlockId) : LowerM Unit := do
  let context ← get
  match context.loops with
  | [] => throw (.invalidProgram .breakOutsideLoop)
  | exits :: loops =>
      set { context with loops := { exits with breaks := exits.breaks ++ [block] } :: loops }

/-- Let a block repeat the innermost loop. -/
def addContinue (block : BlockId) : LowerM Unit := do
  let context ← get
  match context.loops with
  | [] => throw (.invalidProgram .continueOutsideLoop)
  | exits :: loops =>
      set { context with loops := { exits with continues := exits.continues ++ [block] } :: loops }

/-- Note that a subroutine is referred to. -/
def reference (id : SubroutineId) : LowerM Unit :=
  modify fun context => { context with referenced := Ascending.insert id context.referenced }

/-- A slot of the program for temporary use. -/
def freshSlot : LowerM Slot :=
  modifyGet fun context =>
    let (slot, slots) := context.program.slots.draw
    (slot, { context with program := { context.program with slots } })

def onProgram {α : Type} (operation : ProgramM α) : LowerM α := do
  let context ← get
  let (result, program) := operation.run context.program
  set { context with program }
  result

/-- The result of a step, with its failure as a value. -/
def attempt {α : Type} (step : LowerM α) : LowerM (Except CompileError α) :=
  fun context =>
    let (result, context) := step.run context
    (.ok result, context)

end Lowering

end ContractBackend
