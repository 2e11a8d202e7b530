import ContractBackend.Ascending
import ContractBackend.FlatCode.Basic
import ContractBackend.Graph.Basic

/-!
# Call graph

Which subroutines each routine may call, and which can be active at the same time.
-/

namespace ContractBackend

/-- The subroutines that each routine calls, in ascending order. -/
structure CallGraph where
  edges : RoutineTable (List SubroutineId)
  deriving DecidableEq, Inhabited

namespace CallGraph

/-- The subroutine called by an instruction. -/
def callee? (instr : Instr) : Option SubroutineId :=
  if instr.op = .callsub then instr.subroutine? else none

/-- Read the calls off the code of the routines. -/
def ofRoutines (routines : RoutineTable FlatCode) : CallGraph where
  edges := routines.map fun entry =>
    (entry.1, Ascending.ofList (entry.2.instrs.filterMap callee?))

def callees (graph : CallGraph) (routine : Routine) : List SubroutineId :=
  (graph.edges.lookup routine).getD []

/-- The number of edges. No more subroutines than that are called at all. -/
def edgeCount (graph : CallGraph) : Nat := (graph.edges.flatMap Prod.snd).length

/-- The subroutines that a routine reaches by one or more calls, in ascending order. -/
def reachableFrom (graph : CallGraph) (routine : Routine) : List SubroutineId :=
  Ascending.ofList
    (Reach.closure (fun id => graph.callees (.subroutine id)) graph.edgeCount
      (graph.callees routine))

/-- Whether a subroutine reaches another one by one or more calls. -/
def reaches (graph : CallGraph) (source target : SubroutineId) : Bool :=
  target ∈ graph.reachableFrom (.subroutine source)

/-- Whether a call can enter the caller again before it returns. -/
def isReentry (graph : CallGraph) (caller : Routine) (callee : SubroutineId) : Bool :=
  match caller with
  | .main => false
  | .subroutine id => callee = id || graph.reaches callee id

/-- Whether two subroutines can never be active at the same time. -/
def exclusive (graph : CallGraph) (left right : SubroutineId) : Bool :=
  left ≠ right && !graph.reaches left right && !graph.reaches right left

end CallGraph

end ContractBackend
