import ContractBackend.Graph.Basic

/-!
# Recorded predecessors

The recorded predecessors of the blocks, made from the edges and checked against them.
-/

namespace ContractBackend.Graph

/-- The sources of the edges into a block, one entry for each edge, as the given blocks are walked
through in order. -/
def predecessors (graph : Graph) (sources : List BlockId) (target : BlockId) : List BlockId :=
  sources.flatMap fun source =>
    ((graph.successors source).filter (· = target)).map fun _ => source

/-- Record the predecessors of every block, as far as control can come from the entry. -/
def recordIncoming (graph : Graph) (entry : BlockId) : Graph :=
  let reachable := graph.reachable entry
  ⟨graph.blocks.mapIdx fun id block =>
    { block with incoming := graph.predecessors reachable id }⟩

/-- A conditional block that goes on has both targets or none, and every target exists. -/
def checkTargets (graph : Graph) (id : BlockId) : Except CompileError Unit := do
  let block := graph.block id
  if !block.exits && block.shape.isHalf then
    throw (.malformedGraph (.halfConditional id))
  block.successors.forM graph.checkBlock

/-- The recorded predecessors of a block are the sources of the edges into it, in any order. -/
def checkIncoming (graph : Graph) (reachable : List BlockId) (id : BlockId) :
    Except CompileError Unit :=
  let recorded := (graph.block id).incoming
  let actual := graph.predecessors reachable id
  if recorded.isPerm actual then .ok ()
  else .error (.malformedGraph (.incomingMismatch id recorded actual))

/-- Check the targets and the recorded predecessors of all blocks that control can reach. -/
def validate (graph : Graph) (entry : BlockId) : Except CompileError Unit := do
  graph.checkBlock entry
  let reachable := graph.reachable entry
  reachable.forM graph.checkTargets
  reachable.forM (graph.checkIncoming reachable)

end ContractBackend.Graph
