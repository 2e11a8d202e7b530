import ContractBackend.Error

/-!
# Block graphs

The control flow of one routine: blocks of instructions and the edges between them. Blocks are
numbered in the order of their creation and refer to each other by number. Each block also records
where control may come from.
-/

namespace ContractBackend

/-!
## Breadth-first search

What can be reached from some nodes along the edges of a finite graph, in the order in which a
breadth-first walk meets it. The graph is a function from a node to its successors; the caller
gives a bound on the number of nodes.
-/

namespace Reach

variable {ν : Type} [DecidableEq ν]

/-- The candidates that have not been seen, each once and in order. -/
def fresh (seen : List ν) : List ν → List ν
  | [] => []
  | node :: rest =>
      if node ∈ seen then fresh seen rest else node :: fresh (node :: seen) rest

/-- Expand at most the given number of nodes off the front of the queue. All nodes of the queue
have been seen; new ones go to its end. -/
def explore (next : ν → List ν) : Nat → List ν → List ν → List ν
  | 0, _, seen => seen
  | _ + 1, [], seen => seen
  | count + 1, node :: queue, seen =>
      let found := fresh seen (next node)
      explore next count (queue ++ found) (seen ++ found)

/-- All nodes that can be reached from the given ones, these included. The bound is the number of
nodes of the graph. -/
def closure (next : ν → List ν) (bound : Nat) (start : List ν) : List ν :=
  explore next bound (fresh [] start) (fresh [] start)

end Reach

/-! ## Blocks -/

/-- Where control goes at the end of a block. Targets are missing while the graph is being
built. -/
inductive Shape where
  | simple (next : Option BlockId)
  /-- The value that the block leaves on the stack decides. -/
  | conditional (onTrue onFalse : Option BlockId)
  deriving DecidableEq, Inhabited

namespace Shape

/-- The targets that are set, the one for true first. -/
def targets : Shape → List BlockId
  | .simple next => next.toList
  | .conditional onTrue onFalse => onTrue.toList ++ onFalse.toList

/-- Whether exactly one of the two targets of a conditional is set. -/
def isHalf : Shape → Bool
  | .simple _ => false
  | .conditional onTrue onFalse => onTrue.isSome != onFalse.isSome

end Shape

structure Block where
  instrs : List Instr := []
  shape : Shape := .simple none
  /-- The sources of the edges into the block, one entry for each edge. -/
  incoming : List BlockId := []
  deriving DecidableEq

instance : Inhabited Block := ⟨{}⟩

namespace Block

/-- Whether the last instruction leaves the routine. -/
def exits (block : Block) : Bool :=
  block.instrs.getLast?.any fun instr => instr.op.isExit

/-- The blocks at which control can go on. Targets behind an instruction that leaves the routine
do not count. -/
def successors (block : Block) : List BlockId :=
  if block.exits then [] else block.shape.targets

/-- Whether control never goes on in this routine. -/
def isTerminal (block : Block) : Bool := block.successors.isEmpty

end Block

structure Graph where
  blocks : Array Block := #[]
  deriving DecidableEq

instance : Inhabited Graph := ⟨{}⟩

namespace Graph

def size (graph : Graph) : Nat := graph.blocks.size

def block (graph : Graph) (id : BlockId) : Block := graph.blocks[id]?.getD {}

/-- The blocks at which control can go on behind a block. -/
def successors (graph : Graph) (id : BlockId) : List BlockId := (graph.block id).successors

/-- Add a block. Its number is the size of the graph before. -/
def push (graph : Graph) (block : Block) : Graph := ⟨graph.blocks.push block⟩

def modify (graph : Graph) (id : BlockId) (change : Block → Block) : Graph :=
  ⟨graph.blocks.modify id change⟩

/-- Refuse the number of a block that does not exist. -/
def checkBlock (graph : Graph) (id : BlockId) : Except CompileError Unit :=
  if id < graph.size then .ok () else .error (.malformedGraph (.unknownBlock id))

def setNext (graph : Graph) (source target : BlockId) : Except CompileError Graph := do
  graph.checkBlock source
  graph.checkBlock target
  match (graph.block source).shape with
  | .simple _ =>
      pure (graph.modify source fun block => { block with shape := .simple (some target) })
  | .conditional _ _ => throw (.malformedGraph (.singleSuccessorOnConditional source))

def setBranches (graph : Graph) (source onTrue onFalse : BlockId) :
    Except CompileError Graph := do
  graph.checkBlock source
  graph.checkBlock onTrue
  graph.checkBlock onFalse
  match (graph.block source).shape with
  | .conditional _ _ =>
      pure (graph.modify source fun block =>
        { block with shape := .conditional (some onTrue) (some onFalse) })
  | .simple _ => throw (.malformedGraph (.branchTargetsOnSimple source))

/-- The blocks that control can reach from an entry, in breadth-first order. -/
def reachable (graph : Graph) (entry : BlockId) : List BlockId :=
  Reach.closure graph.successors graph.size [entry]

end Graph

end ContractBackend
