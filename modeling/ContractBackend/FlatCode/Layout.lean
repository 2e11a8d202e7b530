import ContractBackend.FlatCode.Basic
import ContractBackend.Graph.Basic

/-!
# From a graph to flat code

Blocks are listed in a given order. Control falls through where the successor follows; everywhere
else a branch is added. Labels are numbered by position, and only the blocks that an added branch
aims at have one.
-/

namespace ContractBackend.Graph

/-- A branch at the end of a block: its opcode and the position it aims at. -/
structure Branch where
  op : Opcode
  target : Nat
  deriving DecidableEq, Inhabited

namespace Branch

def instr (branch : Branch) : Instr := .branch branch.op ⟨branch.target, ""⟩

end Branch

/-- The position of a block in an order; the last one if it is listed repeatedly. -/
def position? (order : List BlockId) (id : BlockId) : Option Nat :=
  order.zipIdx.foldl (fun found entry => if entry.1 = id then some entry.2 else found) none

def successorPosition (order : List BlockId) (source : BlockId) (target : Option BlockId) :
    Except CompileError Nat :=
  match target.bind (position? order) with
  | some position => .ok position
  | none => .error (.malformedGraph (.successorNotPlaced source))

/-- The branches that end the block at a position. -/
def branches (graph : Graph) (order : List BlockId) (position : Nat) (id : BlockId) :
    Except CompileError (List Branch) := do
  let block := graph.block id
  if block.isTerminal then
    pure []
  else
    match block.shape with
    | .simple next =>
        let next ← successorPosition order id next
        pure (if next = position + 1 then [] else [⟨.b, next⟩])
    | .conditional onTrue onFalse =>
        let onTrue ← successorPosition order id onTrue
        let onFalse ← successorPosition order id onFalse
        if onFalse = position + 1 then pure [⟨.bnz, onTrue⟩]
        else if onTrue = position + 1 then pure [⟨.bz, onFalse⟩]
        else pure [⟨.bnz, onTrue⟩, ⟨.b, onFalse⟩]

/-- A block with the branches that end it. -/
abbrev Placed := BlockId × List Branch

def emit (graph : Graph) (referenced : List Nat) (position : Nat) (placed : Placed) : FlatCode :=
  (if position ∈ referenced then [.label ⟨position, ""⟩] else []) ++
    ((graph.block placed.1).instrs ++ placed.2.map Branch.instr).map .instr

/-- List the blocks in the given order. -/
def flatten (graph : Graph) (order : List BlockId) : Except CompileError FlatCode := do
  let placed ← order.zipIdx.mapM fun entry => do
    pure (entry.1, ← graph.branches order entry.2 entry.1)
  let referenced := placed.flatMap fun entry => entry.2.map Branch.target
  pure (placed.zipIdx.flatMap fun entry => graph.emit referenced entry.2 entry.1)

end ContractBackend.Graph
