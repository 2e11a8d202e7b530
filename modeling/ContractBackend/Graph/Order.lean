import ContractBackend.Ascending
import ContractBackend.Graph.Basic

/-!
# Order of the blocks in the listing

Every block stands behind its predecessors, loops aside, and a block that becomes ready through
the first edge of its predecessor stands right behind it, so that control can fall through.
-/

namespace ContractBackend

structure Edge where
  source : BlockId
  target : BlockId
  deriving DecidableEq, Inhabited

namespace Edge

/-- Edges are ordered by source, then by target. -/
instance : LT Edge where
  lt left right :=
    left.source < right.source ∨ (left.source = right.source ∧ left.target < right.target)

instance : DecidableLT Edge := fun left right =>
  inferInstanceAs (Decidable (left.source < right.source ∨
    (left.source = right.source ∧ left.target < right.target)))

end Edge

namespace Graph

/-- The edges that close a loop, found by a depth-first walk of at most the given number of moves.
The path holds the blocks that the walk has entered and not left, innermost first, each with the
successors still to be tried. -/
def backEdgesWithin (graph : Graph) :
    Nat → List (BlockId × List BlockId) → List BlockId → List Edge → List Edge
  | 0, _, _, found => found
  | _ + 1, [], _, found => found
  | count + 1, (_, []) :: path, entered, found =>
      graph.backEdgesWithin count path entered found
  | count + 1, (id, target :: rest) :: path, entered, found =>
      let here := (id, rest) :: path
      if target ∈ here.map Prod.fst then
        graph.backEdgesWithin count here entered (Ascending.insert ⟨id, target⟩ found)
      else if target ∈ entered then
        graph.backEdgesWithin count here entered found
      else
        graph.backEdgesWithin count ((target, graph.successors target) :: here)
          (target :: entered) found

/-- The edges whose target is still on the depth-first path when they are walked, in ascending
order. Each block is entered and left once, and has at most two successors to be tried. -/
def backEdges (graph : Graph) (entry : BlockId) : List Edge :=
  graph.backEdgesWithin (4 * graph.size + 1) [(entry, graph.successors entry)] [entry] []

/-- How many predecessors of each block are still to come. -/
abbrev Waiting := Array Nat

namespace Waiting

/-- The number of predecessors of a block that are still to come. -/
def count (waiting : Waiting) (id : BlockId) : Nat := waiting[id]?.getD 0

/-- One predecessor less; none if there is none to come. -/
def release? (waiting : Waiting) (id : BlockId) : Option Waiting :=
  if waiting.count id = 0 then none else some (waiting.modify id (· - 1))

end Waiting

/-- The recorded predecessors of the reachable blocks, with the edges that close a loop left
out. -/
def initialWaiting (graph : Graph) (reachable : List BlockId) (back : List Edge) :
    Except CompileError Waiting :=
  let recorded : Waiting := graph.blocks.mapIdx fun id block =>
    if id ∈ reachable then block.incoming.length else 0
  back.foldlM (fun waiting edge =>
    match waiting.release? edge.target with
    | some less => .ok less
    | none => .error (.malformedGraph (.missingBackEdge edge.target))) recorded

/-- Count a placed block off at the targets of its edges. A target for which nothing is left to
come joins the queue: at the front through the first edge, at the end otherwise. -/
def releaseTargets (back : List Edge) (id : BlockId) :
    List (BlockId × Nat) → List BlockId × Waiting → Except CompileError (List BlockId × Waiting)
  | [], state => .ok state
  | (target, position) :: rest, (ready, waiting) =>
      if ⟨id, target⟩ ∈ back then
        releaseTargets back id rest (ready, waiting)
      else
        match waiting.release? target with
        | none => .error (.malformedGraph (.unrecordedEdge id target))
        | some less =>
            let ready :=
              if less.count target ≠ 0 then ready
              else if position = 0 then target :: ready
              else ready ++ [target]
            releaseTargets back id rest (ready, less)

/-- Place at most the given number of blocks off the front of the queue. -/
def placeWithin (graph : Graph) (back : List Edge) :
    Nat → List BlockId → Waiting → List BlockId → Except CompileError (List BlockId × Waiting)
  | 0, _, waiting, placed => .ok (placed, waiting)
  | _ + 1, [], waiting, placed => .ok (placed, waiting)
  | count + 1, id :: ready, waiting, placed =>
      if id ∈ placed then
        .error (.malformedGraph (.scheduledTwice id))
      else do
        let (ready, waiting) ←
          releaseTargets back id (graph.successors id).zipIdx (ready, waiting)
        graph.placeWithin back count ready waiting (placed ++ [id])

def order (graph : Graph) (entry : BlockId) : Except CompileError (List BlockId) := do
  let reachable := graph.reachable entry
  let back := graph.backEdges entry
  let waiting ← graph.initialWaiting reachable back
  if waiting.count entry ≠ 0 then
    throw (.malformedGraph (.entryHasPredecessors entry))
  let (placed, waiting) ← graph.placeWithin back (graph.size + 1) [entry] waiting []
  match reachable.find? (· ∉ placed) with
  | some stuck =>
      throw (.malformedGraph (.unresolvedPredecessors stuck (waiting.count stuck)))
  | none => pure placed

end Graph

end ContractBackend
