import ContractBackend.Graph.Basic

/-!
# Merging of blocks

Two blocks joined by the only edge out of the first and the only edge into the second become one.
-/

namespace ContractBackend.Graph

/-- The block that a block can take over: its only successor, which has no other predecessor. -/
def mergeTarget? (graph : Graph) (entry id : BlockId) : Option BlockId :=
  let block := graph.block id
  match block.shape with
  | .simple (some next) =>
      if !block.exits && next ≠ id && next ≠ entry && (graph.block next).incoming = [id] then
        some next
      else
        none
  | _ => none

/-- The first pair of blocks that can be merged, in breadth-first order. -/
def mergePair? (graph : Graph) (entry : BlockId) : Option (BlockId × BlockId) :=
  (graph.reachable entry).findSome? fun id =>
    (graph.mergeTarget? entry id).map fun next => (id, next)

/-- Append a block to another one. It stays behind empty, and its successors record the block that
took it over as their predecessor. -/
def merge (graph : Graph) (id next : BlockId) : Graph :=
  let taken := graph.block next
  let emptied := graph.modify next fun _ => {}
  let redirected := taken.successors.foldl (fun graph target =>
    graph.modify target fun block =>
      { block with incoming := block.incoming.map fun source =>
          if source = next then id else source }) emptied
  redirected.modify id fun block =>
    { block with instrs := block.instrs ++ taken.instrs, shape := taken.shape }

/-- Merge at most the given number of pairs; the number of pairs merged comes with the graph. -/
def mergeWithin (entry : BlockId) : Nat → Graph → Graph × Nat
  | 0, graph => (graph, 0)
  | count + 1, graph =>
      match graph.mergePair? entry with
      | none => (graph, 0)
      | some (id, next) =>
          let (merged, pairs) := mergeWithin entry count (graph.merge id next)
          (merged, pairs + 1)

/-- Merge until no pair is left. A block that has been taken over has no predecessor, so each
block is taken over at most once. -/
def normalize (graph : Graph) (entry : BlockId) : Graph × Nat :=
  graph.mergeWithin entry graph.size

end ContractBackend.Graph
