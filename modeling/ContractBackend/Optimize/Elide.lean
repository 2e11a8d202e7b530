import ContractBackend.Graph.Basic

/-!
# Values stored only to be loaded at once

A store to a slot right before the only load of the slot does nothing but pass the value on.
-/

namespace ContractBackend

namespace Elide

def storedSlot? (instr : Instr) : Option Slot :=
  if instr.op = .store then instr.directSlot? else none

/-- The slot of the first store that is followed by a load of the slot, and the code without the
two. Stores to the given slots do not count. -/
def firstPair? (skip : List Slot) : List Instr → Option (Slot × List Instr)
  | first :: second :: rest =>
      match storedSlot? first with
      | some slot =>
          if slot ∉ skip && second.loadsFrom slot then
            some (slot, rest)
          else
            (firstPair? skip (second :: rest)).map fun found => (found.1, first :: found.2)
      | none => (firstPair? skip (second :: rest)).map fun found => (found.1, first :: found.2)
  | _ => none

end Elide

namespace Graph

/-- How often a slot is loaded in the given blocks. -/
def loadCount (graph : Graph) (blocks : List BlockId) (slot : Slot) : Nat :=
  (blocks.flatMap fun id => (graph.block id).instrs).countP fun instr => instr.loadsFrom slot

/-- Remove the first pair of a block if its load is the only one of the slot. -/
def elideIn? (graph : Graph) (blocks : List BlockId) (skip : List Slot) (id : BlockId) :
    Option Graph :=
  match Elide.firstPair? skip (graph.block id).instrs with
  | some (slot, instrs) =>
      if graph.loadCount blocks slot = 1 then
        some (graph.modify id fun block => { block with instrs })
      else
        none
  | none => none

/-- Remove one pair, from the first block in breadth-first order whose first pair can go. -/
def elideOnce? (graph : Graph) (entry : BlockId) (skip : List Slot) : Option Graph :=
  let blocks := graph.reachable entry
  blocks.findSome? (graph.elideIn? blocks skip)

/-- Remove at most the given number of pairs. -/
def elideWithin (entry : BlockId) (skip : List Slot) : Nat → Graph → Graph × Nat
  | 0, graph => (graph, 0)
  | count + 1, graph =>
      match graph.elideOnce? entry skip with
      | none => (graph, 0)
      | some smaller =>
          let (result, removed) := elideWithin entry skip count smaller
          (result, removed + 1)

def instrCount (graph : Graph) : Nat :=
  (graph.blocks.toList.flatMap Block.instrs).length

/-- Remove pairs until no block's first pair can go. Every pair takes two instructions away. -/
def elide (graph : Graph) (entry : BlockId) (skip : List Slot) : Graph × Nat :=
  graph.elideWithin entry skip graph.instrCount

end Graph

end ContractBackend
