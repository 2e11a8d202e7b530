import ContractBackend.CallGraph
import ContractBackend.Slots.Usage

/-!
# Cells for slots

Every slot gets a scratch cell. Reserved slots have theirs; all others take the lowest free cells.
With sharing, subroutines that are never active at the same time use the same cells.
-/

namespace ContractBackend

/-- The cell of each slot, ascending by slot. -/
structure SlotAssignment where
  entries : List (Slot × Cell) := []
  deriving DecidableEq

instance : Inhabited SlotAssignment := ⟨{}⟩

namespace SlotAssignment

def cell? (assignment : SlotAssignment) (slot : Slot) : Option Cell :=
  assignment.entries.lookup slot

def size (assignment : SlotAssignment) : Nat := assignment.entries.length

/-- The distinct cells in use, in ascending order. -/
def cells (assignment : SlotAssignment) : List Cell :=
  Ascending.ofList (assignment.entries.map Prod.snd)

end SlotAssignment

/-- Subroutines that use the same cells. -/
structure SharingGroup where
  /-- In ascending order. -/
  members : List SubroutineId
  /-- The number of cells, enough for every member. -/
  size : Nat
  /-- The subroutines that are never active together with any member. -/
  exclusive : List SubroutineId
  deriving DecidableEq, Inhabited

namespace SharingGroup

/-- Larger groups come first; among groups of one size the members decide. -/
def before (left right : SharingGroup) : Bool :=
  right.size < left.size || (left.size = right.size && left.members < right.members)

/-- Put a group before the first one that it comes before. -/
def insert (before : SharingGroup → SharingGroup → Bool) (group : SharingGroup) :
    List SharingGroup → List SharingGroup
  | [] => [group]
  | head :: tail =>
      if before group head then group :: head :: tail
      else head :: insert before group tail

/-- Put groups in order, by insertion from the last one on. -/
def sort (before : SharingGroup → SharingGroup → Bool) (groups : List SharingGroup) :
    List SharingGroup :=
  groups.foldr (insert before) []

/-- Whether the members of a group are never active together with those of another one. -/
def accepts (group other : SharingGroup) : Bool :=
  other.members.all fun member => member ∈ group.exclusive

/-- Take another group in. -/
def absorb (group other : SharingGroup) : SharingGroup where
  members := Ascending.union group.members other.members
  size := max group.size other.size
  exclusive := group.exclusive.filter fun id => id ∈ other.exclusive

/-- Let the first group that accepts a later one take in the first such. -/
def mergeOnce? : List SharingGroup → Option (List SharingGroup)
  | [] => none
  | group :: rest =>
      match rest.find? group.accepts with
      | some other => some (group.absorb other :: rest.erase other)
      | none => (mergeOnce? rest).map (group :: ·)

/-- Merge groups in order, at most as often as given. -/
def mergeWithin : Nat → List SharingGroup → List SharingGroup
  | 0, groups => sort before groups
  | count + 1, groups =>
      match mergeOnce? (sort before groups) with
      | some fewer => mergeWithin count fewer
      | none => sort before groups

/-- Merge groups, the largest first, until no two can be merged. -/
def mergeAll (groups : List SharingGroup) : List SharingGroup :=
  mergeWithin groups.length groups

end SharingGroup

namespace SlotAssignment

/-- The cells of the reserved slots. Two slots cannot have one cell. -/
def reserve : List Slot → List (Slot × Cell) → Except CompileError (List (Slot × Cell))
  | [], entries => .ok entries
  | slot :: rest, entries =>
      match slot.requested with
      | none => reserve rest entries
      | some cell =>
          if cell ∈ entries.map Prod.snd then .error (.reservedSlotCollision cell)
          else reserve rest (entries ++ [(slot, cell)])

/-- The cells that are not taken, in ascending order. -/
def freeCells (taken : List Cell) : List Cell :=
  (List.finRange cellCount).filter fun cell => cell ∉ taken

/-- Split off the given number of cells. Where they do not suffice, one slot more than there are
cells has asked for one. -/
def take (count : Nat) (free : List Cell) : Except CompileError (List Cell × List Cell) :=
  if count ≤ free.length then .ok (free.splitAt count)
  else .error (.slotSpaceExhausted (cellCount + 1))

/-- The slots of each subroutine that may share their cells with another one. -/
def shareable (usage : SlotUsage) : List (SubroutineId × List Slot) :=
  usage.perRoutine.filterMap fun entry => do
    let id ← entry.1.subroutine?
    let slots := usage.privateSlots entry.1
    if slots.isEmpty then none else some (id, slots)

/-- The groups of subroutines that share cells, ordered by their members. -/
def groups (graph : CallGraph) (sharing : List (SubroutineId × List Slot)) :
    List SharingGroup :=
  let ids := sharing.map Prod.fst
  let single := sharing.map fun entry =>
    ({ members := [entry.1], size := entry.2.length,
       exclusive := ids.filter (graph.exclusive entry.1) } : SharingGroup)
  SharingGroup.sort (fun left right => left.members < right.members)
    (SharingGroup.mergeAll single)

/-- Give the members of each group the same run of cells. -/
def assignGroups (sharing : List (SubroutineId × List Slot)) :
    List SharingGroup → List Cell → Except CompileError (List (Slot × Cell))
  | [], _ => .ok []
  | group :: rest, free => do
      let (cells, free) ← take group.size free
      let entries := group.members.flatMap fun member =>
        ((sharing.lookup member).getD []).zip cells
      pure (entries ++ (← assignGroups sharing rest free))

def assign (usage : SlotUsage) (graph : CallGraph) (share : Bool) :
    Except CompileError SlotAssignment := do
  let reserved ← reserve (usage.all.filter Slot.isReserved) []
  let free := freeCells (reserved.map Prod.snd)
  let sharing := if share then shareable usage else []
  let alone := usage.all.filter fun slot =>
    !slot.isReserved && slot ∉ sharing.flatMap Prod.snd
  let (cells, free) ← take alone.length free
  let shared ← assignGroups sharing (groups graph sharing) free
  pure ⟨Keyed.ofList (reserved ++ alone.zip cells ++ shared)⟩

end SlotAssignment

end ContractBackend
