import ContractBackend.Ascending
import ContractBackend.FlatCode.Basic

/-!
# Slot usage

Which routines mention which slots. All lists of slots are in creation order.
-/

namespace ContractBackend

/-- The slots that each routine mentions. -/
structure SlotUsage where
  perRoutine : RoutineTable (List Slot)
  /-- Slots whose index is pushed somewhere. -/
  dynamic : List Slot
  deriving DecidableEq, Inhabited

namespace SlotUsage

/-- Read the usage off the code of the routines. -/
def ofRoutines (routines : RoutineTable FlatCode) : SlotUsage where
  perRoutine := routines.map fun entry =>
    (entry.1, Ascending.ofList (entry.2.instrs.flatMap Instr.slots))
  dynamic := Ascending.ofList
    (routines.flatMap fun entry => entry.2.instrs.flatMap Instr.indexedSlots)

def slotsOf (usage : SlotUsage) (routine : Routine) : List Slot :=
  (usage.perRoutine.lookup routine).getD []

def all (usage : SlotUsage) : List Slot :=
  Ascending.ofList (usage.perRoutine.flatMap Prod.snd)

def isGlobal (usage : SlotUsage) (slot : Slot) : Bool :=
  1 < usage.perRoutine.countP fun entry => slot ∈ entry.2

def globals (usage : SlotUsage) : List Slot := usage.all.filter usage.isGlobal

/-- The slots of each routine that no other routine mentions. -/
def locals (usage : SlotUsage) : RoutineTable (List Slot) :=
  usage.perRoutine.map fun entry =>
    (entry.1, entry.2.filter fun slot => !usage.isGlobal slot)

/-- The slots that something outside the code of one routine can read. -/
def pinned (usage : SlotUsage) : List Slot :=
  usage.all.filter fun slot =>
    usage.isGlobal slot || slot ∈ usage.dynamic || slot.isReserved

/-- The slots of a routine that are its own and whose cells nothing else can reach. -/
def privateSlots (usage : SlotUsage) (routine : Routine) : List Slot :=
  ((usage.locals.lookup routine).getD []).filter fun slot =>
    !slot.isReserved && slot ∉ usage.dynamic

end SlotUsage

end ContractBackend
