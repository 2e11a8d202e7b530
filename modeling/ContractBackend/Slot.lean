/-!
# Scratch slots

A slot is a variable of the contract before it has a place. Slots are told apart by the number
under which they were handed out; a reserved slot also names the scratch cell it has to occupy.
-/

namespace ContractBackend

def cellCount : Nat := 256

abbrev Cell := Fin cellCount

/-- A scratch slot, numbered in the order of creation. -/
structure Slot where
  id : Nat
  /-- The cell that a reserved slot has to occupy. -/
  requested : Option Cell := none
  deriving DecidableEq, Inhabited

namespace Slot

/-- Whether the slot names the cell it has to occupy. -/
def isReserved (slot : Slot) : Bool := slot.requested.isSome

def text (slot : Slot) : String :=
  match slot.requested with
  | some cell => s!"slot#{slot.id}@{cell.val}"
  | none => s!"slot#{slot.id}"

/-- Second key of the order: slots without a request come before all others. -/
def requestRank (slot : Slot) : Nat :=
  match slot.requested with
  | none => 0
  | some cell => cell.val + 1

/-- Creation order. Slots of one supply differ in their number already; the request decides
between slots of different supplies. -/
instance : LT Slot where
  lt left right :=
    left.id < right.id ∨ (left.id = right.id ∧ left.requestRank < right.requestRank)

instance : DecidableLT Slot := fun left right =>
  inferInstanceAs (Decidable (left.id < right.id ∨
    (left.id = right.id ∧ left.requestRank < right.requestRank)))

end Slot

/-- The source of slot numbers of one program. -/
structure SlotSupply where
  /-- How many slots have been handed out. -/
  issued : Nat := 0
  deriving DecidableEq, Inhabited

namespace SlotSupply

def draw (supply : SlotSupply) (requested : Option Cell := none) : Slot × SlotSupply :=
  (⟨supply.issued, requested⟩, ⟨supply.issued + 1⟩)

/-- Hand out as many unreserved slots as asked for, in order. -/
def drawMany (supply : SlotSupply) (count : Nat) : List Slot × SlotSupply :=
  ((List.range count).map fun offset => ⟨supply.issued + offset, none⟩,
    ⟨supply.issued + count⟩)

end SlotSupply

end ContractBackend
