import ContractBackend.Opcode
import ContractBackend.Slot

/-!
# Symbolic instructions

Instructions as the lowering produces them: operands may still name scratch slots, labels of the
routine and subroutines. Linking replaces these by cells and label names.
-/

namespace ContractBackend

/-- The number of a subroutine in its program. -/
abbrev SubroutineId := Nat

/-- A piece of code with an entry of its own. -/
inductive Routine where
  | main
  | subroutine (id : SubroutineId)
  deriving DecidableEq, Inhabited

namespace Routine

def text : Routine → String
  | .main => "main"
  | .subroutine id => s!"subroutine #{id}"

/-- The number of a subroutine; the main routine has none. -/
def subroutine? : Routine → Option SubroutineId
  | .main => none
  | .subroutine id => some id

/-- Position in the order of routines: main first, then the subroutines by number. -/
def rank : Routine → Nat
  | .main => 0
  | .subroutine id => id + 1

instance : LT Routine where
  lt left right := left.rank < right.rank

instance : DecidableLT Routine := fun left right =>
  inferInstanceAs (Decidable (left.rank < right.rank))

end Routine

/-- A place in the code of one routine. Labels are numbered per routine; the scope makes them
unique once the routines stand in one listing. -/
structure Label where
  index : Nat
  scope : String := ""
  deriving DecidableEq, Inhabited

namespace Label

def text (label : Label) : String := s!"{label.scope}l{label.index}"

end Label

inductive Operand where
  | uint (value : UInt64)
  | bytes (value : List UInt8)
  | text (value : String)
  /-- A field or another named immediate. -/
  | name (value : String)
  /-- The cell that `load` and `store` access. -/
  | slot (slot : Slot)
  /-- The number of a cell as an integer, for `loads` and `stores`. -/
  | slotIndex (slot : Slot)
  | label (label : Label)
  | subroutine (id : SubroutineId)
  deriving DecidableEq, Inhabited

namespace Operand

/-- The slot accessed directly through this operand. -/
def slot? : Operand → Option Slot
  | .slot accessed => some accessed
  | _ => none

/-- The slot this operand mentions, directly or by its index. -/
def mentioned? : Operand → Option Slot
  | .slot accessed | .slotIndex accessed => some accessed
  | _ => none

/-- The slot whose index this operand pushes. -/
def indexed? : Operand → Option Slot
  | .slotIndex accessed => some accessed
  | _ => none

def label? : Operand → Option Label
  | .label target => some target
  | _ => none

def subroutine? : Operand → Option SubroutineId
  | .subroutine id => some id
  | _ => none

end Operand

structure Instr where
  op : Opcode
  operands : List Operand := []
  deriving DecidableEq, Inhabited

namespace Instr

def int (value : UInt64) : Instr := ⟨.int, [.uint value]⟩

/-- An opcode with one numeric immediate. -/
def immediate (op : Opcode) (value : UInt64) : Instr := ⟨op, [.uint value]⟩

def load (slot : Slot) : Instr := ⟨.load, [.slot slot]⟩

def store (slot : Slot) : Instr := ⟨.store, [.slot slot]⟩

/-- A branch to a label of the same routine. -/
def branch (op : Opcode) (label : Label) : Instr := ⟨op, [.label label]⟩

def callsub (id : SubroutineId) : Instr := ⟨.callsub, [.subroutine id]⟩

def directSlot? (instr : Instr) : Option Slot :=
  instr.operands.findSome? Operand.slot?

/-- Every slot mentioned, directly or by its index. -/
def slots (instr : Instr) : List Slot :=
  instr.operands.filterMap Operand.mentioned?

/-- Every slot whose index is pushed. -/
def indexedSlots (instr : Instr) : List Slot :=
  instr.operands.filterMap Operand.indexed?

def label? (instr : Instr) : Option Label :=
  instr.operands.findSome? Operand.label?

def subroutine? (instr : Instr) : Option SubroutineId :=
  instr.operands.findSome? Operand.subroutine?

def loadsFrom (instr : Instr) (slot : Slot) : Bool :=
  instr.op = .load && instr.directSlot? = some slot

theorem loadsFrom_iff {instr : Instr} {slot : Slot} :
    instr.loadsFrom slot = true ↔ instr.op = .load ∧ instr.directSlot? = some slot := by
  simp [loadsFrom]

def storesTo (instr : Instr) (slot : Slot) : Bool :=
  instr.op = .store && instr.directSlot? = some slot

end Instr

end ContractBackend
