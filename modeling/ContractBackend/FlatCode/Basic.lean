import ContractBackend.Instr

/-!
# Flat code

The code of a routine as one list of instructions and labels.
-/

namespace ContractBackend

inductive Item where
  | label (label : Label)
  | instr (instr : Instr)
  deriving DecidableEq, Inhabited

namespace Item

def instr? : Item → Option Instr
  | .label _ => none
  | .instr content => some content

end Item

abbrev FlatCode := List Item

namespace FlatCode

def instrs (code : FlatCode) : List Instr := code.filterMap Item.instr?

theorem mem_instrs {code : FlatCode} {instr : Instr} :
    instr ∈ code.instrs ↔ .instr instr ∈ code := by
  rw [instrs, List.mem_filterMap]
  constructor
  · rintro ⟨item, member, isInstr⟩
    cases item with
    | label => cases isInstr
    | instr other =>
      cases isInstr
      exact member
  · exact fun member => ⟨_, member, rfl⟩

end FlatCode

/-- Something for each of some routines, main first and the subroutines by number. -/
abbrev RoutineTable (α : Type) := List (Routine × α)

end ContractBackend
