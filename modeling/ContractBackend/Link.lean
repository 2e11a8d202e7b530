import ContractBackend.Assembly
import ContractBackend.Program
import ContractBackend.Slots.Assignment

/-!
# Linking

The routines become one listing: main first, then every subroutine under a label of its own. Slots
are replaced by their cells, and labels carry the name of their routine.
-/

namespace ContractBackend.Link

def isLabelChar (c : Char) : Bool := c.isAlphanum || c = '_'

/-- The part of a label that comes from the name of a subroutine. -/
def sanitize (name : String) : String :=
  if name.isEmpty then "sub"
  else name.map fun c => if isLabelChar c then c else '_'

/-- The labels of subroutines, numbered in the given order; of two labels for one subroutine the
later counts. The labels are ascending by subroutine. -/
def labels (program : Program) (ids : List SubroutineId) :
    Except CompileError (List (SubroutineId × String)) := do
  let named ← ids.zipIdx.mapM fun entry => do
    let subroutine ← program.subroutine entry.1
    pure (entry.1, s!"{sanitize subroutine.handle.name}_{entry.2}")
  pure (Keyed.ofList named)

/-- What operands are resolved with. -/
structure Resolver where
  slots : SlotAssignment
  labels : List (SubroutineId × String)

namespace Resolver

/-- Resolve an operand in a routine whose labels have the given scope. -/
def operand (resolver : Resolver) (scope : String) : Operand → Except CompileError Argument
  | .uint value => .ok (.uint value)
  | .bytes value => .ok (.bytes value)
  | .text value => .ok (.text value)
  | .name value => .ok (.name value)
  | .slot slot | .slotIndex slot =>
      match resolver.slots.cell? slot with
      | some cell => .ok (.uint (UInt64.ofNat cell.val))
      | none => .error (.internal (.unassignedSlot slot))
  | .label label => .ok (.label { label with scope }.text)
  | .subroutine id =>
      match resolver.labels.lookup id with
      | some name => .ok (.label name)
      | none => .error (.internal (.unlabelledSubroutine id))

/-- Resolve an element of flat code. -/
def item (resolver : Resolver) (scope : String) : Item → Except CompileError Line
  | .label label => .ok (.label { label with scope }.text none)
  | .instr instr => do pure (.instr instr.op (← instr.operands.mapM (resolver.operand scope)))

def code (resolver : Resolver) (scope : String) (flat : FlatCode) :
    Except CompileError (List Line) :=
  flat.mapM (resolver.item scope)

/-- A subroutine under its label, with its name as a comment. -/
def subroutine (resolver : Resolver) (name label : String) (flat : FlatCode) :
    Except CompileError (List Line) := do
  pure (.label label (some name) :: (← resolver.code s!"{label}_" flat))

end Resolver

def subroutines (routines : RoutineTable FlatCode) : List (SubroutineId × FlatCode) :=
  routines.filterMap fun entry => entry.1.subroutine?.map fun id => (id, entry.2)

/-- Link routines into a listing. -/
def link (program : Program) (slots : SlotAssignment) (version : Version)
    (routines : RoutineTable FlatCode) : Except CompileError Assembly := do
  let labels ← labels program ((subroutines routines).map Prod.fst)
  let resolver : Resolver := ⟨slots, labels⟩
  match routines.lookup .main with
  | none => throw (.internal .mainMissing)
  | some main =>
      let mainLines ← resolver.code "main_" main
      let subLines ← (subroutines routines).mapM fun entry => do
        let name := (← program.subroutine entry.1).handle.name
        resolver.subroutine name ((labels.lookup entry.1).getD "") entry.2
      pure ⟨version, mainLines ++ subLines.flatten⟩

end ContractBackend.Link
