import ContractBackend.Proofs.Depths

/-!
# Slots that are known by name

Where no expression works with the number of a cell, every slot that the code mentions is one that
it loads or stores by name.
-/

namespace ContractBackend

/-- Whether the instruction mentions no slot but the one it loads or stores. -/
def Instr.isStatic (instr : Instr) : Bool :=
  match instr.op with
  | .load | .store => instr.operands.length = 1 && instr.indexedSlots.isEmpty
  | .loads | .stores => false
  | _ => instr.slots.isEmpty

/-- The slot that an instruction loads or stores is its only operand. -/
theorem Instr.operands_of_isStatic {instr : Instr} {slot : Slot} (static : instr.isStatic = true)
    (op : instr.op = .load ∨ instr.op = .store) (accessed : instr.directSlot? = some slot) :
    instr.operands = [.slot slot] := by
  have single : instr.operands.length = 1 := by
    rcases op with op | op <;>
      · simp only [isStatic, op, Bool.and_eq_true, decide_eq_true_eq] at static
        exact static.1
  obtain ⟨operand, isOperand⟩ := List.length_eq_one_iff.mp single
  rw [directSlot?, isOperand] at accessed
  cases operand <;> simp [Operand.slot?] at accessed
  rw [isOperand, accessed]

theorem Instr.slots_of_isStatic {instr : Instr} (static : instr.isStatic = true)
    (op : instr.op ≠ .load ∧ instr.op ≠ .store) : instr.slots = [] := by
  rw [isStatic] at static
  cases isOp : instr.op <;> simp_all

/-- No number of a cell is pushed. -/
theorem Instr.indexedSlots_of_isStatic {instr : Instr} (static : instr.isStatic = true) :
    instr.indexedSlots = [] := by
  by_cases op : instr.op = .load ∨ instr.op = .store
  · rcases op with op | op <;>
      · simp only [isStatic, op, Bool.and_eq_true, List.isEmpty_iff] at static
        exact static.2
  · have none := slots_of_isStatic static (not_or.mp op)
    simp only [slots, indexedSlots, List.filterMap_eq_nil_iff] at none ⊢
    intro operand member
    have quiet := none operand member
    cases operand <;> first | rfl | cases quiet

/-- Whether no expression works with the number of a cell. -/
def Expr.isStatic : Expr → Bool :=
  every fun
    | .slotIndex _ | .loadIndirect _ | .storeIndirect .. | .inline _ => false
    | _ => true

/-- Regular instructions that know their slots by name. -/
def Dialect.static (main : Bool) : Dialect where
  admits instr := (regular main).admits instr && instr.isStatic
  straight := by
    intro instr admitted
    rw [Bool.and_eq_true] at admitted
    exact (regular main).straight admitted.1

theorem Dialect.complete_static : Dialect.Complete .static where
  ret := rfl
  retsub := rfl
  stores _ := rfl
  dup main := by cases main <;> exact ⟨rfl, rfl⟩
  saves main := by cases main <;> exact ⟨fun _ => rfl, fun _ => rfl, fun _ => rfl, rfl⟩

namespace Expr

variable {expr : Expr}

theorem emits_of_isStatic (main : Bool) (static : expr.isStatic = true) :
    expr.emits main (Dialect.static main).admits = true := by
  refine every_mono (fun part isNamed => ?_) expr static
  cases part with
  | inline | slotIndex | loadIndirect | storeIndirect => cases isNamed
  | seq items => cases items <;> simp [own, leaf?, operator?]
  | binary op | unary op => cases op <;> cases main <;> rfl
  | field source => cases source <;> cases main <;> rfl
  | _ => cases main <;> rfl

theorem fits_static (disciplined : expr.disciplined = true) (static : expr.isStatic = true)
    (main : Bool) : expr.Fits main (.static main) (some 0) := by
  have catalog := expr.isCatalog_of_disciplined disciplined
  refine ⟨emits_of_isStatic main static, isProper_of_isCatalog catalog, fun height known => ?_⟩
  cases known
  exact ⟨disciplined, fun _ => rfl⟩

end Expr

/-- A program whose expressions are disciplined and know their slots by name. -/
structure IsStatic (main : Expr) (before : Program) : Prop where
  made : before.Made
  disciplined : main.disciplined = true
  static : main.isStatic = true
  bodies : before.BodiesHave fun body => body.disciplined = true ∧ body.isStatic = true

/-- The code of routines mentions no slots but those that are loaded and stored. -/
def RoutineTable.IsStatic (flat : RoutineTable FlatCode) : Prop :=
  ∀ entry ∈ flat, ∀ instr ∈ entry.2.instrs, instr.isStatic = true

/-- The flat code of a safe graph mentions no other slots: branches mention none. -/
theorem RoutineGraph.isStatic_of_flatten {main : Bool} {declared : SubroutineId → Option Handle}
    {results : Nat} {routine : RoutineGraph} {code : FlatCode} {level : Level}
    (isOk : routine.flatten = .ok code)
    (safe : routine.graph.Safe (.heights (.static main) declared results) routine.entry level) :
    ∀ instr ∈ code.instrs, instr.isStatic = true := by
  intro instr inCode
  obtain admitted | ⟨⟨op, _⟩, jumps, rfl⟩ :=
    admits_of_mem_flatten isOk safe (FlatCode.mem_instrs.mp inCode)
  · rw [Dialect.static, Bool.and_eq_true] at admitted
    exact admitted.2
  · cases op <;> first | rfl | cases jumps

namespace Compile

variable {program : Program} {graphs : RoutineTable RoutineGraph} {base : Level}

theorem Routines.isStatic (routines : Routines .static base program graphs)
    {flat : RoutineTable FlatCode}
    (related : List.Forall₂ (fun routine code => routine.1 = code.1 ∧
      routine.2.flatten = .ok code.2) graphs flat) : flat.IsStatic := by
  intro entry member
  obtain ⟨routine, isRoutine, _, isOk⟩ := Fallible.exists_related_of_mem related member
  exact RoutineGraph.isStatic_of_flatten isOk (routines routine isRoutine)

end Compile

namespace Build

variable {main : Expr} {options : CompileOptions} {before : Program}

/-- The graphs of the routines are safe, and the height of the stack is known. -/
theorem routines_static (build : Build main options before) (static : IsStatic main before) :
    Compile.Routines .static (some 0) before build.graphs ∧
      before.SameDeclarations build.context.program := by
  have routines := Compile.routines_of_lowerRoutines Dialect.complete_static.toClosed
    (Expr.fits_static static.disciplined static.static true) (fun height known =>
      ⟨(Option.some.inj known).symm, static.made.isWellDeclared⟩)
    (static.bodies.mono fun _ body => Expr.fits_static body.1 body.2 false) build.lowered
  exact routines

end Build

end ContractBackend
