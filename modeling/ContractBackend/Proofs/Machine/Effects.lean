import ContractBackend.Proofs.Machine.SideBySide

/-!
# What instructions do

An instruction works on the topmost values of the stack only. It does the same whatever lies below
them, whatever the scratch cells hold unless it accesses one, where there is more room, and wherever
it stands in the listing. Instructions that access cells or move values leave what is expected.
-/

namespace ContractBackend

def Opcode.accessesScratch : Opcode → Bool
  | .load | .store | .loads | .stores => true
  | _ => false

namespace Machine

open Exec

/-- Sides with the same values in all cells. -/
def Sides.level (limits limits' : Limits) (below below' : List Value)
    (less : limits'.maxStack - below'.length ≤ limits.maxStack - below.length) : Sides :=
  ⟨limits, limits', below, below', Eq, less⟩

variable {limits wider : Limits} {env : Environment} {op : Opcode} {line : Nat}
  {arguments : List Argument} {top below below' : List Value} {memory memory' after : Memory}
  {flow : Flow}

theorem execute_level {less : limits.maxStack - below'.length ≤ wider.maxStack - below.length}
    (env : Environment) (line line' : Nat)
    (beside : Beside (.level wider limits below below' less) top memory memory')
    (enough : (below = [] ∧ below' = []) ∨ touched op arguments ≤ top.length) :
    Matches (.level wider limits below below' less) op arguments memory
      (execute wider env ⟨op, line⟩ arguments memory)
      (execute limits env ⟨op, line'⟩ arguments memory') := by
  refine (execute_parallel (.level wider limits below below' less) env op line line'
    (List.forall₂_same.mpr fun _ _ => .refl _) ?_ ?_).starts beside enough
  · rintro cell - left right ⟨⟩
    rfl
  · rintro - cell value left right ⟨⟩
    rfl

theorem Beside.eq {less : limits.maxStack - below'.length ≤ wider.maxStack - below.length}
    (beside : Beside (.level wider limits below below' less) top memory memory') :
    memory' = { memory with stack := top ++ below' } := by
  have isStack : memory'.stack = top ++ below' := beside.stack'
  have scratch : memory.scratch = memory'.scratch := beside.cells
  rw [← isStack, ← beside.effects, ← beside.appState, scratch]

/-- On the same memory an instruction does the same on every line, unless there is less room. -/
theorem execute_whole (more : limits.maxStack ≤ wider.maxStack) (env : Environment) (op : Opcode)
    (line line' : Nat) (arguments : List Argument) (memory : Memory) :
    Matches (.level wider limits [] [] more) op arguments memory
      (execute wider env ⟨op, line⟩ arguments memory)
      (execute limits env ⟨op, line'⟩ arguments memory) :=
  execute_level env line line' ⟨(List.append_nil _).symm, (List.append_nil _).symm, rfl, rfl, rfl⟩
    (.inl ⟨rfl, rfl⟩)

theorem Beside.eq_of_whole {more : limits.maxStack ≤ wider.maxStack}
    (beside : Beside (.level wider limits [] [] more) top memory memory') : memory' = memory := by
  have isStack : memory.stack = top ++ [] := beside.stack
  rw [beside.eq, ← isStack]

/-! ## One instruction -/

theorem flows_of_execute
    (isOk : execute limits env ⟨op, line⟩ arguments memory = .ok (flow, after)) :
    op.Flows flow ∧ Performs limits op arguments memory after := by
  have whole := execute_whole (Nat.le_refl limits.maxStack) env op line line arguments memory
  rw [isOk] at whole
  cases whole with
  | ok _ _ flows performs => exact ⟨flows, performs⟩

theorem accounted_of_execute {fault : Fault}
    (fails : execute limits env ⟨op, line⟩ arguments memory = .error fault) :
    fault.Accounted (op.suits arguments) (memory.stack.length < touched op arguments) := by
  have whole := execute_whole (Nat.le_refl limits.maxStack) env op line line arguments memory
  rw [fails] at whole
  cases whole with
  | error _ accounted => exact accounted
  | crowded | full => trivial

/-- An instruction with its immediate fails because of the values it works on. -/
theorem isStray_of_execute {fault : Fault} (suits : op.suits arguments = true)
    (fails : execute limits env ⟨op, line⟩ arguments memory = .error fault) :
    fault.isStray = false := by
  have accounted := accounted_of_execute fails
  cases fault <;> first | rfl | exact absurd (suits.symm.trans accounted) (by decide)

/-- There is room for what an instruction has put on the stack, and one without effects has
changed nothing else. -/
theorem execute_within
    (isOk : execute limits env ⟨op, line⟩ arguments memory = .ok (flow, after)) :
    after.stack.length ≤ max limits.maxStack memory.stack.length ∧
      (op.hasSideEffects = false → after = { memory with stack := after.stack }) := by
  have performs := (flows_of_execute isOk).2
  refine ⟨performs.fits, fun isQuiet => ?_⟩
  obtain ⟨effects, appState⟩ := performs.quiet isQuiet
  have scratch : after.scratch = memory.scratch := by
    apply performs.scratch
    · rintro rfl
      cases isQuiet
    · rintro rfl
      cases isQuiet
  rw [← effects, ← appState, ← scratch]

/-! ## Other lines, bounds and stacks -/

/-- On the same memory an instruction does the same on every line. -/
theorem execute_elsewhere (limits : Limits) (env : Environment) (op : Opcode) (line line' : Nat)
    (arguments : List Argument) (memory : Memory) :
    (execute limits env ⟨op, line'⟩ arguments memory).mapError Fault.unplaced =
      (execute limits env ⟨op, line⟩ arguments memory).mapError Fault.unplaced := by
  have alike := execute_whole (Nat.le_refl limits.maxStack) env op line line' arguments memory
  generalize execute limits env ⟨op, line⟩ arguments memory = before at alike
  generalize execute limits env ⟨op, line'⟩ arguments memory = after at alike
  cases alike with
  | ok top beside => rw [beside.eq_of_whole]
  | error same => exact congrArg Except.error same
  | crowded => rfl
  | full more => exact absurd more (Nat.lt_irrefl _)

/-- An instruction that succeeds does so on every line, and where there is more room. -/
theorem execute_wider (more : limits.maxStack ≤ wider.maxStack)
    (isOk : execute limits env ⟨op, line⟩ arguments memory = .ok (flow, after)) (other : Nat) :
    execute wider env ⟨op, other⟩ arguments memory = .ok (flow, after) := by
  have alike := execute_whole more env op other line arguments memory
  rw [isOk] at alike
  generalize execute wider env ⟨op, other⟩ arguments memory = result at alike ⊢
  cases alike with
  | ok top beside => rw [beside.eq_of_whole]

/-- The memory with further values below the stack and other scratch cells. -/
def Memory.onto (memory : Memory) (below : List Value) (scratch : Vector Value cellCount) :
    Memory :=
  { memory with stack := memory.stack ++ below, scratch }

/-- A piece of an execution goes alike on the topmost values and on the whole stack, if there
are as many of them as needed. -/
def Exec.Alike {α : Type} (below : List Value) (scratch : Vector Value cellCount) (need : Nat)
    (part whole : Exec α) : Prop :=
  ∀ memory : Memory, need ≤ memory.stack.length →
    match part memory with
    | .ok (value, after) =>
        whole (memory.onto below scratch) = .ok (value, after.onto below scratch)
    | .error _ => ∃ fault, whole (memory.onto below scratch) = .error fault

/-- The bounds for the topmost values of a stack. -/
def Limits.above (limits : Limits) (count : Nat) : Limits :=
  { limits with maxStack := limits.maxStack - count }

/-- An instruction that does not access scratch cells goes alike on the values it touches and on
the whole stack. -/
theorem execute_alike {scratch : Vector Value cellCount} {arguments' : List Argument} (op : Opcode)
    (plain : op.accessesScratch = false)
    (alike : List.Forall₂ Argument.Alike arguments arguments') :
    Exec.Alike below scratch (touched op arguments)
      (execute (limits.above below.length) env ⟨op, 0⟩ arguments)
      (execute limits env ⟨op, line⟩ arguments') := by
  intro memory enough
  -- There is the same room above the rest of the stack, and the cells stay as they are.
  let sides : Sides := ⟨limits.above below.length, limits, [], below, fun _ cells => cells = scratch,
    Nat.le_refl _⟩
  have beside : Beside sides memory.stack memory (memory.onto below scratch) :=
    ⟨(List.append_nil _).symm, rfl, rfl, rfl, rfl⟩
  have goes := (execute_parallel sides env op 0 line alike
    (by rintro cell (rfl | ⟨rfl, _⟩) <;> cases plain)
    (by rintro (rfl | rfl) <;> cases plain)).starts beside (.inr enough)
  change Exec.Matches sides op arguments memory
    (execute (limits.above below.length) env ⟨op, 0⟩ arguments memory)
    (execute limits env ⟨op, line⟩ arguments' (memory.onto below scratch)) at goes
  generalize execute (limits.above below.length) env ⟨op, 0⟩ arguments memory = part at goes ⊢
  generalize execute limits env ⟨op, line⟩ arguments' (memory.onto below scratch) = whole at goes ⊢
  cases goes with
  | @ok value after after' top beside =>
    have isTop : after.stack = top := beside.stack.trans (List.append_nil _)
    have isStack : after'.stack = after.stack ++ below := isTop ▸ beside.stack'
    have isScratch : after'.scratch = scratch := beside.cells
    change Except.ok (value, after') = .ok (value, after.onto below scratch)
    rw [Memory.onto, ← isStack, ← isScratch, ← beside.effects, ← beside.appState]
  | error => exact ⟨_, rfl⟩
  | crowded => exact ⟨_, rfl⟩
  | full less => exact absurd less (Nat.lt_irrefl _)

section Cells

variable {limits : Limits} {env : Environment} {line : Nat} {memory after : Memory} {flow : Flow}
  {others : List Argument} {index : Cell}

theorem execute_load_eq_ok :
    execute limits env ⟨.load, line⟩ (.uint (UInt64.ofNat index.val) :: others) memory =
        .ok (flow, after) ↔
      memory.stack.length < limits.maxStack ∧ flow = .next ∧
        after = { memory with stack := memory.scratch.get index :: memory.stack } := by
  simp only [execute, uintArgument, bind_apply, pure_apply, Fallible.ok_bind, cell_apply_ofNat,
    readCell_apply, push_apply]
  split
  next room => simp [room, eq_comm]
  next full => simp [full]

theorem execute_store_eq_ok :
    execute limits env ⟨.store, line⟩ (.uint (UInt64.ofNat index.val) :: others) memory =
        .ok (flow, after) ↔
      ∃ value rest, memory.stack = value :: rest ∧ flow = .next ∧
        after =
          { memory with stack := rest, scratch := memory.scratch.set index value index.isLt } := by
  simp only [execute, uintArgument, bind_apply, pure_apply, Fallible.ok_bind, cell_apply_ofNat,
    pop_apply]
  cases memory.stack with
  | nil => simp
  | cons value rest => simp [writeCell_apply, eq_comm]

theorem execute_load_full (full : limits.maxStack ≤ memory.stack.length) :
    execute limits env ⟨.load, line⟩ (.uint (UInt64.ofNat index.val) :: others) memory =
      .error (.stackLimitExceeded limits.maxStack) := by
  simp only [execute, uintArgument, bind_apply, pure_apply, Fallible.ok_bind, cell_apply_ofNat,
    readCell_apply, push_apply, Nat.not_lt.mpr full, if_false]
  rfl

theorem execute_store_nil (empty : memory.stack = []) :
    execute limits env ⟨.store, line⟩ (.uint (UInt64.ofNat index.val) :: others) memory =
      .error (.stackUnderflow ⟨.store, line⟩) := by
  simp only [execute, uintArgument, bind_apply, pure_apply, Fallible.ok_bind, cell_apply_ofNat,
    pop_apply, empty]
  rfl

theorem execute_cover_eq_ok {depth : UInt64} :
    execute limits env ⟨.cover, line⟩ (.uint depth :: others) memory = .ok (flow, after) ↔
      ∃ value rest, memory.stack = value :: rest ∧ depth.toNat ≤ rest.length ∧ flow = .next ∧
        after = { memory with stack := rest.insertIdx depth.toNat value } := by
  simp only [execute, bind_apply, depthArgument_apply]
  cases stack : memory.stack with
  | nil => simp
  | cons value rest =>
    by_cases inside : depth.toNat ≤ rest.length
    · simp [Nat.lt_succ_of_le inside, inside, pop_apply, stack, modify_apply, pure_apply, eq_comm]
    · have outside : ¬ depth.toNat < rest.length + 1 := by omega
      simp [inside, outside]

theorem execute_swap_eq_ok :
    execute limits env ⟨.swap, line⟩ others memory = .ok (flow, after) ↔
      ∃ upper lower rest, memory.stack = upper :: lower :: rest ∧
        rest.length + 1 < limits.maxStack ∧ flow = .next ∧
        after = { memory with stack := lower :: upper :: rest } := by
  simp only [execute, bind_apply, pop_apply]
  rcases memory.stack with _ | ⟨upper, _ | ⟨lower, rest⟩⟩
  · simp
  · simp
  · by_cases room : rest.length + 1 < limits.maxStack
    · have first : rest.length < limits.maxStack := Nat.lt_of_succ_lt room
      simp [push_apply, first, room, pure_apply, eq_comm]
    · by_cases first : rest.length < limits.maxStack <;> simp [push_apply, first, room]

theorem execute_dup {value : Value} {rest : List Value} (stack : memory.stack = value :: rest)
    (room : rest.length + 1 < limits.maxStack) :
    execute limits env ⟨.dup, line⟩ others memory =
      .ok (.next, { memory with stack := value :: value :: rest }) := by
  have first : rest.length < limits.maxStack := Nat.lt_of_succ_lt room
  simp only [execute, bind_apply, pop_apply, stack, push_apply, Fallible.ok_bind, pure_apply,
    List.length_cons, first, room, if_true]

theorem execute_dup2 {upper lower : Value} {rest : List Value}
    (stack : memory.stack = upper :: lower :: rest) (room : rest.length + 3 < limits.maxStack) :
    execute limits env ⟨.dup2, line⟩ others memory =
      .ok (.next, { memory with stack := upper :: lower :: upper :: lower :: rest }) := by
  have third : rest.length + 1 + 1 < limits.maxStack := Nat.lt_of_succ_lt room
  have second : rest.length + 1 < limits.maxStack := Nat.lt_of_succ_lt third
  have first : rest.length < limits.maxStack := Nat.lt_of_succ_lt second
  simp only [execute, bind_apply, pop_apply, stack, push_apply, Fallible.ok_bind, pure_apply,
    List.length_cons, first, second, third, room, if_true]

end Cells

end Machine

end ContractBackend
