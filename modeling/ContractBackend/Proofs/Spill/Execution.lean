import ContractBackend.Proofs.Linking
import ContractBackend.Proofs.Machine.Effects
import ContractBackend.Proofs.Spill
import Mathlib.Data.List.Induction

/-!
# Executing what saves slots

Before a call that can enter its caller again, the values of the slots of the caller come to lie
below the arguments. Behind the call they are put back, and the result stays. All that this needs is
room on the stack.
-/

namespace ContractBackend

open Machine (Limits Environment Memory Value)

/-- Putting a value into a stack below its topmost values. -/
theorem insertIdx_between {upper lower : List Value} {depth : Nat} (length : upper.length = depth)
    (value : Value) : (upper ++ lower).insertIdx depth value = upper ++ value :: lower := by
  subst length
  rw [Machine.Exec.insertIdx_append value (Nat.le_refl _), List.insertIdx_length_self,
    List.append_assoc, List.singleton_append]

namespace Spill

variable {slots : List Slot} {argCount : Nat} {returnsValue : Bool} {version : Version}

/-- Control goes on at the next line behind what is inserted. -/
theorem Inserted.eq_next {instr : Instr} {flow : Machine.Flow}
    (inserted : Inserted slots argCount returnsValue version instr)
    (flows : instr.op.Flows flow) : flow = .next := by
  cases inserted <;> exact flows

end Spill

namespace Link.Resolver

theorem cellCount_pos : 0 < cellCount := Nat.succ_pos _

def cellOf (resolver : Resolver) (slot : Slot) : Cell :=
  (resolver.slots.cell? slot).getD ⟨0, cellCount_pos⟩

def HasCell (resolver : Resolver) (slot : Slot) : Prop :=
  resolver.slots.cell? slot = some (resolver.cellOf slot)

def valueIn (resolver : Resolver) (memory : Memory) (slot : Slot) : Value :=
  memory.scratch.get (resolver.cellOf slot)

/-- Code without branches and calls is executed from its start to its end. -/
inductive Executes (resolver : Resolver) (limits : Limits) (env : Environment) (scope : String) :
    List Instr → Memory → Memory → Prop where
  | nil {memory : Memory} : Executes resolver limits env scope [] memory memory
  | cons {instr : Instr} {rest : List Instr} {line : Nat} {arguments : List Argument}
      {memory middle after : Memory} :
      instr.operands.mapM (resolver.operand scope) = .ok arguments →
      Machine.execute limits env ⟨instr.op, line⟩ arguments memory = .ok (.next, middle) →
      Executes resolver limits env scope rest middle after →
      Executes resolver limits env scope (instr :: rest) memory after

variable {resolver : Resolver} {limits : Limits} {env : Environment} {scope : String}
  {version : Version} {instrs others : List Instr} {memory middle after : Memory}
  {arguments : List Argument} {slots : List Slot}

theorem executes_append : resolver.Executes limits env scope (instrs ++ others) memory after ↔
    ∃ middle, resolver.Executes limits env scope instrs memory middle ∧
      resolver.Executes limits env scope others middle after := by
  constructor
  · intro executes
    induction instrs generalizing memory with
    | nil => exact ⟨memory, .nil, executes⟩
    | cons instr rest ih =>
      cases executes with
      | cons resolved executed behind =>
        obtain ⟨middle, first, second⟩ := ih behind
        exact ⟨middle, .cons resolved executed first, second⟩
  · rintro ⟨middle, first, second⟩
    induction first with
    | nil => exact second
    | cons resolved executed _ ih => exact .cons resolved executed (ih second)

variable {slot : Slot}

/-- An operand that names a slot stands for its cell. -/
theorem arguments_of_slot {operands : List Operand}
    (resolved : (.slot slot :: operands).mapM (resolver.operand scope) = .ok arguments) :
    ∃ rest, arguments = .uint (UInt64.ofNat (resolver.cellOf slot).val) :: rest := by
  obtain _ | ⟨isArgument, _⟩ := Fallible.mapM_eq_ok.mp resolved
  rw [operand] at isArgument
  split at isArgument
  next cell isCell =>
    cases isArgument
    have same : resolver.slots.cell? slot = some cell := isCell
    exact ⟨_, by rw [cellOf, same, Option.getD_some]⟩
  next => cases isArgument

theorem hasCell_of_resolved
    (resolved : [Operand.slot slot].mapM (resolver.operand scope) = .ok arguments) :
    resolver.HasCell slot := by
  rw [HasCell, cellOf]
  cases isCell : resolver.slots.cell? slot with
  | none => simp [operand, isCell] at resolved
  | some cell => rfl

theorem resolved_of_slot (isCell : resolver.HasCell slot) (scope : String) :
    [Operand.slot slot].mapM (resolver.operand scope) =
      .ok [.uint (UInt64.ofNat (resolver.cellOf slot).val)] := by
  rw [HasCell] at isCell
  simp [operand, isCell]

/-! ## Saving and putting back -/

variable {slots : List Slot} {argCount : Nat} {returnsValue : Bool}

theorem executes_nil : resolver.Executes limits env scope [] memory after ↔ after = memory := by
  constructor
  · rintro ⟨⟩
    rfl
  · rintro rfl
    exact .nil

theorem executes_cons {instr : Instr}
    (resolved : instr.operands.mapM (resolver.operand scope) = .ok arguments) :
    resolver.Executes limits env scope (instr :: others) memory after ↔ ∃ line middle,
      Machine.execute limits env ⟨instr.op, line⟩ arguments memory = .ok (.next, middle) ∧
        resolver.Executes limits env scope others middle after := by
  constructor
  · intro executes
    cases executes with
    | cons resolved' executed behind =>
      cases resolved.symm.trans resolved'
      exact ⟨_, _, executed, behind⟩
  · rintro ⟨_, _, executed, behind⟩
    exact .cons resolved executed behind

/-- An instruction on a slot is executed on its cell. -/
theorem executes_slot {op : Opcode} :
    resolver.Executes limits env scope (⟨op, [.slot slot]⟩ :: others) memory after ↔
      resolver.HasCell slot ∧ ∃ line middle, Machine.execute limits env ⟨op, line⟩
          [.uint (UInt64.ofNat (resolver.cellOf slot).val)] memory = .ok (.next, middle) ∧
        resolver.Executes limits env scope others middle after := by
  by_cases isCell : resolver.HasCell slot
  · rw [executes_cons (resolved_of_slot isCell scope), and_iff_right isCell]
  · refine iff_of_false (fun executes => ?_) fun both => isCell both.1
    cases executes with
    | cons resolved => exact isCell (hasCell_of_resolved resolved)

/-- A slot is loaded if there is room for its value. -/
theorem executes_load :
    resolver.Executes limits env scope (.load slot :: others) memory after ↔
      resolver.HasCell slot ∧ memory.stack.length < limits.maxStack ∧
        resolver.Executes limits env scope others
          { memory with stack := resolver.valueIn memory slot :: memory.stack } after := by
  rw [Instr.load, executes_slot]
  simp [Machine.execute_load_eq_ok, valueIn]

variable {below : List Value}

/-- A value that is there can be stored. -/
theorem executes_store {value : Value} (stack : memory.stack = value :: below) :
    resolver.Executes limits env scope (.store slot :: others) memory after ↔
      resolver.HasCell slot ∧ resolver.Executes limits env scope others
        { memory with stack := below, scratch := memory.scratch.set (resolver.cellOf slot) value }
        after := by
  rw [Instr.store, executes_slot]
  simp [Machine.execute_store_eq_ok, stack]

variable {low : List Instr}

/-- The topmost value is moved down. Only a swap puts values on the stack again. -/
theorem executes_sink {depth : Nat} {fault : ProgramFault} {value : Value}
    (small : depth < UInt64.size) (made : Spill.sink depth version fault = .ok low)
    (stack : memory.stack = value :: below) :
    resolver.Executes limits env scope low memory after ↔
      (⟨.swap, []⟩ ∈ low → memory.stack.length ≤ limits.maxStack) ∧ depth ≤ below.length ∧
        after = { memory with stack := below.insertIdx depth value } := by
  obtain ⟨rfl, rfl⟩ | ⟨_, _, rfl⟩ | ⟨rfl, _, rfl⟩ := Spill.sink_eq_ok.mp made
  · simp [executes_nil, ← stack]
  · have same : (UInt64.ofNat depth).toNat = depth := UInt64.toNat_ofNat_of_lt' small
    rw [executes_cons rfl]
    simp [Instr.immediate, Machine.execute_cover_eq_ok, executes_nil, stack, same]
  · rw [executes_cons rfl]
    cases below <;> simp [Machine.execute_swap_eq_ok, executes_nil, stack, Nat.succ_le_iff]

/-- The values of the slots come to lie below the arguments, if there is room for them. -/
theorem executes_saves {args base : List Value} (small : argCount < UInt64.size)
    (made : slots ≠ [] → Spill.sink argCount version .spillBelowArguments = .ok low)
    (count : args.length = argCount) (stack : memory.stack = args ++ base) :
    resolver.Executes limits env scope (Spill.saves slots low) memory after ↔
      (∀ slot ∈ slots, resolver.HasCell slot) ∧
      (slots ≠ [] → memory.stack.length + slots.length ≤ limits.maxStack) ∧
      after = { memory with
        stack := args ++ ((slots.map (resolver.valueIn memory)).reverse ++ base) } := by
  induction slots generalizing memory base with
  | nil => simp [Spill.saves, executes_nil, ← stack]
  | cons slot slots ih =>
    have sunk := made (List.cons_ne_nil _ _)
    let value := resolver.valueIn memory slot
    rw [Spill.saves, List.flatMap_cons, List.cons_append, executes_load, executes_append,
      List.forall_mem_cons, and_assoc]
    refine and_congr_right fun _ => ?_
    by_cases room : memory.stack.length < limits.maxStack
    · have lowers (middle : Memory) : resolver.Executes limits env scope low
          { memory with stack := value :: memory.stack } middle ↔
            middle = { memory with stack := args ++ value :: base } := by
        have fits : (value :: memory.stack).length ≤ limits.maxStack := room
        rw [executes_sink small sunk rfl, and_iff_right fun _ => fits, stack, insertIdx_between count]
        simp [← count]
      have behind : resolver.Executes limits env scope (Spill.saves slots low)
          { memory with stack := args ++ value :: base } after ↔ _ := ih (fun _ => sunk) rfl
      have length : (args ++ value :: base).length = memory.stack.length + 1 := by
        rw [stack, List.length_append, List.length_append, List.length_cons, Nat.add_assoc]
      simp only [room, true_and, value, lowers, exists_eq_left]
      refine behind.trans (and_congr_right fun _ => and_congr ?_ ?_)
      · rw [length, List.length_cons]
        cases slots with
        | nil => simp [Nat.succ_le_of_lt room]
        | cons => simp [Nat.add_comm, Nat.add_left_comm]
      · simp only [List.map_cons, List.reverse_cons, List.append_assoc, List.singleton_append]
        rfl
    · simp only [room, false_and, false_iff]
      rintro ⟨_, space, _⟩
      have space := space (List.cons_ne_nil _ _)
      rw [List.length_cons] at space
      omega

/-- What a callee finds below its arguments. -/
theorem Executes.drop_saves (small : argCount < UInt64.size)
    (made : slots ≠ [] → Spill.sink argCount version .spillBelowArguments = .ok low)
    (executes : resolver.Executes limits env scope (Spill.saves slots low) memory after) :
    after.stack.drop argCount =
      (slots.map (resolver.valueIn memory)).reverse ++ memory.stack.drop argCount := by
  by_cases none : slots = []
  · subst none
    cases executes
    rfl
  · have enough : argCount ≤ memory.stack.length := by
      obtain ⟨slot, slots, rfl⟩ := List.exists_cons_of_ne_nil none
      rw [Spill.saves, List.flatMap_cons, List.cons_append, executes_load, executes_append]
        at executes
      obtain ⟨_, _, _, first, _⟩ := executes
      exact ((executes_sink small (made none) rfl).mp first).2.1
    have count := List.length_take_of_le enough
    have stack := (List.take_append_drop argCount memory.stack).symm
    rw [((executes_saves small made count stack).mp executes).2.2]
    exact List.drop_left' count

/-- Cells that slots have been put back into. -/
def restored (resolver : Resolver) (saved : Slot → Value) (slots : List Slot)
    (scratch : Vector Value cellCount) : Vector Value cellCount :=
  slots.foldr (fun slot scratch => scratch.set (resolver.cellOf slot) (saved slot)) scratch

variable {saved : Slot → Value} {scratch : Vector Value cellCount}

theorem restored_append {more : List Slot} :
    resolver.restored saved (slots ++ more) scratch =
      resolver.restored saved slots (resolver.restored saved more scratch) := by
  simp [restored]

theorem get_restored_of_ne {cell : Cell} (apart : ∀ slot ∈ slots, resolver.cellOf slot ≠ cell) :
    (resolver.restored saved slots scratch).get cell = scratch.get cell := by
  induction slots with
  | nil => rfl
  | cons slot slots ih =>
    rw [List.forall_mem_cons] at apart
    exact (get_set_of_ne _ _ apart.1).trans (ih apart.2)

/-- Slots with different cells get their values back. -/
theorem get_restored (distinct : ∀ left ∈ slots, ∀ right ∈ slots,
      resolver.cellOf left = resolver.cellOf right → left = right) (member : slot ∈ slots) :
    (resolver.restored saved slots scratch).get (resolver.cellOf slot) = saved slot := by
  induction slots with
  | nil => cases member
  | cons first slots ih =>
    by_cases same : slot = first
    · subst same
      exact get_set_self _ _ _
    · have later := (List.mem_cons.mp member).resolve_left same
      have different : resolver.cellOf first ≠ resolver.cellOf slot := fun equal =>
        same (distinct slot member first List.mem_cons_self equal.symm)
      have others : ∀ left ∈ slots, ∀ right ∈ slots,
          resolver.cellOf left = resolver.cellOf right → left = right :=
        fun left isLeft right isRight =>
          distinct left (List.mem_cons_of_mem _ isLeft) right (List.mem_cons_of_mem _ isRight)
      exact (get_set_of_ne _ _ different).trans (ih others later)

theorem length_saved (saved : Slot → Value) : (slots.map saved).reverse.length = slots.length := by
  simp

theorem executes_stores (stack : memory.stack = (slots.map saved).reverse ++ below) :
    resolver.Executes limits env scope (slots.reverse.map .store) memory after ↔
      (∀ slot ∈ slots, resolver.HasCell slot) ∧
      after = { memory with
        stack := below, scratch := resolver.restored saved slots memory.scratch } := by
  induction slots using List.reverseRecOn generalizing memory with
  | nil =>
    rw [List.map_nil, List.reverse_nil, List.nil_append] at stack
    simp [executes_nil, restored, ← stack]
  | append_singleton slots slot ih =>
    rw [List.map_append, List.map_singleton, List.reverse_append, List.reverse_singleton,
      List.singleton_append, List.cons_append] at stack
    rw [List.reverse_append, List.reverse_singleton, List.singleton_append, List.map_cons,
      executes_store stack, ih rfl, restored_append, List.forall_mem_append,
      List.forall_mem_singleton, ← and_assoc, and_comm (a := resolver.HasCell slot)]
    rfl

/-- The slots get their values back, and the result stays. -/
theorem executes_restores {lower : List Instr} {results : List Value}
    (small : slots.length < UInt64.size)
    (surrounds : Spill.Surrounds slots argCount returnsValue version low lower)
    (count : results.length = if returnsValue then 1 else 0)
    (stack : memory.stack = results ++ ((slots.map saved).reverse ++ below)) :
    resolver.Executes limits env scope (Spill.restores slots lower) memory after ↔
      (⟨.swap, []⟩ ∈ lower → memory.stack.length ≤ limits.maxStack) ∧
      (∀ slot ∈ slots, resolver.HasCell slot) ∧
      after = { memory with
        stack := results ++ below, scratch := resolver.restored saved slots memory.scratch } := by
  rw [Spill.restores, executes_append]
  have isLower := surrounds.lower
  cases returnsValue with
  | false =>
    have none : results = [] := List.eq_nil_of_length_eq_zero count
    subst none
    cases isLower
    simp only [executes_nil, exists_eq_left, executes_stores stack, List.not_mem_nil, false_imp_iff,
      true_and, List.nil_append]
  | true =>
    obtain ⟨result, rfl⟩ := List.length_eq_one_iff.mp count
    rw [List.singleton_append] at stack
    have enough : slots.length ≤ ((slots.map saved).reverse ++ below).length := by simp
    simp only [executes_sink small isLower stack, enough, true_and, and_assoc, exists_and_left,
      exists_eq_left]
    exact and_congr_right fun _ => executes_stores (insertIdx_between (length_saved saved) result)

end Link.Resolver

end ContractBackend
