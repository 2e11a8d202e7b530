import ContractBackend.Proofs.Spill.Execution
import Mathlib.Data.Fintype.Card

/-!
# Calls with saved slots

A call that slots are saved around, seen as one piece: whatever the callee does to the cells, the
slots have their values back behind it. The callee is known only by what it does to the memory.
-/

namespace ContractBackend

open Machine (Limits Environment Memory Value Flow)

/-! ## When slots can be saved -/

namespace Spill

variable {slots : List Slot} {argCount depth : Nat} {returnsValue : Bool} {version : Version}
  {fault : ProgramFault} {call : Instr}

/-- Old versions can only move a value below one other. -/
theorem exists_sink_iff :
    (∃ instrs, sink depth version fault = .ok instrs) ↔ 5 ≤ version ∨ depth ≤ 1 := by
  have cover : Opcode.cover.minVersion = 5 := rfl
  simp only [sink_eq_ok, cover, exists_or, exists_and_left, exists_eq, and_true]
  by_cases recent : 5 ≤ version
  · simp only [recent, not_true_eq_false, and_false, or_false, and_true, true_or, iff_true]
    exact em _
  · simp only [recent, not_false_eq_true, and_false, and_true, false_or]
    omega

/-- Slots can be saved around a call if they can be moved below the arguments and the result below
them. -/
theorem exists_sequence_iff :
    (∃ instrs, sequence call slots argCount returnsValue version = .ok instrs) ↔
    (slots = [] ∨ 5 ≤ version ∨ argCount ≤ 1) ∧
      (returnsValue = true → 5 ≤ version ∨ slots.length ≤ 1) := by
  simp only [sequence_eq_ok]
  constructor
  · rintro ⟨_, low, lower, surrounds, _⟩
    constructor
    · by_cases none : slots = []
      · exact .inl none
      · exact .inr (exists_sink_iff.mp ⟨low, surrounds.low none⟩)
    · intro returns
      have sunk := surrounds.lower
      rw [returns, if_pos rfl] at sunk
      exact exists_sink_iff.mp ⟨lower, sunk⟩
  · rintro ⟨below, under⟩
    obtain ⟨low, isLow⟩ : ∃ low, slots ≠ [] → sink argCount version .spillBelowArguments = .ok low := by
      rcases below with none | possible
      · exact ⟨[], fun some => absurd none some⟩
      · obtain ⟨low, sunk⟩ := exists_sink_iff.mpr possible
        exact ⟨low, fun _ => sunk⟩
    obtain ⟨lower, isLower⟩ : ∃ lower,
        (if returnsValue then sink slots.length version .spillBelowResult else .ok []) = .ok lower := by
      cases returnsValue with
      | false => exact ⟨[], rfl⟩
      | true => exact exists_sink_iff.mpr (under rfl)
    exact ⟨_, low, lower, ⟨isLow, isLower⟩, rfl⟩

theorem sequence_eq_error_iff :
    (∃ cause, sequence call slots argCount returnsValue version = .error cause) ↔
      version < 5 ∧ ((slots ≠ [] ∧ 1 < argCount) ∨ (returnsValue = true ∧ 1 < slots.length)) := by
  rw [Fallible.exists_error_iff, exists_sequence_iff, ← UInt8.not_le]
  by_cases recent : 5 ≤ version
  · simp [recent]
  · simp only [recent, false_or, not_and_or, not_or, not_forall, Nat.not_le, not_false_eq_true,
      true_and, exists_prop, ne_eq]

end Spill

/-! ## Performing a call -/

namespace Link.Resolver

/-- Code without branches is performed from its start to its end. Its calls are made by a callee
that is known by what it does to the memory. -/
inductive Performs (resolver : Resolver) (limits : Limits) (env : Environment) (scope : String)
    (callee : Memory → Memory → Prop) : List Instr → Memory → Memory → Prop where
  | nil {memory : Memory} : Performs resolver limits env scope callee [] memory memory
  | next {instr : Instr} {rest : List Instr} {line : Nat} {arguments : List Argument}
      {memory middle after : Memory} :
      instr.operands.mapM (resolver.operand scope) = .ok arguments →
      Machine.execute limits env ⟨instr.op, line⟩ arguments memory = .ok (.next, middle) →
      Performs resolver limits env scope callee rest middle after →
      Performs resolver limits env scope callee (instr :: rest) memory after
  | call {instr : Instr} {rest : List Instr} {line : Nat} {arguments : List Argument}
      {memory presented returned after : Memory} :
      instr.operands.mapM (resolver.operand scope) = .ok arguments →
      Machine.execute limits env ⟨instr.op, line⟩ arguments memory = .ok (.call, presented) →
      callee presented returned →
      Performs resolver limits env scope callee rest returned after →
      Performs resolver limits env scope callee (instr :: rest) memory after

/-- A callee takes its arguments off the stack, leaves its result there, if it has one, and touches
nothing below. -/
def Honours (callee : Memory → Memory → Prop) (argCount : Nat) (returnsValue : Bool) : Prop :=
  ∀ presented returned, callee presented returned → ∀ args below, args.length = argCount →
    presented.stack = args ++ below →
    ∃ results, results.length = (if returnsValue then 1 else 0) ∧ returned.stack = results ++ below

variable {resolver : Resolver} {limits : Limits} {env : Environment} {scope : String}
  {callee : Memory → Memory → Prop} {instrs rest : List Instr} {memory after : Memory}
  {slots : List Slot} {argCount : Nat} {returnsValue : Bool} {version : Version}

/-- Code that is inserted around a call is executed as a whole. -/
theorem performs_append_iff
    (inserted : ∀ instr ∈ instrs, Spill.Inserted slots argCount returnsValue version instr) :
    resolver.Performs limits env scope callee (instrs ++ rest) memory after ↔
      ∃ middle, resolver.Executes limits env scope instrs memory middle ∧
        resolver.Performs limits env scope callee rest middle after := by
  induction instrs generalizing memory with
  | nil =>
    constructor
    · exact fun performs => ⟨memory, .nil, performs⟩
    · rintro ⟨_, ⟨⟩, performs⟩
      exact performs
  | cons instr others ih =>
    rw [List.forall_mem_cons] at inserted
    constructor
    · intro performs
      cases performs with
      | next resolved executed behind =>
        obtain ⟨middle, executes, performs⟩ := (ih inserted.2).mp behind
        exact ⟨middle, .cons resolved executed executes, performs⟩
      | call _ executed =>
        cases inserted.1.eq_next (Machine.flows_of_execute executed).1
    · rintro ⟨middle, executes, performs⟩
      cases executes with
      | cons resolved executed behind =>
        exact .next resolved executed ((ih inserted.2).mpr ⟨middle, behind, performs⟩)

/-- A call is made by the callee. -/
theorem performs_call_iff {call : Instr} {arguments : List Argument}
    (isCall : call.op = .callsub)
    (resolved : call.operands.mapM (resolver.operand scope) = .ok arguments) :
    resolver.Performs limits env scope callee (call :: rest) memory after ↔
      ∃ returned, callee memory returned ∧
        resolver.Performs limits env scope callee rest returned after := by
  have calls (line : Nat) : Machine.execute limits env ⟨call.op, line⟩ arguments memory =
      .ok (.call, memory) := by
    rw [isCall]
    rfl
  constructor
  · intro performs
    cases performs with
    | next resolved' executed =>
      cases resolved.symm.trans resolved'
      cases (calls _).symm.trans executed
    | call resolved' executed isCalled behind =>
      cases resolved.symm.trans resolved'
      cases (calls _).symm.trans executed
      exact ⟨_, isCalled, behind⟩
  · rintro ⟨returned, isCalled, behind⟩
    exact .call resolved (calls 0) isCalled behind

theorem performs_iff_executes
    (inserted : ∀ instr ∈ instrs, Spill.Inserted slots argCount returnsValue version instr) :
    resolver.Performs limits env scope callee instrs memory after ↔
      resolver.Executes limits env scope instrs memory after := by
  have split : resolver.Performs limits env scope callee (instrs ++ []) memory after ↔ _ :=
    performs_append_iff inserted
  rw [List.append_nil] at split
  rw [split]
  constructor
  · rintro ⟨_, executes, ⟨⟩⟩
    exact executes
  · exact fun executes => ⟨after, executes, .nil⟩

/-- What the callee finds: the arguments on top, and the saved values below them. -/
def presented (resolver : Resolver) (slots : List Slot) (memory : Memory) (args base : List Value) :
    Memory :=
  { memory with stack := args ++ ((slots.map (resolver.valueIn memory)).reverse ++ base) }

/-- Cells that are known one by one. -/
theorem eq_restored_iff {saved : Slot → Value} {scratch result : Vector Value cellCount}
    (distinct : ∀ left ∈ slots, ∀ right ∈ slots,
      resolver.cellOf left = resolver.cellOf right → left = right) :
    result = resolver.restored saved slots scratch ↔
      (∀ slot ∈ slots, result.get (resolver.cellOf slot) = saved slot) ∧
        ∀ cell, (∀ slot ∈ slots, resolver.cellOf slot ≠ cell) →
          result.get cell = scratch.get cell := by
  constructor
  · rintro rfl
    exact ⟨fun slot member => get_restored distinct member, fun cell => get_restored_of_ne⟩
  · rintro ⟨own, others⟩
    apply Vector.ext
    intro index inside
    let cell : Cell := ⟨index, inside⟩
    change result.get cell = (resolver.restored saved slots scratch).get cell
    by_cases isOwn : ∃ slot ∈ slots, resolver.cellOf slot = cell
    · obtain ⟨slot, member, isCell⟩ := isOwn
      rw [← isCell, own slot member, get_restored distinct member]
    · have apart : ∀ slot ∈ slots, resolver.cellOf slot ≠ cell :=
        fun slot member isCell => isOwn ⟨slot, member, isCell⟩
      rw [others cell apart, get_restored_of_ne apart]

/-- A call that slots are saved around does what the callee does to the memory, save that the slots
are put back. -/
theorem performs_sequence_iff {call : Instr} {arguments : List Argument} {low lower : List Instr}
    {args base : List Value} (isCall : call.op = .callsub)
    (resolved : call.operands.mapM (resolver.operand scope) = .ok arguments)
    (surrounds : Spill.Surrounds slots argCount returnsValue version low lower)
    (small : argCount < UInt64.size) (few : slots.length < UInt64.size)
    (placed : ∀ slot ∈ slots, resolver.HasCell slot)
    (honours : Honours callee argCount returnsValue) (count : args.length = argCount)
    (stack : memory.stack = args ++ base)
    (room : base.length + slots.length + max argCount (if returnsValue then 1 else 0) ≤
      limits.maxStack) :
    resolver.Performs limits env scope callee
        (Spill.saves slots low ++ call :: Spill.restores slots lower) memory after ↔
      ∃ returned results, callee (resolver.presented slots memory args base) returned ∧
        results.length = (if returnsValue then 1 else 0) ∧
        returned.stack = results ++ ((slots.map (resolver.valueIn memory)).reverse ++ base) ∧
        after = { returned with
          stack := results ++ base
          scratch := resolver.restored (resolver.valueIn memory) slots returned.scratch } := by
  have before (middle : Memory) :
      resolver.Executes limits env scope (Spill.saves slots low) memory middle ↔
        middle = resolver.presented slots memory args base := by
    have length : memory.stack.length = argCount + base.length := by
      rw [stack, List.length_append, count]
    rw [executes_saves small surrounds.low count stack]
    exact ⟨fun executes => executes.2.2, fun isMiddle => ⟨placed, fun _ => by omega, isMiddle⟩⟩
  have behind {returned : Memory} {results : List Value}
      (isCount : results.length = if returnsValue then 1 else 0)
      (isStack : returned.stack = results ++ ((slots.map (resolver.valueIn memory)).reverse ++ base)) :
      resolver.Executes limits env scope (Spill.restores slots lower) returned after ↔
        after = { returned with
          stack := results ++ base
          scratch := resolver.restored (resolver.valueIn memory) slots returned.scratch } := by
    have fits : returned.stack.length ≤ limits.maxStack := by
      rw [isStack, List.length_append, List.length_append, length_saved, isCount]
      omega
    rw [executes_restores few surrounds isCount isStack, and_iff_right fun _ => fits,
      and_iff_right placed]
  rw [performs_append_iff fun _ => surrounds.inserted_of_mem_saves]
  simp only [before, exists_eq_left, performs_call_iff isCall resolved,
    performs_iff_executes fun _ => surrounds.inserted_of_mem_restores]
  refine exists_congr fun returned => ⟨?_, ?_⟩
  · rintro ⟨called, executes⟩
    obtain ⟨results, isCount, isStack⟩ := honours _ _ called args _ count rfl
    exact ⟨results, called, isCount, isStack, (behind isCount isStack).mp executes⟩
  · rintro ⟨results, called, isCount, isStack, isAfter⟩
    exact ⟨called, (behind isCount isStack).mpr isAfter⟩

end Link.Resolver

open Link (Resolver)

/-- Saved slots survive every call. Slots can be saved around a call unless the version is old and
a value would have to go below several others. Where they are saved, the callee finds its arguments
on top and the saved values below them; when it returns, its result lies where the arguments lay,
the saved slots hold what they held before, and all else is as the callee left it. -/
theorem saved_slots_survive_call (call : Instr) (slots : List Slot) (argCount : Nat)
    (returnsValue : Bool) (version : Version) (isCall : call.op = .callsub) :
    ((∃ cause, Spill.sequence call slots argCount returnsValue version = .error cause) ↔
      version < 5 ∧ ((slots ≠ [] ∧ 1 < argCount) ∨ (returnsValue = true ∧ 1 < slots.length))) ∧
    ∀ instrs, Spill.sequence call slots argCount returnsValue version = .ok instrs →
      ∀ (resolver : Resolver) (scope : String) (arguments : List Argument) (limits : Limits)
        (env : Environment) (callee : Memory → Memory → Prop) (memory : Memory)
        (args base : List Value),
        argCount < UInt64.size →
        (∀ slot ∈ slots, resolver.HasCell slot) → (slots.map resolver.cellOf).Nodup →
        call.operands.mapM (resolver.operand scope) = .ok arguments →
        Resolver.Honours callee argCount returnsValue →
        args.length = argCount → memory.stack = args ++ base →
        base.length + slots.length + max argCount (if returnsValue then 1 else 0) ≤ limits.maxStack →
        ∀ after, resolver.Performs limits env scope callee instrs memory after ↔
          ∃ returned results,
            callee { memory with
              stack := args ++ ((slots.map (resolver.valueIn memory)).reverse ++ base) } returned ∧
            results.length = (if returnsValue then 1 else 0) ∧
            returned.stack = results ++ ((slots.map (resolver.valueIn memory)).reverse ++ base) ∧
            after.stack = results ++ base ∧
            (∀ slot ∈ slots, resolver.valueIn after slot = resolver.valueIn memory slot) ∧
            (∀ cell, (∀ slot ∈ slots, resolver.cellOf slot ≠ cell) →
              after.scratch.get cell = returned.scratch.get cell) ∧
            after.effects = returned.effects ∧ after.appState = returned.appState := by
  refine ⟨Spill.sequence_eq_error_iff, ?_⟩
  intro instrs made resolver scope arguments limits env callee memory args base small placed nodup
    resolved honours count stack room after
  obtain ⟨low, lower, surrounds, rfl⟩ := Spill.sequence_eq_ok.mp made
  have distinct : ∀ left ∈ slots, ∀ right ∈ slots,
      resolver.cellOf left = resolver.cellOf right → left = right :=
    fun left isLeft right isRight => List.inj_on_of_nodup_map nodup isLeft isRight
  have few : slots.length < UInt64.size := by
    have cells := nodup.length_le_card
    rw [List.length_map, Fintype.card_fin] at cells
    exact Nat.lt_of_le_of_lt cells (by decide)
  rw [Resolver.performs_sequence_iff isCall resolved surrounds small few placed honours count stack
    room]
  refine exists_congr fun returned => exists_congr fun results => and_congr_right fun _ =>
    and_congr_right fun _ => and_congr_right fun _ => ?_
  constructor
  · rintro rfl
    exact ⟨rfl, fun slot => Resolver.get_restored distinct, fun cell => Resolver.get_restored_of_ne,
      rfl, rfl⟩
  · rintro ⟨isStack, own, others, isEffects, isState⟩
    have isScratch : after.scratch =
        resolver.restored (resolver.valueIn memory) slots returned.scratch :=
      (Resolver.eq_restored_iff distinct).mpr ⟨own, others⟩
    rw [← isStack, ← isScratch, ← isEffects, ← isState]

theorem one_lt_cellCount : 1 < cellCount := by decide

/-- Two slots in the first two cells, and a subroutine. -/
def pairResolver : Resolver :=
  ⟨⟨[(⟨0, none⟩, ⟨0, Resolver.cellCount_pos⟩), (⟨1, none⟩, ⟨1, one_lt_cellCount⟩)]⟩, [(0, "f_0")]⟩

/-- A callee that takes two arguments, returns a nine and overwrites every cell. -/
def careless (presented returned : Memory) : Prop :=
  returned = { presented with
    stack := .uint 9 :: presented.stack.drop 2
    scratch := Vector.replicate cellCount (.uint 9) }

/-- A memory whose cells all hold a five. -/
def fives : Memory where
  stack := [.uint 1, .uint 2, .uint 3]
  scratch := Vector.replicate cellCount (.uint 5)
  effects := #[]
  appState := []

theorem saved_slots_survive_call_careless :
    (∃ cause, Spill.sequence (.callsub 0) [⟨0, none⟩, ⟨1, none⟩] 2 true 4 = .error cause) ∧
      ∃ instrs, Spill.sequence (.callsub 0) [⟨0, none⟩, ⟨1, none⟩] 2 true 8 = .ok instrs ∧
        ∃ after, pairResolver.Performs {} {} "main_" careless instrs fives after ∧
          after.stack = [.uint 9, .uint 3] ∧ after.scratch.get ⟨0, by decide⟩ = .uint 5 ∧
            after.scratch.get ⟨1, by decide⟩ = .uint 5 ∧ after.scratch.get ⟨2, by decide⟩ = .uint 9 := by
  have honours : Resolver.Honours careless 2 true := by
    rintro presented _ rfl args below count stack
    exact ⟨[.uint 9], rfl, by rw [stack, List.drop_left' count]; rfl⟩
  have placed : ∀ slot ∈ [(⟨0, none⟩ : Slot), ⟨1, none⟩], pairResolver.HasCell slot :=
    List.forall_mem_cons.mpr ⟨rfl, List.forall_mem_cons.mpr ⟨rfl, nofun⟩⟩
  refine ⟨(saved_slots_survive_call _ _ _ _ _ rfl).1.mpr (by decide), _, rfl, ?_⟩
  have survives := (saved_slots_survive_call (.callsub 0) [⟨0, none⟩, ⟨1, none⟩] 2 true 8 rfl).2 _ rfl
    pairResolver "main_" [.label "f_0"] {} {} careless fives [.uint 1, .uint 2] [.uint 3] (by decide)
    placed (by decide) rfl honours rfl rfl (by decide)
  let after : Memory := { fives with
    stack := [.uint 9, .uint 3]
    scratch := pairResolver.restored (pairResolver.valueIn fives) [⟨0, none⟩, ⟨1, none⟩]
      (Vector.replicate cellCount (.uint 9)) }
  have cells := (Resolver.eq_restored_iff (by decide)).mp (Eq.refl after.scratch)
  have all (value : Value) (cell : Cell) : (Vector.replicate cellCount value).get cell = value :=
    Vector.getElem_replicate cell.isLt
  exact ⟨after, (survives after).mpr ⟨_, [.uint 9], rfl, rfl, rfl, rfl, cells.1, cells.2, rfl, rfl⟩, rfl,
    (cells.1 ⟨0, none⟩ (by simp)).trans (all _ _), (cells.1 ⟨1, none⟩ (by simp)).trans (all _ _),
    (cells.2 _ (by decide)).trans (all _ _)⟩

end ContractBackend
