import ContractBackend.Proofs.Optimize.Repetition
import ContractBackend.Proofs.Run.Convention

/-!
# The static check of the stack

The height that the check predicts is the height that the machine reaches, and the machine comes
to lack a value only where the check says so.
-/

namespace ContractBackend

open Machine (State Limits Environment Memory Code)

/-- Whether control can only go on at the next line behind an opcode. -/
def Opcode.isStraight (op : Opcode) : Bool := !op.isBranch && !op.isExit && op ≠ .callsub

theorem Opcode.isJump_of_isStraight {op : Opcode} (straight : op.isStraight = true) :
    op.isJump = false := by
  cases op <;> first | rfl | cases straight

/-- Whether the first operand of an instruction that takes a depth, if there is one, is a number. -/
def Instr.hasPlainDepth (instr : Instr) : Bool :=
  !instr.op.readsDeepStack || match instr.operands with
    | [] | .uint _ :: _ => true
    | _ => false

namespace StackHeight

variable {limits : Limits} {env : Environment} {resolver : Link.Resolver} {scope : String}
  {instr : Instr} {instrs : List Instr} {memory after : Memory} {flow : Machine.Flow} {line : Nat}

/-- An instruction whose effect is not known lacks its depth and cannot succeed. -/
theorem exists_effect (straight : instr.op.isStraight = true) (plain : instr.hasPlainDepth = true)
    (isOk : Machine.execute limits env ⟨instr.op, line⟩ (resolver.arguments scope instr) memory =
      .ok (flow, after)) : ∃ effect, instr.effect? = some effect := by
  obtain ⟨op, operands⟩ := instr
  cases op with
  | callsub | retsub => cases straight
  | dig | cover | uncover =>
    cases operands with
    | nil => cases isOk
    | cons operand _ =>
      cases operand with
      | uint => exact ⟨_, rfl⟩
      | _ => cases plain
  | _ => exact ⟨_, rfl⟩

/-- The check follows an instruction that succeeds. -/
theorem checkFrom_of_execute (straight : instr.op.isStraight = true)
    (plain : instr.hasPlainDepth = true) (resolves : resolver.Resolves scope instr)
    (isOk : Machine.execute limits env ⟨instr.op, line⟩ (resolver.arguments scope instr) memory =
      .ok (flow, after)) (position : Nat) :
    checkFrom position (instr :: instrs) memory.stack.length =
      checkFrom (position + 1) instrs after.stack.length := by
  obtain ⟨effect, known⟩ := exists_effect straight plain isOk
  obtain ⟨pops, pushes⟩ := Instr.touched_of_effect? resolves known
  have performs := (Machine.flows_of_execute isOk).2
  have enough := performs.enough
  obtain ⟨made, count, stack⟩ := performs.stack
  have height : after.stack.length = memory.stack.length - effect.pops + effect.pushes := by
    rw [stack, List.length_append, List.length_drop, count, pops, pushes, Nat.add_comm]
  rw [pops] at enough
  simp only [checkFrom, known, enough, if_true, height]

/-- The check stops at an instruction that lacks a value. -/
theorem checkFrom_of_underflow (resolves : resolver.Resolves scope instr) {site : Machine.Site}
    (fails : Machine.execute limits env ⟨instr.op, line⟩ (resolver.arguments scope instr) memory =
      .error (.stackUnderflow site)) (position : Nat) :
    ∃ cause, checkFrom position (instr :: instrs) memory.stack.length = .error cause := by
  have short : memory.stack.length < Machine.touched instr.op (resolver.arguments scope instr) :=
    Machine.accounted_of_execute fails
  rw [checkFrom]
  split
  next => exact ⟨_, rfl⟩
  next effect known =>
    rw [(Instr.touched_of_effect? resolves known).1] at short
    exact ⟨_, if_neg (Nat.not_le.mpr short)⟩

/-- Straight code that goes through has passed the check, and code that comes to lack a value has
not. -/
theorem checkFrom_of_run (straight : ∀ instr ∈ instrs, instr.op.isStraight = true)
    (plain : ∀ instr ∈ instrs, instr.hasPlainDepth = true)
    (resolves : ∀ instr ∈ instrs, resolver.Resolves scope instr) (position line steps : Nat)
    (memory : Memory) :
    match Machine.Straight.run limits env (resolver.arguments scope) instrs line memory steps with
    | .ok passage => passage.verdict = none ∧
        checkFrom position instrs memory.stack.length = .ok passage.memory.stack.length
    | .error fault => ∀ site, fault = .stackUnderflow site →
        ∃ cause, checkFrom position instrs memory.stack.length = .error cause := by
  induction instrs generalizing position line steps memory with
  | nil => exact ⟨rfl, rfl⟩
  | cons instr rest ih =>
    rw [List.forall_mem_cons] at straight plain resolves
    rw [Machine.Straight.run, Machine.Straight.execute]
    by_cases spent : limits.maxSteps ≤ steps
    · rw [if_pos spent]
      rintro site ⟨⟩
    rw [if_neg spent]
    cases executed : Machine.execute limits env ⟨instr.op, line + 1⟩
        (resolver.arguments scope instr) memory with
    | error fault =>
      rintro site rfl
      exact checkFrom_of_underflow resolves.1 executed position
    | ok result =>
      obtain ⟨flow, after⟩ := result
      have goes : flow = .next := by
        have flows := (Machine.flows_of_execute executed).1
        have only := straight.1
        simp only [Opcode.isStraight, Bool.and_eq_true, Bool.not_eq_true',
          decide_eq_true_eq] at only
        exact flows.eq_next only.1.2 only.1.1 only.2
      rw [checkFrom_of_execute straight.1 plain.1 resolves.1 executed, goes]
      exact ih straight.2 plain.2 resolves.2 (position + 1) (line + 1) (steps + 1) after

/-- The check of the stack agrees with the machine. Code without branches, exits and calls, in
which depths are plain numbers, is linked and stands anywhere in a listing. If the check predicts a
height, the machine never lacks a value in the code, whatever its state, and has that height if it
gets through. If the check fails, the machine does not get through. -/
theorem check_agrees_with_machine {instrs : List Instr} {resolver : Link.Resolver} {scope : String}
    {lines : List Line} (straight : ∀ instr ∈ instrs, instr.op.isStraight = true)
    (plain : ∀ instr ∈ instrs, instr.hasPlainDepth = true)
    (linked : resolver.code scope (instrs.map .instr) = .ok lines) (limits : Limits)
    (env : Environment) (front behind : List Line) (state : State)
    (stands : state.line = front.length) :
    let result := state.advance limits env (Code.ofLines (front ++ lines ++ behind)) lines.length
    (∀ height, check instrs state.memory.stack.length = .ok height →
      (∀ site, result ≠ .error (.stackUnderflow site)) ∧
        ∀ next, result = .ok (.running next) → next.memory.stack.length = height) ∧
      ∀ cause, check instrs state.memory.stack.length = .error cause →
        ∃ fault, result = .error fault := by
  obtain ⟨resolves, rfl⟩ := Link.Resolver.code_eq_ok_iff.mp linked
  obtain ⟨memory, _, frames, steps⟩ := state
  cases stands
  have agrees := @checkFrom_of_run limits env resolver scope instrs straight plain resolves 0
    front.length steps memory
  simp only [List.length_map, check]
  rw [Machine.Straight.advance_eq
    (fun instr member => Opcode.isJump_of_isStraight (straight instr member))
    fun _ _ => Machine.Code.getElem?_ofLines front behind]
  split at agrees
  next passage isOk =>
    obtain ⟨through, checked⟩ := agrees
    rw [isOk, checked]
    refine ⟨?_, fun _ => by rintro ⟨⟩⟩
    rintro _ ⟨⟩
    refine ⟨fun _ => by rintro ⟨⟩, fun next isNext => ?_⟩
    rw [Except.map, Machine.Passage.progress, through] at isNext
    cases isNext
    rfl
  next fault fails =>
    rw [fails]
    refine ⟨fun height checked => ⟨?_, fun _ => by rintro ⟨⟩⟩, fun _ _ => ⟨fault, rfl⟩⟩
    rintro site ⟨⟩
    obtain ⟨cause, refused⟩ := agrees site rfl
    rw [checked] at refused
    cases refused

/-- Code that copies the value it finds, adds it to a number and brings it back to the top. -/
def reaching : List Instr :=
  [.int 7, .immediate .dig 1, ⟨.add, []⟩, .immediate .uncover 1]

theorem check_agrees_with_machine_reaching :
    let resolver : Link.Resolver := ⟨{}, []⟩
    let lines : List Line := [.instr .int [.uint 7], .instr .dig [.uint 1], .instr .add [],
      .instr .uncover [.uint 1]]
    (∀ instr ∈ reaching, instr.op.isStraight = true) ∧
      (∀ instr ∈ reaching, instr.hasPlainDepth = true) ∧
      resolver.code "main_" (reaching.map .instr) = .ok lines ∧ check reaching 1 = .ok 2 ∧
      (check reaching 0).toOption = none ∧
      ∀ limits env next, State.advance limits env (Code.ofLines lines) lines.length
          ⟨⟨[.uint 5], .replicate _ (.uint 4), #[], []⟩, 0, [], 0⟩ = .ok (.running next) →
        next.memory.stack.length = 2 := by
  intro resolver lines
  have straight : ∀ instr ∈ reaching, instr.op.isStraight = true := by decide
  have plain : ∀ instr ∈ reaching, instr.hasPlainDepth = true := by decide
  have linked : resolver.code "main_" (reaching.map .instr) = .ok lines := rfl
  refine ⟨straight, plain, linked, rfl, rfl, fun limits env => ?_⟩
  exact ((check_agrees_with_machine straight plain linked limits env [] [] _ rfl).1 2 rfl).2

end StackHeight

end ContractBackend
