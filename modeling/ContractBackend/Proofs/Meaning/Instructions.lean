import ContractBackend.Proofs.Program
import ContractBackend.Proofs.Control
import ContractBackend.Proofs.Machine.Primitives
import ContractBackend.Proofs.Meaning.Evaluation

/-!
# What instructions mean

The instruction at the end of an expression does to the stack what the evaluation does
with the values of the operands.
-/

namespace ContractBackend

open Machine (Value Fault Memory Flow)

/-- An operand with every slot replaced by the number of its cell. -/
def Operand.argument (place : Slot → Cell) : Operand → Argument
  | .uint value => .uint value
  | .bytes value => .bytes value
  | .text value => .text value
  | .name value => .name value
  | .slot named | .slotIndex named => .uint (UInt64.ofNat (place named).val)
  | .label target => .label target.text
  | .subroutine _ => .label ""

namespace Setting

/-- The call of a subroutine whose arguments are on the stack, the last one on top. -/
def enter (setting : Setting) (program : Program) (id : SubroutineId) (memory : Memory) :
    Except Fault (Flow × Memory) :=
  match program.subroutines[id]? with
  | none => .error (.unknownLabel "")
  | some subroutine =>
      let count := subroutine.handle.argCount
      let store : Store := ⟨memory.scratch, memory.effects, memory.appState⟩
      match setting.call id (memory.stack.take count).reverse store with
      | .error fault => .error fault
      | .ok (.returned value, after) =>
          let results := if subroutine.handle.returns.isValue then [value] else []
          .ok (.next, after.memory (results ++ memory.stack.drop count))
      | .ok (.halted approved, after) =>
          .ok (.halt approved, after.memory (memory.stack.drop count))

/-- What instructions do, with calls answered by the setting and no bound on the stack. -/
def action (setting : Setting) (program : Program) : Action := fun instr memory =>
  match CallGraph.callee? instr with
  | some id => setting.enter program id memory
  | none =>
      Machine.execute { maxStack := memory.stack.length + 4 } setting.env ⟨instr.op, 0⟩
        (instr.operands.map (Operand.argument setting.place)) memory

theorem action_of_ne {setting : Setting} {program : Program} {instr : Instr}
    (noCall : instr.op ≠ .callsub) (memory : Memory) :
    setting.action program instr memory =
      Machine.execute { maxStack := memory.stack.length + 4 } setting.env ⟨instr.op, 0⟩
        (instr.operands.map (Operand.argument setting.place)) memory := by
  simp [action, CallGraph.callee?, noCall]

end Setting

/-- An instruction answers what an evaluation comes to, with some values left on the stack
below its operands. -/
def Answers (outcome : Option (Except Stop (Option Value) × Store)) (store : Store)
    (stack : List Value) (answer : Except Fault (Flow × Memory)) : Prop :=
  match outcome with
  | some (.ok value, after) => answer = .ok (.next, after.memory (value.toList ++ stack))
  | some (.error (.returned value), after) =>
      answer = .ok (.back, after.memory (value.toList ++ stack))
  | some (.error (.halted approved), after) =>
      answer = .ok (.halt approved, after.memory stack)
  | some (.error (.failed fault), after) => answer = .error fault ∧ after = store
  | _ => False

section Operators

open Machine.Exec

variable {setting : Setting} {program : Program} {store : Store} {stack : List Value}
  {limits : Machine.Limits}

theorem answers_ofExcept {result : Except Fault Value}
    {answer : Except Fault (Flow × Memory)}
    (agree : answer = result.map fun value => (.next, store.memory (value :: stack))) :
    Answers ((some <$> Eval.ofExcept result : Eval (Option Value)) store) store stack answer := by
  subst agree
  cases result with
  | ok value => rfl
  | error fault => exact ⟨rfl, rfl⟩

theorem answers_onStore {change : Store → Except Fault (Option Value × Store)}
    {answer : Except Fault (Flow × Memory)}
    (agree : answer = (change store).map fun result =>
      (.next, result.2.memory (result.1.toList ++ stack))) :
    Answers (Eval.onStore change store) store stack answer := by
  subst agree
  cases changed : change store with
  | ok result => simp [Answers, Eval.onStore, changed, Except.map]
  | error fault => simp [Answers, Eval.onStore, changed, Except.map]

/-- What is put on a stack with room for it is left there. -/
theorem push_memory (room : stack.length < limits.maxStack) (value : Value) :
    (do push limits value; pure Flow.next : Machine.Exec Flow) (store.memory stack) =
      .ok (.next, store.memory (value :: stack)) := by
  simp only [bind_apply, push_apply, Store.memory, if_pos room]
  rfl

theorem uintOperator_memory {op : Opcode} {operator : UInt64 → UInt64 → Except Fault UInt64}
    {apply : UInt64 → UInt64 → Except Fault Value}
    (agree : ∀ left right, apply left right = (operator left right).map .uint)
    (room : stack.length < limits.maxStack) (left right : Value) :
    uintOperator limits ⟨op, 0⟩ operator (store.memory (right :: left :: stack)) =
      (onUints op apply left right).map fun value => (.next, store.memory (value :: stack)) := by
  cases right with
  | bytes right => cases left <;> rfl
  | uint right =>
    cases left with
    | bytes left => rfl
    | uint left =>
      simp only [uintOperator, bind_apply, popUint_apply, Store.memory, Fallible.ok_bind,
        lift_apply, onUints, agree]
      cases operator left right with
      | error fault => rfl
      | ok result => exact push_memory room _

theorem compareValues_memory {op : Opcode} (whenEqual : Bool)
    (room : stack.length < limits.maxStack) (left right : Value) :
    compareValues limits ⟨op, 0⟩ whenEqual (store.memory (right :: left :: stack)) =
      (compared op left right whenEqual).map fun value => (.next, store.memory (value :: stack)) := by
  simp only [compareValues, bind_apply, pop_apply, Store.memory, Fallible.ok_bind, compared]
  split
  next => exact push_memory room _
  next => rfl

/-- An operator with two operands takes them off the stack and leaves its value. -/
theorem BinaryOp.answers (op : BinaryOp) (left right : Value) :
    Answers ((some <$> Eval.ofExcept (op.apply left right) : Eval (Option Value)) store) store stack
      (setting.action program ⟨op.opcode, []⟩ (store.memory (right :: left :: stack))) := by
  apply answers_ofExcept
  have room : stack.length < stack.length + 1 + 1 + 4 := by omega
  cases op with
  | add | mul =>
    refine uintOperator_memory (fun left right => ?_) room left right
    simp only [bounded, Machine.checked]
    split <;> rfl
  | sub | div | mod =>
    refine uintOperator_memory (fun left right => ?_) room left right
    split <;> rfl
  | bitOr | bitAnd | bitXor | lt | gt | le | ge | and | or =>
    exact uintOperator_memory (fun _ _ => rfl) room left right
  | eq => exact compareValues_memory true room left right
  | neq => exact compareValues_memory false room left right
  | concat =>
    cases right with
    | uint right => cases left <;> rfl
    | bytes right =>
      cases left with
      | uint left => rfl
      | bytes left =>
        simp only [BinaryOp.apply, BinaryOp.opcode, ne_eq, reduceCtorEq, not_false_eq_true,
          Setting.action_of_ne, Machine.execute, bind_apply, popBytes_apply, Store.memory,
          Fallible.ok_bind]
        split
        next => exact push_memory room _
        next => rfl

/-- An operator with one operand takes it off the stack and leaves its value, if it has one. -/
theorem UnaryOp.answers (op : UnaryOp) (operand : Value) :
    Answers (Eval.onStore (op.apply operand) store) store stack
      (setting.action program ⟨op.opcode, []⟩ (store.memory (operand :: stack))) := by
  apply answers_onStore
  have room : stack.length < stack.length + 1 + 4 := by omega
  rw [Setting.action_of_ne (by cases op <;> decide)]
  cases op with
  | not | bitNot | itob =>
    cases operand with
    | bytes => rfl
    | uint number => exact push_memory room _
  | len =>
    cases operand with
    | uint => rfl
    | bytes value => exact push_memory room _
  | btoi =>
    cases operand with
    | uint => rfl
    | bytes value =>
      simp only [UnaryOp.opcode, Machine.execute, bind_apply, popBytes_apply, Store.memory,
        Fallible.ok_bind, UnaryOp.apply, onBytes]
      split
      next => exact push_memory room _
      next => rfl
  | pop => rfl
  | log => cases operand <;> rfl
  | assert =>
    cases operand with
    | bytes => rfl
    | uint number =>
      simp only [UnaryOp.opcode, Machine.execute, bind_apply, popUint_apply, Store.memory,
        Fallible.ok_bind, UnaryOp.apply, onUint]
      split <;> rfl

theorem answers_write (slot : Slot) (value : Value) :
    Answers (setting.write slot value store) store stack
      (setting.action program (.store slot) (store.memory (value :: stack))) := by
  apply answers_onStore
  rw [Setting.action_of_ne (by simp [Instr.store])]
  simp only [Instr.store, Machine.execute, List.map_cons, Operand.argument, uintArgument,
    bind_apply, pure_apply, Fallible.ok_bind, cell_apply_ofNat, pop_apply, Store.memory,
    writeCell_apply]
  rfl

theorem answers_read (slot : Slot) :
    Answers (setting.read slot store) store stack
      (setting.action program (.load slot) (store.memory stack)) := by
  apply answers_onStore
  have room : stack.length < stack.length + 4 := by omega
  rw [Setting.action_of_ne (by simp [Instr.load])]
  simp only [Instr.load, Machine.execute, List.map_cons, Operand.argument, uintArgument,
    bind_apply, pure_apply, Fallible.ok_bind, cell_apply_ofNat]
  exact push_memory room _

theorem answers_field (source : FieldSource) (name : String) :
    Answers ((some <$> Eval.ofExcept (setting.field source name) : Eval (Option Value)) store) store
      stack (setting.action program ⟨source.opcode, [.name name]⟩ (store.memory stack)) := by
  apply answers_ofExcept
  have room : stack.length < stack.length + 4 := by omega
  rw [Setting.action_of_ne (by cases source <;> simp [FieldSource.opcode])]
  cases source <;>
    simp only [FieldSource.opcode, Machine.execute, List.map_cons, Operand.argument, nameArgument,
      bind_apply, pure_apply, Fallible.ok_bind, Machine.Exec.field, Setting.field]
  case txn =>
    cases setting.env.txn.lookup name with
    | none => rfl
    | some value => exact push_memory room _
  case global =>
    cases setting.env.global.lookup name with
    | none => rfl
    | some value => exact push_memory room _

theorem answers_argument (index : UInt8) :
    Answers ((some <$> Eval.ofExcept (setting.argument index) : Eval (Option Value)) store) store
      stack (setting.action program (.immediate .arg index.toUInt64) (store.memory stack)) := by
  apply answers_ofExcept
  have room : stack.length < stack.length + 4 := by omega
  rw [Setting.action_of_ne (by simp [Instr.immediate]), Setting.argument]
  simp only [Instr.immediate, Machine.execute, List.map_cons, Operand.argument, uintArgument,
    bind_apply, pure_apply, Fallible.ok_bind, UInt8.toNat_toUInt64]
  cases setting.env.arguments[index.toNat]? with
  | none => rfl
  | some bytes => exact push_memory room _

theorem answers_readComputed (index : Value) :
    Answers (Eval.readComputed index store) store stack
      (setting.action program ⟨.loads, []⟩ (store.memory (index :: stack))) := by
  apply answers_onStore
  have room : stack.length < stack.length + 1 + 4 := by omega
  rw [Setting.action_of_ne (by decide)]
  cases index with
  | bytes => rfl
  | uint index =>
    simp only [Machine.execute, bind_apply, popUint_apply, Store.memory, Fallible.ok_bind, cell,
      computedCell, onUint]
    split
    next => exact push_memory room _
    next => rfl

theorem answers_writeComputed (index value : Value) :
    Answers (Eval.writeComputed index value store) store stack
      (setting.action program ⟨.stores, []⟩ (store.memory (value :: index :: stack))) := by
  apply answers_onStore
  rw [Setting.action_of_ne (by decide)]
  cases index with
  | bytes => rfl
  | uint index =>
    simp only [Machine.execute, bind_apply, pop_apply, popUint_apply, Store.memory,
      Fallible.ok_bind, cell, computedCell, onUint]
    split <;> rfl

theorem answers_getState (key : Value) :
    Answers (Eval.getState key store) store stack
      (setting.action program ⟨.appGlobalGet, []⟩ (store.memory (key :: stack))) := by
  apply answers_onStore
  have room : stack.length < stack.length + 1 + 4 := by omega
  rw [Setting.action_of_ne (by decide)]
  cases key with
  | uint => rfl
  | bytes key => exact push_memory room _

theorem answers_putState (key value : Value) :
    Answers (Eval.putState key value store) store stack
      (setting.action program ⟨.appGlobalPut, []⟩ (store.memory (value :: key :: stack))) := by
  apply answers_onStore
  cases key <;> rfl

theorem answers_leave (main : Bool) (value : Value) :
    Answers (Eval.leave main value store) store stack
      (setting.action program ⟨if main then .ret else .retsub, []⟩
        (store.memory (value :: stack))) := by
  cases main with
  | false => rfl
  | true =>
    cases value with
    | uint number => rfl
    | bytes => exact ⟨rfl, rfl⟩

theorem answers_invoke {subroutine : Subroutine} {target : Handle} {values : List Value}
    (resolved : program.resolve target = .ok subroutine) (count : values.length = target.argCount) :
    Answers (setting.invoke target values store) store stack
      (setting.action program (.callsub target.id) (store.memory (values.reverse ++ stack))) := by
  obtain ⟨registered, rfl⟩ := Program.resolve_eq_ok.mp resolved
  have calls : CallGraph.callee? (.callsub subroutine.handle.id) = some subroutine.handle.id := rfl
  have taken : (values.reverse ++ stack).take subroutine.handle.argCount = values.reverse := by
    rw [← count, ← List.length_reverse, List.take_left]
  have left : (values.reverse ++ stack).drop subroutine.handle.argCount = stack := by
    rw [← count, ← List.length_reverse, List.drop_left]
  simp only [Setting.action, calls, Setting.enter, registered, Store.memory, taken, left,
    List.reverse_reverse, Setting.invoke, Eval.bind_apply, Eval.onStore]
  cases setting.call subroutine.handle.id values store with
  | error fault => exact ⟨rfl, rfl⟩
  | ok result =>
    obtain ⟨reply, after⟩ := result
    cases reply with
    | returned value => cases subroutine.handle.returns.isValue <;> rfl
    | halted approved => rfl

end Operators

namespace Expr

/-- What an expression does with the values of its operands. -/
def finish (setting : Setting) (main : Bool) : Expr → List Value → Eval (Option Value)
  | .binary op _ _, [left, right] => some <$> Eval.ofExcept (op.apply left right)
  | .unary op _, [operand] => Eval.onStore (op.apply operand)
  | .retValue _, [value] => Eval.leave main value
  | .store slot _, [value] => setting.write slot value
  | .loadIndirect _, [index] => Eval.readComputed index
  | .storeIndirect _ _, [index, value] => Eval.writeComputed index value
  | .stateGet _, [key] => Eval.getState key
  | .statePut _ _, [key, value] => Eval.putState key value
  | .call target _, arguments => setting.invoke target arguments
  | _, _ => Eval.fail (.failed 0)

variable {setting : Setting} {main : Bool} {rounds : Nat} {expr : Expr} {instr : Instr}
  {operands : List Expr}

theorem eval_operator (isOperator : expr.operator? main = some (instr, operands)) :
    expr.eval setting main rounds =
      (evalEach setting main rounds operands >>= expr.finish setting main) := by
  cases expr with
  | binary | unary | retValue | store | loadIndirect | storeIndirect | stateGet | statePut =>
    cases isOperator
    simp [eval, evalEach, finish]
  | call =>
    cases isOperator
    rw [eval]
    rfl
  | _ => cases isOperator

/-- The instruction of an expression does with the operands on the stack what the expression
does with their values. -/
theorem finish_answers {home : Home} {values : List Value} {store : Store} {stack : List Value}
    (isOperator : expr.operator? main = some (instr, operands)) (admitted : expr.Admitted home)
    (count : values.length = operands.length) :
    Answers (expr.finish setting main values store) store stack
      (setting.action home.program instr (store.memory (values.reverse ++ stack))) := by
  have one : ∀ {operand : Expr}, operands = [operand] → ∃ value, values = [value] := by
    rintro operand rfl
    exact List.length_eq_one_iff.mp count
  have two : ∀ {left right : Expr}, operands = [left, right] →
      ∃ first second, values = [first, second] := by
    rintro left right rfl
    exact List.length_eq_two.mp count
  cases expr with
  | binary op left right =>
    cases isOperator
    obtain ⟨_, _, rfl⟩ := two rfl
    exact BinaryOp.answers op _ _
  | unary op operand =>
    cases isOperator
    obtain ⟨_, rfl⟩ := one rfl
    exact UnaryOp.answers op _
  | retValue value =>
    cases isOperator
    obtain ⟨_, rfl⟩ := one rfl
    exact answers_leave main _
  | store slot value =>
    cases isOperator
    obtain ⟨_, rfl⟩ := one rfl
    exact answers_write slot _
  | loadIndirect index =>
    cases isOperator
    obtain ⟨_, rfl⟩ := one rfl
    exact answers_readComputed _
  | storeIndirect index value =>
    cases isOperator
    obtain ⟨_, _, rfl⟩ := two rfl
    exact answers_writeComputed _ _
  | stateGet key =>
    cases isOperator
    obtain ⟨_, rfl⟩ := one rfl
    exact answers_getState _
  | statePut key value =>
    cases isOperator
    obtain ⟨_, _, rfl⟩ := two rfl
    exact answers_putState _ _
  | call target arguments =>
    cases isOperator
    obtain ⟨⟨subroutine, resolved⟩, argCount, _⟩ := admitted
    exact answers_invoke resolved (count.trans argCount)
  | _ => cases isOperator

/-- A single instruction without operands leaves the value of its expression on the stack. -/
theorem leaf_answers {program : Program} {store : Store} {stack : List Value}
    (isLeaf : expr.leaf? = some [instr]) (disciplined : expr.disciplined = true) :
    Answers (expr.eval setting main rounds store) store stack
      (setting.action program instr (store.memory stack)) := by
  have room : stack.length < stack.length + 4 := by omega
  cases expr with
  | int | bytes | text | slotIndex =>
    cases isLeaf
    rw [eval, Setting.action_of_ne (by simp [Instr.int])]
    simp only [Instr.int, Machine.execute, List.map_cons, Operand.argument,
      Machine.Exec.uintArgument, Machine.Exec.bytesArgument, Machine.Exec.bind_apply,
      Machine.Exec.pure_apply, Fallible.ok_bind, Machine.Exec.push_apply, Store.memory,
      if_pos room]
    rfl
  | field source name ty =>
    cases isLeaf
    rw [eval]
    exact answers_field source name
  | sigArg index =>
    cases isLeaf
    rw [eval]
    exact answers_argument index
  | load slot ty =>
    cases isLeaf
    rw [eval]
    exact answers_read slot
  | ret =>
    cases isLeaf
    rw [eval]
    rfl
  | abort =>
    cases isLeaf
    rw [eval]
    exact ⟨rfl, rfl⟩
  | inline => cases disciplined
  | seq items => cases items <;> cases isLeaf
  | _ => cases isLeaf

end Expr

end ContractBackend
