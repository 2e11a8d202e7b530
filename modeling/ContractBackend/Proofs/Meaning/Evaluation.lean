import ContractBackend.Proofs.Lowering.Steps
import ContractBackend.CallGraph
import ContractBackend.Machine.Exec

/-!
# The meaning of expressions

Direct evaluation of expressions, without blocks and without a stack. Operands are
evaluated from left to right, a branch evaluates one of its sides, and a loop tests its
condition again before each round. Calls are answered by a given function. A bound on the
rounds of each loop makes the evaluation total; only a loop that needs more rounds has no
result.
-/

namespace ContractBackend

open Machine (Value Effect Environment Fault Memory)

/-- What a routine works on besides the stack. -/
structure Store where
  scratch : Vector Value cellCount
  effects : Array Effect
  appState : List (List UInt8 × Value)

namespace Store

def memory (store : Store) (stack : List Value) : Memory :=
  ⟨stack, store.scratch, store.effects, store.appState⟩

def write (store : Store) (cell : Cell) (value : Value) : Store :=
  { store with scratch := store.scratch.set cell value cell.isLt }

/-- Note something that outlives the run. -/
def record (store : Store) (effect : Effect) : Store :=
  { store with effects := store.effects.push effect }

def put (store : Store) (key : List UInt8) (value : Value) : Store :=
  { store with appState := Keyed.insert key value store.appState }.record (.put key value)

end Store

/-- What a call comes to unless it fails. -/
inductive Reply where
  /-- The call returns. The value is dropped if the subroutine returns nothing. -/
  | returned (value : Value)
  /-- The program ends within the call. -/
  | halted (approved : Bool)

/-- What the meaning of expressions depends on. -/
structure Setting where
  env : Environment
  /-- The cell of each slot. -/
  place : Slot → Cell
  /-- What the call of a subroutine with some arguments does. -/
  call : SubroutineId → List Value → Store → Except Fault (Reply × Store)

/-- Why an evaluation does not go on behind an expression. -/
inductive Stop where
  /-- The innermost loop is left. -/
  | broke
  /-- The innermost loop is repeated. -/
  | continued
  /-- The routine is left. -/
  | returned (value : Option Value)
  /-- The program ends with a verdict. -/
  | halted (approved : Bool)
  | failed (fault : Fault)
  /-- A condition is not an integer. -/
  | undecided

/-- A piece of an evaluation. It has no result if a loop needs more rounds than granted. -/
abbrev Eval := ExceptT Stop (StateT Store Option)

namespace Eval

theorem bind_apply {α β : Type} (first : Eval α) (rest : α → Eval β) (store : Store) :
    (first >>= rest) store = match first store with
      | none => none
      | some (.ok value, after) => rest value after
      | some (.error stop, after) => some (.error stop, after) := by
  have unfolded : (first >>= rest) store =
      (first store).bind fun result => ExceptT.bindCont rest result.1 result.2 := rfl
  rw [unfolded]
  rcases first store with _ | ⟨_ | _, _⟩ <;> rfl

theorem pure_apply {α : Type} (value : α) (store : Store) :
    (pure value : Eval α) store = some (.ok value, store) :=
  rfl

def fail {α : Type} (fault : Fault) : Eval α := throw (.failed fault)

/-- The result of something that may fail. -/
def ofExcept {α : Type} : Except Fault α → Eval α
  | .ok value => pure value
  | .error fault => fail fault

def value (operand : Eval (Option Value)) : Eval Value := do
  match ← operand with
  | some value => pure value
  | none => fail (.stackUnderflow ⟨.pop, 0⟩)

/-- Something that reads or changes the store and may fail. -/
def onStore {α : Type} (change : Store → Except Fault (α × Store)) : Eval α := fun store =>
  match change store with
  | .ok (result, after) => some (.ok result, after)
  | .error fault => some (.error (.failed fault), store)

def test (condition : Eval (Option Value)) : Eval Bool := do
  match ← value condition with
  | .uint number => pure (number ≠ 0)
  | .bytes _ => throw .undecided

/-- One round of a loop, and whether the condition is to be tested again. -/
def round (body : Eval (Option Value)) : Eval Bool := fun store =>
  match body store with
  | none => none
  | some (.ok _, after) => some (.ok true, after)
  | some (.error .continued, after) => some (.ok true, after)
  | some (.error .broke, after) => some (.ok false, after)
  | some (.error stop, after) => some (.error stop, after)

/-- Rounds of a loop, as many as granted. -/
def loop (condition body : Eval (Option Value)) : Nat → Eval (Option Value)
  | 0 => fun _ => none
  | rounds + 1 => do
      if ← test condition then
        if ← round body then loop condition body rounds
        else pure none
      else pure none

end Eval

/-! ## Operators -/

/-- Both operands have to be integers. -/
def onUints (op : Opcode) (operator : UInt64 → UInt64 → Except Fault Value) :
    Value → Value → Except Fault Value
  | .uint left, .uint right => operator left right
  | _, _ => .error (.typeMismatch ⟨op, 0⟩ .uint64 .bytes)

def onUint {α : Type} (op : Opcode) (operator : UInt64 → Except Fault α) :
    Value → Except Fault α
  | .uint value => operator value
  | .bytes _ => .error (.typeMismatch ⟨op, 0⟩ .uint64 .bytes)

def onBytes {α : Type} (op : Opcode) (operator : List UInt8 → Except Fault α) :
    Value → Except Fault α
  | .bytes value => operator value
  | .uint _ => .error (.typeMismatch ⟨op, 0⟩ .bytes .uint64)

def truth (condition : Bool) : Except Fault Value := .ok (.uint (Machine.ofBool condition))

/-- A number that has to fit into 64 bits. -/
def bounded (op : Opcode) (number : Nat) : Except Fault Value :=
  if number < UInt64.size then .ok (.uint (UInt64.ofNat number)) else .error (.overflow ⟨op, 0⟩)

/-- Whether two values of one type are equal. -/
def compared (op : Opcode) (left right : Value) (whenEqual : Bool) : Except Fault Value :=
  if left.ty = right.ty then truth (decide (left = right) == whenEqual)
  else .error (.typeMismatch ⟨op, 0⟩ left.ty right.ty)

namespace BinaryOp

/-- The value of an operator with two operands. Both have been evaluated, for `and` and `or`
as well. -/
def apply (op : BinaryOp) (left right : Value) : Except Fault Value :=
  match op with
  | .add => onUints .add (fun left right => bounded .add (left.toNat + right.toNat)) left right
  | .sub => onUints .sub (fun left right =>
      if right ≤ left then .ok (.uint (left - right)) else .error (.overflow ⟨.sub, 0⟩)) left right
  | .mul => onUints .mul (fun left right => bounded .mul (left.toNat * right.toNat)) left right
  | .div => onUints .div (fun left right =>
      if right = 0 then .error (.divisionByZero 0) else .ok (.uint (left / right))) left right
  | .mod => onUints .mod (fun left right =>
      if right = 0 then .error (.divisionByZero 0) else .ok (.uint (left % right))) left right
  | .bitOr => onUints .bitOr (fun left right => .ok (.uint (left ||| right))) left right
  | .bitAnd => onUints .bitAnd (fun left right => .ok (.uint (left &&& right))) left right
  | .bitXor => onUints .bitXor (fun left right => .ok (.uint (left ^^^ right))) left right
  | .lt => onUints .lt (fun left right => truth (left < right)) left right
  | .gt => onUints .gt (fun left right => truth (right < left)) left right
  | .le => onUints .le (fun left right => truth (left ≤ right)) left right
  | .ge => onUints .ge (fun left right => truth (right ≤ left)) left right
  | .eq => compared .eq left right true
  | .neq => compared .neq left right false
  | .and => onUints .and (fun left right => truth (left ≠ 0 && right ≠ 0)) left right
  | .or => onUints .or (fun left right => truth (left ≠ 0 || right ≠ 0)) left right
  | .concat =>
      match left, right with
      | .bytes left, .bytes right =>
          if left.length + right.length ≤ Machine.maxBytes then .ok (.bytes (left ++ right))
          else .error (.bytesTooLong 0)
      | _, _ => .error (.typeMismatch ⟨.concat, 0⟩ .bytes .uint64)

end BinaryOp

namespace UnaryOp

/-- The value of an operator with one operand, if it leaves one, and the store. -/
def apply (op : UnaryOp) (operand : Value) (store : Store) :
    Except Fault (Option Value × Store) :=
  match op with
  | .not => onUint .not (fun number => .ok (some (.uint (Machine.ofBool (number = 0))), store))
      operand
  | .bitNot => onUint .bitNot (fun number => .ok (some (.uint (~~~ number)), store)) operand
  | .len => onBytes .len (fun bytes => .ok (some (.uint (UInt64.ofNat bytes.length)), store))
      operand
  | .itob => onUint .itob (fun number => .ok (some (.bytes (Machine.bigEndian number)), store))
      operand
  | .btoi => onBytes .btoi (fun bytes =>
      if bytes.length ≤ 8 then .ok (some (.uint (Machine.ofBigEndian bytes)), store)
      else .error (.overflow ⟨.btoi, 0⟩)) operand
  | .pop => .ok (none, store)
  | .log => onBytes .log (fun bytes => .ok (none, store.record (.log bytes))) operand
  | .assert => onUint .assert (fun number =>
      if number = 0 then .error (.assertionFailed 0) else .ok (none, store)) operand

end UnaryOp

namespace Setting

def field (setting : Setting) (source : FieldSource) (name : String) : Except Fault Value :=
  let fields := match source with
    | .txn => setting.env.txn
    | .global => setting.env.global
  match fields.lookup name with
  | some value => .ok value
  | none => .error (.unknownField name)

/-- An argument of the signature. -/
def argument (setting : Setting) (index : UInt8) : Except Fault Value :=
  match setting.env.arguments[index.toNat]? with
  | some bytes => .ok (.bytes bytes)
  | none => .error (.missingArgument index.toUInt64)

def write (setting : Setting) (slot : Slot) (value : Value) : Eval (Option Value) :=
  Eval.onStore fun store => .ok (none, store.write (setting.place slot) value)

def read (setting : Setting) (slot : Slot) : Eval (Option Value) :=
  Eval.onStore fun store => .ok (some (store.scratch.get (setting.place slot)), store)

def invoke (setting : Setting) (target : Handle) (arguments : List Value) :
    Eval (Option Value) := do
  match ← Eval.onStore (setting.call target.id arguments) with
  | .returned value => pure (if target.returns.isValue then some value else none)
  | .halted approved => throw (.halted approved)

end Setting

/-- The cell with a computed number. -/
def computedCell (op : Opcode) : Value → Except Fault Cell :=
  onUint op fun index =>
    if inRange : index.toNat < cellCount then .ok ⟨index.toNat, inRange⟩
    else .error (.scratchIndex index)

namespace Eval

/-- The value of a cell with a computed number. -/
def readComputed (index : Value) : Eval (Option Value) :=
  onStore fun store => do
    pure (some (store.scratch.get (← computedCell .loads index)), store)

/-- Store a value in a cell with a computed number. -/
def writeComputed (index value : Value) : Eval (Option Value) :=
  onStore fun store => do
    pure (none, store.write (← computedCell .stores index) value)

/-- A value of the state of the application; zero if there is none. -/
def getState (key : Value) : Eval (Option Value) :=
  onStore fun store => onBytes .appGlobalGet (fun key =>
    .ok (some ((store.appState.lookup key).getD (.uint 0)), store)) key

def putState (key value : Value) : Eval (Option Value) :=
  onStore fun store => onBytes .appGlobalPut (fun key => .ok (none, store.put key value)) key

/-- Leave the routine with a value. In the main routine it is the verdict. -/
def leave (main : Bool) (value : Value) : Eval (Option Value) :=
  if main then do
    let approved ← ofExcept (onUint .ret (fun number => .ok (decide (number ≠ 0))) value)
    throw (.halted approved)
  else throw (.returned (some value))

end Eval

namespace Expr

variable (setting : Setting) (main : Bool) (rounds : Nat)

mutual

/-- Evaluate an expression, with at most the given number of rounds for each loop. -/
def eval : Expr → Eval (Option Value)
  | .int value => pure (some (.uint value))
  | .bytes value => pure (some (.bytes value))
  | .text value => pure (some (.bytes (Text.Utf8.encode value)))
  | .field source name _ => some <$> Eval.ofExcept (setting.field source name)
  | .sigArg index => some <$> Eval.ofExcept (setting.argument index)
  | .binary op left right => do
      let left ← Eval.value left.eval
      let right ← Eval.value right.eval
      some <$> Eval.ofExcept (op.apply left right)
  | .unary op operand => do
      let operand ← Eval.value operand.eval
      Eval.onStore (op.apply operand)
  | .seq items => evalSeq items
  | .ifThen condition thenBranch => do
      if ← Eval.test condition.eval then thenBranch.eval else pure none
  | .ifElse condition thenBranch elseBranch => do
      if ← Eval.test condition.eval then thenBranch.eval else elseBranch.eval
  | .whileLoop condition body => Eval.loop condition.eval body.eval rounds
  | .breakLoop => throw .broke
  | .continueLoop => throw .continued
  | .ret => throw (.returned none)
  | .retValue value => do
      let value ← Eval.value value.eval
      Eval.leave main value
  | .exit approved => throw (.halted approved)
  | .abort => Eval.fail (.failed 0)
  | .store slot value => do
      let value ← Eval.value value.eval
      setting.write slot value
  | .load slot _ => setting.read slot
  | .slotIndex slot => pure (some (.uint (UInt64.ofNat (setting.place slot).val)))
  | .loadIndirect index => do
      let index ← Eval.value index.eval
      Eval.readComputed index
  | .storeIndirect index value => do
      let index ← Eval.value index.eval
      let value ← Eval.value value.eval
      Eval.writeComputed index value
  | .stateGet key => do
      let key ← Eval.value key.eval
      Eval.getState key
  | .statePut key value => do
      let key ← Eval.value key.eval
      let value ← Eval.value value.eval
      Eval.putState key value
  | .call target arguments => do
      let arguments ← evalEach arguments
      setting.invoke target arguments
  | .inline _ => Eval.fail (.failed 0)

/-- Evaluate expressions one after the other for the value of the last one. -/
def evalSeq : List Expr → Eval (Option Value)
  | [] => pure none
  | [item] => item.eval
  | item :: rest => do
      let _ ← item.eval
      evalSeq rest

/-- The values of several operands, from left to right. -/
def evalEach : List Expr → Eval (List Value)
  | [] => pure []
  | operand :: rest => do
      let value ← Eval.value operand.eval
      let others ← evalEach rest
      pure (value :: others)

end

/-! ## Stack discipline -/

mutual

/-- Whether the expression contains anything that leaves or repeats a loop or leaves the
routine. -/
def escapes : Expr → Bool
  | .breakLoop | .continueLoop | .ret | .retValue _ => true
  | .binary _ left right => left.escapes || right.escapes
  | .unary _ operand => operand.escapes
  | .seq items => anyEscapes items
  | .ifThen condition thenBranch => condition.escapes || thenBranch.escapes
  | .ifElse condition thenBranch elseBranch =>
      condition.escapes || thenBranch.escapes || elseBranch.escapes
  | .whileLoop condition body => condition.escapes || body.escapes
  | .store _ value => value.escapes
  | .loadIndirect index => index.escapes
  | .storeIndirect index value => index.escapes || value.escapes
  | .stateGet key => key.escapes
  | .statePut key value => key.escapes || value.escapes
  | .call _ arguments => anyEscapes arguments
  | .int _ | .bytes _ | .text _ | .field _ _ _ | .sigArg _ | .exit _ | .abort | .load _ _
  | .slotIndex _ | .inline _ => false

/-- Whether one of several expressions contains such a thing. -/
def anyEscapes : List Expr → Bool
  | [] => false
  | item :: rest => item.escapes || anyEscapes rest

end

/-- Whether an expression may be used for its value: it has one, and control cannot get out of
it while other values wait on the stack. -/
def isOperand (expr : Expr) : Bool := expr.ty.isValue && !expr.escapes

mutual

/-- Whether operands, conditions and arguments have values and do not jump, nothing that is
read has the type of no value, and all code is made of expressions. -/
def disciplined : Expr → Bool
  | .field _ _ ty | .load _ ty => ty.isValue
  | .binary _ left right =>
      left.isOperand && left.disciplined && right.isOperand && right.disciplined
  | .unary _ operand => operand.isOperand && operand.disciplined
  | .seq items => allDisciplined items
  | .ifThen condition thenBranch =>
      condition.isOperand && condition.disciplined && thenBranch.disciplined
  | .ifElse condition thenBranch elseBranch =>
      condition.isOperand && condition.disciplined && thenBranch.disciplined &&
        elseBranch.disciplined
  | .whileLoop condition body =>
      condition.isOperand && condition.disciplined && body.disciplined
  | .retValue value | .store _ value => value.isOperand && value.disciplined
  | .loadIndirect index => index.isOperand && index.disciplined
  | .storeIndirect index value =>
      index.isOperand && index.disciplined && value.isOperand && value.disciplined
  | .stateGet key => key.isOperand && key.disciplined
  | .statePut key value =>
      key.isOperand && key.disciplined && value.isOperand && value.disciplined
  | .call target arguments =>
      target.returns ≠ .value .none && arguments.all isOperand && allDisciplined arguments
  | .inline _ => false
  | .int _ | .bytes _ | .text _ | .sigArg _ | .breakLoop | .continueLoop | .ret | .exit _
  | .abort | .slotIndex _ => true

/-- Whether all of several expressions are so. -/
def allDisciplined : List Expr → Bool
  | [] => true
  | item :: rest => item.disciplined && allDisciplined rest

end

end Expr

end ContractBackend
