import ContractBackend.Ascending
import ContractBackend.Assembly
import ContractBackend.Slot
import ContractBackend.Machine.Value

/-!
# Execution of one instruction

What an instruction does to the memory of the machine and how control goes on. Where control goes
to is left to the run: branches and calls only say that they are taken.
-/

namespace ContractBackend.Machine

/-- What instructions work on. -/
structure Memory where
  /-- The stack, top first. -/
  stack : List Value
  scratch : Vector Value cellCount
  /-- What the program has done so far, in order. -/
  effects : Array Effect
  /-- The state of the application, ascending by key. -/
  appState : List (List UInt8 × Value)
  deriving DecidableEq, Inhabited

/-- How control goes on after an instruction. -/
inductive Flow where
  /-- At the next line. -/
  | next
  /-- At the label of the instruction. -/
  | jump
  /-- At the label of the instruction, to come back to the next line. -/
  | call
  /-- Behind the last unreturned call. -/
  | back
  /-- The run ends with a verdict. -/
  | halt (approved : Bool)
  deriving DecidableEq, Inhabited

/-- A piece of an execution. -/
abbrev Exec := StateT Memory (Except Fault)

namespace Exec

def push (limits : Limits) (value : Value) : Exec Unit := do
  let memory ← get
  if memory.stack.length < limits.maxStack then
    set { memory with stack := value :: memory.stack }
  else
    throw (.stackLimitExceeded limits.maxStack)

def pop (site : Site) : Exec Value := do
  let memory ← get
  match memory.stack with
  | [] => throw (.stackUnderflow site)
  | value :: rest =>
      set { memory with stack := rest }
      pure value

def popUint (site : Site) : Exec UInt64 := do
  match ← pop site with
  | .uint value => pure value
  | found => throw (.typeMismatch site .uint64 found.ty)

def popBytes (site : Site) : Exec (List UInt8) := do
  match ← pop site with
  | .bytes value => pure value
  | found => throw (.typeMismatch site .bytes found.ty)

def uintArgument (site : Site) : List Argument → Exec UInt64
  | .uint value :: _ => pure value
  | _ => throw (.badImmediate site)

/-- The byte string that a literal stands for. -/
def bytesArgument (site : Site) : List Argument → Exec (List UInt8)
  | .bytes value :: _ => pure value
  | .text value :: _ => pure (Text.Utf8.encode value)
  | _ => throw (.badImmediate site)

def nameArgument (site : Site) : List Argument → Exec String
  | .name value :: _ => pure value
  | _ => throw (.badImmediate site)

/-- The depth immediate of an instruction, which has to lie within the stack. -/
def depthArgument (site : Site) (arguments : List Argument) : Exec Nat := do
  let depth ← uintArgument site arguments
  let memory ← get
  if depth.toNat < memory.stack.length then pure depth.toNat
  else throw (.stackUnderflow site)

def cell (index : UInt64) : Exec Cell :=
  if inRange : index.toNat < cellCount then pure ⟨index.toNat, inRange⟩
  else throw (.scratchIndex index)

def readCell (cell : Cell) : Exec Value := do
  let memory ← get
  pure (memory.scratch.get cell)

def writeCell (cell : Cell) (value : Value) : Exec Unit :=
  modify fun memory => { memory with scratch := memory.scratch.set cell value }

/-- Note something that outlives the run. -/
def record (effect : Effect) : Exec Unit :=
  modify fun memory => { memory with effects := memory.effects.push effect }

/-- Look a field up. -/
def field (fields : List (String × Value)) (name : String) : Exec Value :=
  match fields.lookup name with
  | some value => pure value
  | none => throw (.unknownField name)

end Exec

def ofBool (condition : Bool) : UInt64 := if condition then 1 else 0

/-- The eight bytes of an integer, the highest first. -/
def bigEndian (value : UInt64) : List UInt8 :=
  ([56, 48, 40, 32, 24, 16, 8, 0] : List UInt64).map fun shift => (value >>> shift).toUInt8

/-- The integer with the given bytes, the highest first. -/
def ofBigEndian (bytes : List UInt8) : UInt64 :=
  bytes.foldl (fun value byte => (value <<< 8) ||| byte.toUInt64) 0

/-- A result that has to fit into 64 bits. -/
def checked (site : Site) (result : Nat) : Except Fault UInt64 :=
  if result < UInt64.size then .ok (UInt64.ofNat result) else .error (.overflow site)

namespace Exec

/-- Replace two integers by the result of an operator; the right operand is on top. -/
def uintOperator (limits : Limits) (site : Site)
    (operator : UInt64 → UInt64 → Except Fault UInt64) : Exec Flow := do
  let right ← popUint site
  let left ← popUint site
  let result ← operator left right
  push limits (.uint result)
  pure .next

/-- Compare two values of one type for equality. -/
def compareValues (limits : Limits) (site : Site) (whenEqual : Bool) : Exec Flow := do
  let right ← pop site
  let left ← pop site
  if left.ty = right.ty then
    push limits (.uint (ofBool (decide (left = right) == whenEqual)))
    pure .next
  else
    throw (.typeMismatch site left.ty right.ty)

end Exec

open Exec in
def execute (limits : Limits) (env : Environment) (site : Site) (arguments : List Argument) :
    Exec Flow :=
  match site.op with
  | .int | .pushint => do
      push limits (.uint (← uintArgument site arguments))
      pure .next
  | .byte | .pushbytes => do
      push limits (.bytes (← bytesArgument site arguments))
      pure .next
  | .arg => do
      let index ← uintArgument site arguments
      match env.arguments[index.toNat]? with
      | some argument =>
          push limits (.bytes argument)
          pure .next
      | none => throw (.missingArgument index)
  | .txn => do
      push limits (← field env.txn (← nameArgument site arguments))
      pure .next
  | .global => do
      push limits (← field env.global (← nameArgument site arguments))
      pure .next
  | .appGlobalGet => do
      let key ← popBytes site
      let memory ← get
      push limits ((memory.appState.lookup key).getD (.uint 0))
      pure .next
  | .appGlobalPut => do
      let value ← pop site
      let key ← popBytes site
      modify fun memory => { memory with appState := Keyed.insert key value memory.appState }
      record (.put key value)
      pure .next
  | .log => do
      record (.log (← popBytes site))
      pure .next
  | .load => do
      push limits (← readCell (← cell (← uintArgument site arguments)))
      pure .next
  | .store => do
      let cell ← cell (← uintArgument site arguments)
      writeCell cell (← pop site)
      pure .next
  | .loads => do
      push limits (← readCell (← cell (← popUint site)))
      pure .next
  | .stores => do
      let value ← pop site
      let cell ← cell (← popUint site)
      writeCell cell value
      pure .next
  | .pop => do
      let _ ← pop site
      pure .next
  | .dup => do
      let value ← pop site
      push limits value
      push limits value
      pure .next
  | .dup2 => do
      let upper ← pop site
      let lower ← pop site
      push limits lower
      push limits upper
      push limits lower
      push limits upper
      pure .next
  | .dig => do
      let depth ← depthArgument site arguments
      let memory ← get
      match memory.stack[depth]? with
      | some value =>
          push limits value
          pure .next
      | none => throw (.stackUnderflow site)
  | .swap => do
      let upper ← pop site
      let lower ← pop site
      push limits upper
      push limits lower
      pure .next
  | .select => do
      let condition ← popUint site
      let upper ← pop site
      let lower ← pop site
      push limits (if condition ≠ 0 then upper else lower)
      pure .next
  | .cover => do
      let depth ← depthArgument site arguments
      let value ← pop site
      modify fun memory => { memory with stack := memory.stack.insertIdx depth value }
      pure .next
  | .uncover => do
      let depth ← depthArgument site arguments
      let memory ← get
      match memory.stack[depth]? with
      | some value =>
          set { memory with stack := memory.stack.eraseIdx depth }
          push limits value
          pure .next
      | none => throw (.stackUnderflow site)
  | .add => uintOperator limits site fun left right => checked site (left.toNat + right.toNat)
  | .sub => uintOperator limits site fun left right =>
      if right ≤ left then .ok (left - right) else .error (.overflow site)
  | .mul => uintOperator limits site fun left right => checked site (left.toNat * right.toNat)
  | .div => uintOperator limits site fun left right =>
      if right = 0 then .error (.divisionByZero site.line) else .ok (left / right)
  | .mod => uintOperator limits site fun left right =>
      if right = 0 then .error (.divisionByZero site.line) else .ok (left % right)
  | .bitOr => uintOperator limits site fun left right => .ok (left ||| right)
  | .bitAnd => uintOperator limits site fun left right => .ok (left &&& right)
  | .bitXor => uintOperator limits site fun left right => .ok (left ^^^ right)
  | .bitNot => do
      push limits (.uint (~~~ (← popUint site)))
      pure .next
  | .lt => uintOperator limits site fun left right => .ok (ofBool (left < right))
  | .gt => uintOperator limits site fun left right => .ok (ofBool (right < left))
  | .le => uintOperator limits site fun left right => .ok (ofBool (left ≤ right))
  | .ge => uintOperator limits site fun left right => .ok (ofBool (right ≤ left))
  | .eq => compareValues limits site true
  | .neq => compareValues limits site false
  | .and => uintOperator limits site fun left right => .ok (ofBool (left ≠ 0 && right ≠ 0))
  | .or => uintOperator limits site fun left right => .ok (ofBool (left ≠ 0 || right ≠ 0))
  | .not => do
      push limits (.uint (ofBool ((← popUint site) = 0)))
      pure .next
  | .len => do
      push limits (.uint (UInt64.ofNat (← popBytes site).length))
      pure .next
  | .itob => do
      push limits (.bytes (bigEndian (← popUint site)))
      pure .next
  | .btoi => do
      let bytes ← popBytes site
      if bytes.length ≤ 8 then
        push limits (.uint (ofBigEndian bytes))
        pure .next
      else
        throw (.overflow site)
  | .concat => do
      let right ← popBytes site
      let left ← popBytes site
      if left.length + right.length ≤ maxBytes then
        push limits (.bytes (left ++ right))
        pure .next
      else
        throw (.bytesTooLong site.line)
  | .bnz => do
      pure (if (← popUint site) = 0 then .next else .jump)
  | .bz => do
      pure (if (← popUint site) = 0 then .jump else .next)
  | .b => pure .jump
  | .assert => do
      if (← popUint site) = 0 then throw (.assertionFailed site.line)
      else pure .next
  | .err => throw (.failed site.line)
  | .ret => do
      pure (.halt ((← popUint site) ≠ 0))
  | .callsub => pure .call
  | .retsub => pure .back

end ContractBackend.Machine
