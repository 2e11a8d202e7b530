import ContractBackend.Instr
import ContractBackend.Text.Shown
import ContractBackend.Ty

/-!
# Expressions

The trees that contracts are written in, with what can be said of a tree before it is lowered: its
type, its name in messages, the first target version that can express it, and whether control ever
goes on behind it.
-/

namespace ContractBackend

/-- A reference to a declared subroutine: what has to be known of it to call it. -/
structure Handle where
  id : SubroutineId
  name : String
  argCount : Nat
  returns : Returns
  deriving DecidableEq, Inhabited

/-- A variable: a slot and the type of its values. -/
structure Var where
  slot : Slot
  ty : Ty
  deriving DecidableEq, Inhabited

/-- Where a field is read from. -/
inductive FieldSource where
  | txn
  | global
  deriving DecidableEq, Inhabited

namespace FieldSource

def opcode : FieldSource → Opcode
  | .txn => .txn
  | .global => .global

end FieldSource

/-- Operators with two operands. -/
inductive BinaryOp where
  | add | sub | mul | div | mod
  | bitOr | bitAnd | bitXor
  | lt | gt | le | ge | eq | neq
  | and | or
  | concat
  deriving DecidableEq, Inhabited

namespace BinaryOp

def opcode : BinaryOp → Opcode
  | .add => .add
  | .sub => .sub
  | .mul => .mul
  | .div => .div
  | .mod => .mod
  | .bitOr => .bitOr
  | .bitAnd => .bitAnd
  | .bitXor => .bitXor
  | .lt => .lt
  | .gt => .gt
  | .le => .le
  | .ge => .ge
  | .eq => .eq
  | .neq => .neq
  | .and => .and
  | .or => .or
  | .concat => .concat

def ty : BinaryOp → Ty
  | .concat => .bytes
  | _ => .uint64

def all : List BinaryOp :=
  [.add, .sub, .mul, .div, .mod, .bitOr, .bitAnd, .bitXor, .lt, .gt, .le, .ge, .eq, .neq,
   .and, .or, .concat]

end BinaryOp

/-- Operators with one operand. -/
inductive UnaryOp where
  | not | bitNot
  | len | itob | btoi
  | pop | log | assert
  deriving DecidableEq, Inhabited

namespace UnaryOp

def opcode : UnaryOp → Opcode
  | .not => .not
  | .bitNot => .bitNot
  | .len => .len
  | .itob => .itob
  | .btoi => .btoi
  | .pop => .pop
  | .log => .log
  | .assert => .assert

def ty : UnaryOp → Ty
  | .itob => .bytes
  | .pop | .log | .assert => .none
  | .not | .bitNot | .len | .btoi => .uint64

def all : List UnaryOp := [.not, .bitNot, .len, .itob, .btoi, .pop, .log, .assert]

end UnaryOp

/-- Code given instruction by instruction, with what has to be known about it. -/
structure InlineCode where
  ty : Ty
  minVersion : Version
  terminates : Bool
  instrs : List Instr
  deriving DecidableEq, Inhabited

inductive Expr where
  | int (value : UInt64)
  /-- A byte string, written in hexadecimal. -/
  | bytes (value : List UInt8)
  /-- A byte string, written as a quoted literal. -/
  | text (value : String)
  | field (source : FieldSource) (name : String) (ty : Ty)
  /-- An argument of the signature. -/
  | sigArg (index : UInt8)
  | binary (op : BinaryOp) (left right : Expr)
  | unary (op : UnaryOp) (operand : Expr)
  | seq (items : List Expr)
  | ifThen (condition thenBranch : Expr)
  | ifElse (condition thenBranch elseBranch : Expr)
  | whileLoop (condition body : Expr)
  /-- Leave the innermost loop. -/
  | breakLoop
  /-- Go back to the condition of the innermost loop. -/
  | continueLoop
  /-- Leave the routine without a value. -/
  | ret
  /-- Leave the routine with a value. -/
  | retValue (value : Expr)
  /-- End the program with a verdict. -/
  | exit (approved : Bool)
  /-- Fail the program. -/
  | abort
  | store (slot : Slot) (value : Expr)
  | load (slot : Slot) (ty : Ty)
  /-- The number of the cell of a slot. -/
  | slotIndex (slot : Slot)
  /-- The value of the cell with a computed number. -/
  | loadIndirect (index : Expr)
  | storeIndirect (index value : Expr)
  /-- A value of the state of the application. -/
  | stateGet (key : Expr)
  | statePut (key value : Expr)
  | call (target : Handle) (arguments : List Expr)
  | inline (code : InlineCode)
  deriving Inhabited

namespace Expr

mutual

/-- Whether control never goes on behind an expression. -/
def terminates : Expr → Bool
  | .seq items => anyTerminates items
  | .ifElse condition thenBranch elseBranch =>
      condition.terminates || (thenBranch.terminates && elseBranch.terminates)
  | .ifThen condition _ => condition.terminates
  | .ret | .retValue _ | .exit _ | .abort => true
  | .inline code => code.terminates
  | _ => false

/-- Whether control never goes on behind one of several expressions. -/
def anyTerminates : List Expr → Bool
  | [] => false
  | item :: rest => item.terminates || anyTerminates rest

end

mutual

/-- The type of the value that an expression leaves on the stack. -/
def ty : Expr → Ty
  | .int _ | .slotIndex _ => .uint64
  | .bytes _ | .text _ | .sigArg _ => .bytes
  | .field _ _ ty => ty
  | .binary op _ _ => op.ty
  | .unary op _ => op.ty
  | .seq items => lastTy items
  | .ifThen _ thenBranch => thenBranch.ty
  | .ifElse _ thenBranch elseBranch =>
      if thenBranch.terminates then elseBranch.ty else thenBranch.ty
  | .load _ ty => ty
  | .loadIndirect _ | .stateGet _ => .any
  | .call target _ => target.returns.ty
  | .inline code => code.ty
  | .whileLoop _ _ | .breakLoop | .continueLoop | .ret | .retValue _ | .exit _ | .abort
  | .store _ _ | .storeIndirect _ _ | .statePut _ _ => .none

def lastTy : List Expr → Ty
  | [] => .none
  | [item] => item.ty
  | _ :: rest => lastTy rest

end

def name : Expr → String
  | .int value => s!"int {value.toNat}"
  | .bytes _ => "bytes"
  | .text value => Text.Shown.quote value
  | .field source name _ => s!"{source.opcode.mnemonic} {name}"
  | .sigArg index => s!"arg {index.toNat}"
  | .binary op _ _ => op.opcode.mnemonic
  | .unary op _ => op.opcode.mnemonic
  | .seq _ => "seq"
  | .ifThen _ _ | .ifElse _ _ _ => "if"
  | .whileLoop _ _ => "while"
  | .breakLoop => "break"
  | .continueLoop => "continue"
  | .ret | .retValue _ => "return"
  | .exit approved => if approved then "approve" else "reject"
  | .abort => "err"
  | .store slot _ => s!"store {slot.text}"
  | .load slot _ => s!"load {slot.text}"
  | .slotIndex slot => s!"index of {slot.text}"
  | .loadIndirect _ => "loads"
  | .storeIndirect _ _ => "stores"
  | .stateGet _ => "app_global_get"
  | .statePut _ _ => "app_global_put"
  | .call target _ => s!"call to '{target.name}'"
  | .inline _ => "raw"

/-- The first target version that can express an expression, its parts aside. -/
def minVersion : Expr → Version
  | .binary op _ _ => max op.opcode.minVersion oldestVersion
  | .unary op _ => max op.opcode.minVersion oldestVersion
  | .loadIndirect _ => Opcode.loads.minVersion
  | .storeIndirect _ _ => Opcode.stores.minVersion
  | .call _ _ => Opcode.callsub.minVersion
  | .inline code => code.minVersion
  | _ => oldestVersion

end Expr

namespace Var

/-- Store a value in a variable. -/
def store (var : Var) (value : Expr) : Expr := .store var.slot value

def load (var : Var) : Expr := .load var.slot var.ty

/-- The number of the cell of a variable. -/
def index (var : Var) : Expr := .slotIndex var.slot

end Var

end ContractBackend
