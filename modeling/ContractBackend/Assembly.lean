import ContractBackend.Opcode
import ContractBackend.Text.Encoding

/-!
# Assembly

The linked program: a listing in which every slot has become a cell and every label and subroutine
a name, its text, and the artifact that a compilation comes to.
-/

namespace ContractBackend

/-- An operand of a linked instruction. -/
inductive Argument where
  | uint (value : UInt64)
  | bytes (value : List UInt8)
  | text (value : String)
  | name (value : String)
  | label (name : String)
  deriving DecidableEq, Inhabited

namespace Argument

def render : Argument → String
  | .uint value => toString value.toNat
  | .bytes value => "0x" ++ Text.Hex.encode value
  | .text value => Text.Quoted.quote value
  | .name value => value
  | .label value => value

end Argument

inductive Line where
  | label (name : String) (comment : Option String)
  | instr (op : Opcode) (arguments : List Argument)
  deriving DecidableEq, Inhabited

namespace Line

def label? : Line → Option String
  | .label name _ => some name
  | .instr _ _ => none

def opcode? : Line → Option Opcode
  | .label _ _ => none
  | .instr op _ => some op

def render : Line → String
  | .label name (some comment) => s!"{name}: // {comment}"
  | .label name none => s!"{name}:"
  | .instr op arguments =>
      " ".intercalate (op.mnemonic :: arguments.map Argument.render)

end Line

structure Assembly where
  version : Version
  lines : List Line
  deriving DecidableEq, Inhabited

namespace Assembly

def opcodes (assembly : Assembly) : List Opcode := assembly.lines.filterMap Line.opcode?

def count (assembly : Assembly) (op : Opcode) : Nat := assembly.opcodes.count op

/-- The text of a listing: the version, then one line of text for each line. -/
def render (assembly : Assembly) : String :=
  "\n".intercalate
    (s!"#pragma version {assembly.version.toNat}" :: assembly.lines.map Line.render)

end Assembly

/-- The listing, its text, and what it was compiled for. -/
structure Artifact where
  version : Version
  mode : Mode
  assembly : Assembly
  text : String
  deriving DecidableEq, Inhabited

end ContractBackend
