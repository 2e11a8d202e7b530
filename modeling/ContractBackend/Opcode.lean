/-!
# Instructions of the target machine

The table of opcodes: mnemonic, the first target version that has the opcode and the modes in
which it is legal, together with the classes (exits, branches, side effects) on which the later
stages rely.
-/

namespace ContractBackend

/-- A target version; it is stored in one byte. -/
abbrev Version := UInt8

/-- The oldest target version a contract can be compiled for. -/
def oldestVersion : Version := 2

/-- The newest target version a contract can be compiled for. -/
def newestVersion : Version := 8

/-- What a contract is run for. -/
inductive Mode where
  /-- A stateless check of a transaction. -/
  | signature
  /-- A call of a stateful application. -/
  | application
  deriving DecidableEq, Inhabited

namespace Mode

def name : Mode → String
  | .signature => "Signature"
  | .application => "Application"

/-- Every mode, in the order of its number in an artifact. -/
def all : List Mode := [.signature, .application]

end Mode

inductive Opcode where
  | int | byte | pushint | pushbytes | arg
  | txn | global | appGlobalGet
  | appGlobalPut | log
  | load | store | loads | stores
  | pop | dup | dup2 | dig | swap | select | cover | uncover
  | add | sub | mul | div | mod | bitOr | bitAnd | bitXor | bitNot
  | lt | gt | le | ge | eq | neq
  | and | or | not
  | len | itob | btoi | concat
  | bnz | bz | b | assert | err | ret | callsub | retsub
  deriving DecidableEq, Inhabited

/-- The static facts about one opcode. -/
structure OpcodeInfo where
  mnemonic : String
  /-- The first target version that has the opcode. -/
  minVersion : Version := 1
  /-- Legal in signature mode. -/
  signature : Bool := true
  /-- Legal in application mode. -/
  application : Bool := true

namespace OpcodeInfo

/-- Whether the opcode may appear in a contract of the given mode. -/
def allows (info : OpcodeInfo) : Mode → Bool
  | .signature => info.signature
  | .application => info.application

end OpcodeInfo

namespace Opcode

/-- Every opcode, in the order of its number in an artifact. -/
def all : List Opcode :=
  [.int, .byte, .pushint, .pushbytes, .arg,
   .txn, .global, .appGlobalGet,
   .appGlobalPut, .log,
   .load, .store, .loads, .stores,
   .pop, .dup, .dup2, .dig, .swap, .select, .cover, .uncover,
   .add, .sub, .mul, .div, .mod, .bitOr, .bitAnd, .bitXor, .bitNot,
   .lt, .gt, .le, .ge, .eq, .neq,
   .and, .or, .not,
   .len, .itob, .btoi, .concat,
   .bnz, .bz, .b, .assert, .err, .ret, .callsub, .retsub]

/-- The opcode table. -/
def info : Opcode → OpcodeInfo
  | .int => { mnemonic := "int" }
  | .byte => { mnemonic := "byte" }
  | .pushint => { mnemonic := "pushint", minVersion := 3 }
  | .pushbytes => { mnemonic := "pushbytes", minVersion := 3 }
  | .arg => { mnemonic := "arg", application := false }
  | .txn => { mnemonic := "txn" }
  | .global => { mnemonic := "global" }
  | .appGlobalGet => { mnemonic := "app_global_get", minVersion := 2, signature := false }
  | .appGlobalPut => { mnemonic := "app_global_put", minVersion := 2, signature := false }
  | .log => { mnemonic := "log", minVersion := 5, signature := false }
  | .load => { mnemonic := "load" }
  | .store => { mnemonic := "store" }
  | .loads => { mnemonic := "loads", minVersion := 5 }
  | .stores => { mnemonic := "stores", minVersion := 5 }
  | .pop => { mnemonic := "pop" }
  | .dup => { mnemonic := "dup" }
  | .dup2 => { mnemonic := "dup2", minVersion := 2 }
  | .dig => { mnemonic := "dig", minVersion := 3 }
  | .swap => { mnemonic := "swap", minVersion := 3 }
  | .select => { mnemonic := "select", minVersion := 3 }
  | .cover => { mnemonic := "cover", minVersion := 5 }
  | .uncover => { mnemonic := "uncover", minVersion := 5 }
  | .add => { mnemonic := "+" }
  | .sub => { mnemonic := "-" }
  | .mul => { mnemonic := "*" }
  | .div => { mnemonic := "/" }
  | .mod => { mnemonic := "%" }
  | .bitOr => { mnemonic := "|" }
  | .bitAnd => { mnemonic := "&" }
  | .bitXor => { mnemonic := "^" }
  | .bitNot => { mnemonic := "~" }
  | .lt => { mnemonic := "<" }
  | .gt => { mnemonic := ">" }
  | .le => { mnemonic := "<=" }
  | .ge => { mnemonic := ">=" }
  | .eq => { mnemonic := "==" }
  | .neq => { mnemonic := "!=" }
  | .and => { mnemonic := "&&" }
  | .or => { mnemonic := "||" }
  | .not => { mnemonic := "!" }
  | .len => { mnemonic := "len" }
  | .itob => { mnemonic := "itob" }
  | .btoi => { mnemonic := "btoi" }
  | .concat => { mnemonic := "concat", minVersion := 2 }
  | .bnz => { mnemonic := "bnz" }
  | .bz => { mnemonic := "bz", minVersion := 2 }
  | .b => { mnemonic := "b", minVersion := 2 }
  | .assert => { mnemonic := "assert", minVersion := 3 }
  | .err => { mnemonic := "err" }
  | .ret => { mnemonic := "return", minVersion := 2 }
  | .callsub => { mnemonic := "callsub", minVersion := 4 }
  | .retsub => { mnemonic := "retsub", minVersion := 4 }

/-- The word that stands for the opcode in assembly text. -/
def mnemonic (op : Opcode) : String := op.info.mnemonic

/-- The first target version that has the opcode. -/
def minVersion (op : Opcode) : Version := op.info.minVersion

/-- Whether the opcode may appear in a contract of the given mode. -/
def allows (op : Opcode) (mode : Mode) : Bool := op.info.allows mode

def ofMnemonic? (word : String) : Option Opcode :=
  all.find? fun op => op.mnemonic == word

/-- Opcodes that leave the routine unconditionally. -/
def isExit : Opcode → Bool
  | .err | .ret | .retsub => true
  | _ => false

/-- Opcodes that may continue at a label of the same routine. -/
def isBranch : Opcode → Bool
  | .b | .bz | .bnz => true
  | _ => false

/-- Opcodes that reach as deep into the stack as their immediate says. -/
def readsDeepStack : Opcode → Bool
  | .dig | .cover | .uncover => true
  | _ => false

/-- Opcodes whose execution shows in more than the values they push. -/
def hasSideEffects : Opcode → Bool
  | .store | .stores | .appGlobalPut | .log | .assert | .callsub => true
  | op => op.isExit || op.isBranch

end Opcode

end ContractBackend
