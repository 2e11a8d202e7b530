import ContractBackend.Opcode
import ContractBackend.Ty
import ContractBackend.Text.Encoding

/-!
# Values, surroundings and faults of a run

What the machine computes with, what a program can read from outside, what it leaves behind, and
why a run fails.
-/

namespace ContractBackend.Machine

/-- A value on the stack or in a scratch cell. -/
inductive Value where
  | uint (value : UInt64)
  | bytes (value : List UInt8)
  deriving DecidableEq, Inhabited

namespace Value

def ty : Value → Ty
  | .uint _ => .uint64
  | .bytes _ => .bytes

def render : Value → String
  | .uint value => toString value.toNat
  | .bytes value => "0x" ++ Text.Hex.encode value

end Value

/-- Something a program did that outlives its run. -/
inductive Effect where
  | log (message : List UInt8)
  | put (key : List UInt8) (value : Value)
  deriving DecidableEq, Inhabited

/-- What a program can read from outside. -/
structure Environment where
  /-- Fields of the transaction. -/
  txn : List (String × Value) := []
  /-- Fields of the ledger. -/
  global : List (String × Value) := []
  /-- Arguments of the signature. -/
  arguments : List (List UInt8) := []
  /-- The state of the application before the run, ascending by key. -/
  appState : List (List UInt8 × Value) := []
  deriving DecidableEq, Inhabited

/-- Bounds on a run. -/
structure Limits where
  maxSteps : Nat := 1000000
  maxCallDepth : Nat := 1000
  maxStack : Nat := 1000
  deriving DecidableEq

instance : Inhabited Limits := ⟨{}⟩

/-- The longest byte string that `concat` makes. -/
def maxBytes : Nat := 4096

/-- The instruction that is being executed and the line it stands on, counted from one. -/
structure Site where
  op : Opcode
  line : Nat
  deriving DecidableEq, Inhabited

/-- Why a run fails. -/
inductive Fault where
  | stackUnderflow (site : Site)
  | typeMismatch (site : Site) (expected found : Ty)
  | overflow (site : Site)
  | divisionByZero (line : Nat)
  | assertionFailed (line : Nat)
  | failed (line : Nat)
  | badImmediate (site : Site)
  | unknownLabel (name : String)
  | unknownField (name : String)
  | missingArgument (index : UInt64)
  | scratchIndex (index : UInt64)
  | bytesTooLong (line : Nat)
  | noActiveCall (line : Nat)
  | callDepthExceeded (limit : Nat)
  | stepLimitExceeded (limit : Nat)
  | stackLimitExceeded (limit : Nat)
  | badFinalStack (height : Nat)
  deriving DecidableEq, Inhabited

namespace Fault

/-- The wording of a fault behind the common opening. -/
def detail : Fault → String
  | .stackUnderflow site => s!"stack underflow in {site.op.mnemonic} at line {site.line}"
  | .typeMismatch site expected found =>
      s!"{site.op.mnemonic} at line {site.line} expected {expected.name}, got {found.name}"
  | .overflow site => s!"arithmetic overflow in {site.op.mnemonic} at line {site.line}"
  | .divisionByZero line => s!"division by zero at line {line}"
  | .assertionFailed line => s!"assertion failed at line {line}"
  | .failed line => s!"err executed at line {line}"
  | .badImmediate site => s!"malformed immediate for {site.op.mnemonic} at line {site.line}"
  | .unknownLabel name => s!"unknown label '{name}'"
  | .unknownField name => s!"unknown field '{name}'"
  | .missingArgument index => s!"no program argument {index.toNat}"
  | .scratchIndex index => s!"scratch index {index.toNat} out of range"
  | .bytesTooLong line => s!"byte string longer than {maxBytes} at line {line}"
  | .noActiveCall line => s!"retsub with no active call at line {line}"
  | .callDepthExceeded limit => s!"call depth limit exceeded ({limit})"
  | .stepLimitExceeded limit => s!"execution step limit exceeded ({limit})"
  | .stackLimitExceeded limit => s!"stack size limit exceeded ({limit})"
  | .badFinalStack height =>
      s!"program ended with {height} value(s) on the stack instead of one uint64"

def message (fault : Fault) : String := s!"runtime error: {fault.detail}"

end Fault

end ContractBackend.Machine
