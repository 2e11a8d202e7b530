/-!
# Types of expressions

What an expression leaves on the stack, and what a subroutine leaves there when it returns.
-/

namespace ContractBackend

/-- The type of the value that an expression leaves on the stack. -/
inductive Ty where
  | uint64
  | bytes
  /-- A value of either kind. -/
  | any
  /-- Nothing is left. -/
  | none
  deriving DecidableEq, Inhabited

namespace Ty

/-- Whether a value is left at all. -/
def isValue (ty : Ty) : Bool := ty ≠ .none

def name : Ty → String
  | .uint64 => "uint64"
  | .bytes => "bytes"
  | .any => "any"
  | .none => "none"

end Ty

/-- What a subroutine leaves on the stack when it returns. -/
inductive Returns where
  | nothing
  | value (ty : Ty)
  deriving DecidableEq, Inhabited

namespace Returns

/-- Whether a returning call leaves a value. -/
def isValue : Returns → Bool
  | .nothing => false
  | .value _ => true

def ty : Returns → Ty
  | .nothing => .none
  | .value ty => ty

end Returns

end ContractBackend
