import ContractBackend.Instr
import ContractBackend.Ty

/-!
# Compile errors

Why a contract is refused. Every error is a cause; its wording is made here and nowhere else.
Causes are of two kinds: the input asks for something impossible, or an invariant of the
compiler does not hold.
-/

namespace ContractBackend

/-- The number of a block in its graph. -/
abbrev BlockId := Nat

namespace BlockId

/-- How a block is named in messages. -/
def text (id : BlockId) : String := s!"b{id}"

end BlockId

/-- What is wrong with a control-flow graph or with flat code. -/
inductive GraphFault where
  | unknownBlock (block : BlockId)
  | singleSuccessorOnConditional (block : BlockId)
  | branchTargetsOnSimple (block : BlockId)
  | halfConditional (block : BlockId)
  | incomingMismatch (block : BlockId) (recorded actual : List BlockId)
  | missingBackEdge (block : BlockId)
  | entryHasPredecessors (block : BlockId)
  | scheduledTwice (block : BlockId)
  | unrecordedEdge (source target : BlockId)
  | unresolvedPredecessors (block : BlockId) (count : Nat)
  | successorNotPlaced (block : BlockId)
  | branchWithoutLabel (op : Opcode)
  | unknownLabel (label : Label)
  | branchAtEnd (op : Opcode)
  deriving DecidableEq

namespace GraphFault

/-- A list of blocks as it is written in a message, in ascending order. -/
def blockList (blocks : List BlockId) : String :=
  let sorted := blocks.mergeSort (· ≤ ·)
  "[" ++ ", ".intercalate (sorted.map fun block => s!"BlockId({block})") ++ "]"

def message : GraphFault → String
  | .unknownBlock block => s!"{block.text} is not in this graph"
  | .singleSuccessorOnConditional block =>
      s!"cannot set a single successor on conditional block {block.text}"
  | .branchTargetsOnSimple block => s!"cannot set branch targets on simple block {block.text}"
  | .halfConditional block => s!"conditional block {block.text} has only one branch target"
  | .incomingMismatch block recorded actual =>
      s!"incoming edges of {block.text} are recorded as {blockList recorded} " ++
        s!"but the graph has {blockList actual}"
  | .missingBackEdge block => s!"{block.text} is missing an incoming back edge"
  | .entryHasPredecessors block => s!"entry block {block.text} has predecessors outside of loops"
  | .scheduledTwice block => s!"{block.text} was scheduled twice"
  | .unrecordedEdge source target =>
      s!"edge {source.text} -> {target.text} is not recorded in the incoming list"
  | .unresolvedPredecessors block count =>
      s!"{block.text} still has {count} unresolved predecessor(s) after sorting"
  | .successorNotPlaced block => s!"successor of {block.text} is missing from the block order"
  | .branchWithoutLabel op => s!"{op.mnemonic} without a target label"
  | .unknownLabel label => s!"branch to unknown label {label.text}"
  | .branchAtEnd op => s!"{op.mnemonic} at end of routine"

end GraphFault

/-- What a program asks for that cannot be compiled as written. -/
inductive ProgramFault where
  | noSuchArgument (subroutine : String) (count index : Nat)
  | missingBody (subroutine : String)
  | tooManyArguments (subroutine : String) (count : Nat)
  | bodyExists (subroutine : String)
  | foreignSubroutine (subroutine : String)
  | operandWithoutValue (operator operand : String)
  | strayValue (item : String)
  | valueWithoutElse
  | branchesDisagree (thenTy elseTy : Ty)
  | valueFromLoopBody
  | returnWithoutValue
  | returnedNoValue (subroutine value : String)
  | returnMissesValue (subroutine : String)
  | returnHasValue (subroutine : String)
  | storedNoValue (value : String)
  | argumentCount (subroutine : String) (expected given : Nat)
  | argumentWithoutValue (argument subroutine : String)
  | mainProducesBytes
  | mainUnfinished
  | bodyWithoutValue (subroutine : String)
  | bodyWithValue (subroutine : String)
  | breakOutsideLoop
  | continueOutsideLoop
  /-- A spilled call whose saved slots cannot be put below its arguments. -/
  | spillBelowArguments
  /-- A spilled call whose result cannot be put below the saved slots. -/
  | spillBelowResult
  deriving DecidableEq

/-- The greatest number of arguments of a subroutine: `cover` takes it as an 8-bit immediate. -/
def maxArguments : Nat := 255

namespace ProgramFault

/-- The wording of a fault, without the hint. -/
def message : ProgramFault → String
  | .noSuchArgument subroutine count index =>
      s!"subroutine '{subroutine}' has {count} argument(s), there is no argument {index}"
  | .missingBody subroutine => s!"subroutine '{subroutine}' is declared but has no body"
  | .tooManyArguments subroutine count =>
      s!"subroutine '{subroutine}' declares {count} arguments, " ++
        s!"at most {maxArguments} are supported"
  | .bodyExists subroutine => s!"subroutine '{subroutine}' already has a body"
  | .foreignSubroutine subroutine =>
      s!"subroutine '{subroutine}' does not belong to this program"
  | .operandWithoutValue operator operand =>
      s!"{operator} needs a value, but its argument ({operand}) produces none"
  | .strayValue item => s!"{item} leaves a value in the middle of a sequence"
  | .valueWithoutElse => "an if without else cannot produce a value"
  | .branchesDisagree thenTy elseTy =>
      s!"if branches disagree: then produces {thenTy.name}, else produces {elseTy.name}"
  | .valueFromLoopBody => "a while body cannot produce a value"
  | .returnWithoutValue => "return from the main routine needs a value"
  | .returnedNoValue subroutine value =>
      s!"subroutine '{subroutine}' must return a value, but {value} produces none"
  | .returnMissesValue subroutine => s!"subroutine '{subroutine}' must return a value"
  | .returnHasValue subroutine => s!"subroutine '{subroutine}' does not return a value"
  | .storedNoValue value => s!"cannot store {value}: it produces no value"
  | .argumentCount subroutine expected given =>
      s!"subroutine '{subroutine}' takes {expected} argument(s), but {given} were given"
  | .argumentWithoutValue argument subroutine =>
      s!"argument {argument} to subroutine '{subroutine}' produces no value"
  | .mainProducesBytes =>
      "the main routine produces bytes, but the program result must be a uint64"
  | .mainUnfinished => "the main routine neither produces a value nor ends the program"
  | .bodyWithoutValue subroutine =>
      s!"subroutine '{subroutine}' must return a value, but its body produces none"
  | .bodyWithValue subroutine =>
      s!"subroutine '{subroutine}' returns nothing, but its body produces a value"
  | .breakOutsideLoop => "break used outside of a loop"
  | .continueOutsideLoop => "continue used outside of a loop"
  | .spillBelowArguments =>
      s!"cannot keep local slots across a recursive call with more than one argument " ++
        s!"below version {Opcode.cover.minVersion.toNat}"
  | .spillBelowResult =>
      s!"cannot keep local slots across a recursive call that returns a value " ++
        s!"while more than one slot is live below version {Opcode.cover.minVersion.toNat}"

/-- The advice that goes with a fault. -/
def hint? : ProgramFault → Option String
  | .missingBody _ => some "call Program::implement before compiling"
  | .tooManyArguments _ _ => some "pass the extra values through scratch variables"
  | .strayValue _ => some "wrap the expression in pop(...) to discard its value"
  | .valueWithoutElse => some "add an else branch or discard the value with pop(...)"
  | .valueFromLoopBody => some "discard the value with pop(...)"
  | .returnWithoutValue => some "use approve() or reject()"
  | .mainProducesBytes => some "compare or convert the value with btoi"
  | .mainUnfinished => some "finish it with approve(), reject() or a uint64 expression"
  | .bodyWithValue _ => some "discard the value with pop(...)"
  | .breakOutsideLoop | .continueOutsideLoop =>
      some "break and continue may only appear inside a while loop body"
  | .spillBelowArguments | .spillBelowResult =>
      some s!"target version {Opcode.cover.minVersion.toNat} or later"
  | _ => none

end ProgramFault

/-- An invariant of the compiler that does not hold. -/
inductive InternalFault where
  | unknownSubroutine (id : SubroutineId)
  | noOpenLoop
  | unassignedSlot (slot : Slot)
  | unlabelledSubroutine (id : SubroutineId)
  | mainMissing
  | dynamicEffect (op : Opcode) (position : Nat)
  | stackUnderflow (op : Opcode) (position needed : Nat)
  deriving DecidableEq

namespace InternalFault

def message : InternalFault → String
  | .unknownSubroutine id => s!"unknown subroutine #{id}"
  | .noOpenLoop => "exit_loop called with no open loop"
  | .unassignedSlot slot => s!"{slot.text} has no assigned cell"
  | .unlabelledSubroutine id => s!"no label for subroutine #{id}"
  | .mainMissing => "main routine was not compiled"
  | .dynamicEffect op position => s!"stack effect of {op.mnemonic} at {position} is not static"
  | .stackUnderflow op position needed =>
      s!"stack underflow at {position}, op={op.mnemonic}, needed {needed} items"

end InternalFault

/-- Why a contract is not compiled. -/
inductive CompileError where
  | unsupportedVersion (version : Version)
  /-- An instruction or expression used below the version that introduced it. -/
  | versionMismatch (what : String) (required version : Version) (routine : String)
  /-- An instruction used in a mode that forbids it. -/
  | modeMismatch (op : Opcode) (mode : Mode) (routine : String)
  | slotSpaceExhausted (requested : Nat)
  | invalidProgram (fault : ProgramFault)
  | malformedGraph (fault : GraphFault)
  | reservedSlotCollision (cell : Cell)
  | uninitializedRead (slot : Slot) (routine : String)
  | internal (fault : InternalFault)
  deriving DecidableEq

namespace CompileError

/-- Whether the compiler, and not its input, is at fault. -/
def isInternal : CompileError → Bool
  | .malformedGraph _ | .reservedSlotCollision _ | .uninitializedRead _ _ | .internal _ => true
  | _ => false

/-- The wording of an error behind the common opening. -/
def detail : CompileError → String
  | .unsupportedVersion version =>
      s!"unsupported version {version.toNat} " ++
        s!"(supported: {oldestVersion.toNat}..={newestVersion.toNat})"
  | .versionMismatch what required version routine =>
      s!"{what} requires version {required.toNat}, " ++
        s!"but the target is version {version.toNat} (in {routine})"
  | .modeMismatch op mode routine =>
      s!"{op.mnemonic} is not available in {mode.name} mode (in {routine})"
  | .slotSpaceExhausted requested =>
      s!"too many scratch slots in use ({requested} needed, {cellCount} available)"
  | .invalidProgram fault =>
      match fault.hint? with
      | some hint => s!"{fault.message}\n  hint: {hint}"
      | none => fault.message
  | .malformedGraph fault =>
      s!"internal error: malformed control-flow graph: {fault.message}"
  | .reservedSlotCollision cell =>
      s!"internal error: scratch slot {cell.val} has been assigned more than once"
  | .uninitializedRead slot routine =>
      s!"internal error: {routine} loads {slot.text} on a path with no prior store"
  | .internal fault => s!"internal error: {fault.message}"

def message (error : CompileError) : String := s!"compile error: {error.detail}"

end CompileError

end ContractBackend
