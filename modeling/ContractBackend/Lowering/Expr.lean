import ContractBackend.Lowering.Context

/-!
# Lowering of expressions

An expression becomes blocks of the graph at hand. The last of them is a simple block without a
successor, to which the caller links what follows.
-/

namespace ContractBackend

namespace Lowering

/-- Refuse an expression that the target version cannot express. -/
def requireVersion (expr : Expr) : LowerM Unit := do
  let context ← get
  if context.version < expr.minVersion then
    throw (.versionMismatch expr.name expr.minVersion context.version context.routineName)

/-- Lower further pieces of code, each behind the one before, and give the last block. -/
def chainFrom (exit : BlockId) : List (LowerM Span) → LowerM BlockId
  | [] => pure exit
  | piece :: rest => do
      let span ← piece
      setNext exit span.entry
      chainFrom span.exit rest

/-- Lower pieces of code one behind the other. -/
def chain (first : LowerM Span) (rest : List (LowerM Span)) : LowerM Span := do
  let span ← first
  pure ⟨span.entry, ← chainFrom span.exit rest⟩

/-- An instruction behind the code of its operands. Its block is the first one added. -/
def fromInstr (instr : Instr) (operands : List (LowerM Span)) : LowerM Span := do
  let block ← simple [instr]
  match operands with
  | [] => pure ⟨block, block⟩
  | first :: rest =>
      let span ← chain first rest
      setNext span.exit block
      pure ⟨span.entry, block⟩

/-- Refuse a value in front of the last of several expressions. -/
def checkItems : List Expr → LowerM Unit
  | [] | [_] => pure ()
  | item :: rest => do
      if item.ty.isValue then throw (.invalidProgram (.strayValue item.name))
      checkItems rest

/-- Refuse branches of which one leaves a value and the other one goes on without. -/
def checkBranches (thenBranch elseBranch : Expr) : LowerM Unit :=
  if thenBranch.ty.isValue ≠ elseBranch.ty.isValue ∧
      !thenBranch.terminates ∧ !elseBranch.terminates then
    throw (.invalidProgram (.branchesDisagree thenBranch.ty elseBranch.ty))
  else
    pure ()

/-- The condition of a branch and the block that decides on it. -/
def lowerCondition (condition : LowerM Span) : LowerM Span := do
  let span ← condition
  let branch ← conditional
  setNext span.exit branch
  pure ⟨span.entry, branch⟩

def lowerRet : LowerM Span := do
  let context ← get
  match context.current.map Handle.returns with
  | none => throw (.invalidProgram .returnWithoutValue)
  | some .nothing => single ⟨.retsub, []⟩
  | some (.value _) => throw (.invalidProgram (.returnMissesValue context.routineName))

/-- Leave the routine at hand with the value of an expression. -/
def lowerRetValue (value : Expr) (code : LowerM Span) : LowerM Span := do
  let context ← get
  match context.current.map Handle.returns with
  | none => fromInstr ⟨.ret, []⟩ [code]
  | some (.value _) =>
      if value.ty.isValue then
        fromInstr ⟨.retsub, []⟩ [code]
      else
        throw (.invalidProgram (.returnedNoValue context.routineName value.name))
  | some .nothing => throw (.invalidProgram (.returnHasValue context.routineName))

/-- Refuse a call of a subroutine of another program, or with unfit arguments. -/
def checkCall (target : Handle) (arguments : List Expr) : LowerM Unit := do
  let context ← get
  let _ ← context.program.resolve target
  if arguments.length ≠ target.argCount then
    throw (.invalidProgram (.argumentCount target.name target.argCount arguments.length))
  match arguments.find? fun argument => !argument.ty.isValue with
  | some argument =>
      throw (.invalidProgram (.argumentWithoutValue argument.name target.name))
  | none => pure ()

end Lowering

namespace Expr

open Lowering

mutual

def lower (expr : Expr) : LowerM Span := do
  requireVersion expr
  match expr with
  | .int value => single (.int value)
  | .bytes value => single ⟨.byte, [.bytes value]⟩
  | .text value => single ⟨.byte, [.text value]⟩
  | .field source name _ => single ⟨source.opcode, [.name name]⟩
  | .sigArg index => single (.immediate .arg index.toUInt64)
  | .binary op left right => fromInstr ⟨op.opcode, []⟩ [left.lower, right.lower]
  | .unary op operand =>
      if operand.ty.isValue then
        fromInstr ⟨op.opcode, []⟩ [operand.lower]
      else
        throw (.invalidProgram (.operandWithoutValue op.opcode.mnemonic operand.name))
  | .seq items => do
      checkItems items
      match lowerEach items with
      | [] =>
          let block ← simple []
          pure ⟨block, block⟩
      | first :: rest => chain first rest
  | .ifThen condition thenBranch => do
      if thenBranch.ty.isValue then throw (.invalidProgram .valueWithoutElse)
      let branch ← lowerCondition condition.lower
      let thenSpan ← thenBranch.lower
      let join ← simple []
      setNext thenSpan.exit join
      setBranches branch.exit thenSpan.entry join
      pure ⟨branch.entry, join⟩
  | .ifElse condition thenBranch elseBranch => do
      checkBranches thenBranch elseBranch
      let branch ← lowerCondition condition.lower
      let thenSpan ← thenBranch.lower
      let join ← simple []
      setNext thenSpan.exit join
      let elseSpan ← elseBranch.lower
      setNext elseSpan.exit join
      setBranches branch.exit thenSpan.entry elseSpan.entry
      pure ⟨branch.entry, join⟩
  | .whileLoop condition body => do
      if body.ty.isValue then throw (.invalidProgram .valueFromLoopBody)
      let branch ← lowerCondition condition.lower
      enterLoop
      let outcome ← attempt body.lower
      let exits ← exitLoop
      let bodySpan ← outcome
      let join ← simple []
      setBranches branch.exit bodySpan.entry join
      setNext bodySpan.exit branch.entry
      exits.breaks.forM fun block => setNext block join
      exits.continues.forM fun block => setNext block branch.entry
      pure ⟨branch.entry, join⟩
  | .breakLoop => do
      let block ← simple []
      addBreak block
      pure ⟨block, block⟩
  | .continueLoop => do
      let block ← simple []
      addContinue block
      pure ⟨block, block⟩
  | .ret => lowerRet
  | .retValue value => lowerRetValue value value.lower
  | .exit approved => do
      let block ← simple [.int (if approved then 1 else 0), ⟨.ret, []⟩]
      pure ⟨block, block⟩
  | .abort => single ⟨.err, []⟩
  | .store slot value =>
      if value.ty.isValue then
        fromInstr (.store slot) [value.lower]
      else
        throw (.invalidProgram (.storedNoValue value.name))
  | .load slot _ => single (.load slot)
  | .slotIndex slot => single ⟨.int, [.slotIndex slot]⟩
  | .loadIndirect index => fromInstr ⟨.loads, []⟩ [index.lower]
  | .storeIndirect index value => fromInstr ⟨.stores, []⟩ [index.lower, value.lower]
  | .stateGet key => fromInstr ⟨.appGlobalGet, []⟩ [key.lower]
  | .statePut key value => fromInstr ⟨.appGlobalPut, []⟩ [key.lower, value.lower]
  | .call target arguments => do
      checkCall target arguments
      reference target.id
      fromInstr (.callsub target.id) (lowerEach arguments)
  | .inline code => do
      let block ← simple code.instrs
      pure ⟨block, block⟩

def lowerEach : List Expr → List (LowerM Span)
  | [] => []
  | item :: rest => item.lower :: lowerEach rest

end

end Expr

end ContractBackend
