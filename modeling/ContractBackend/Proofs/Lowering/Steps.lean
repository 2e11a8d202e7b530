import ContractBackend.Lowering.Expr
import ContractBackend.Proofs.Search

/-!
# Steps of lowering

What a successful step of lowering does to its context, as one equivalence for each
step. Later proofs take a lowering apart with these and do not open the steps again.

Most expressions become a single block, or an instruction behind the code of its
operands. Only sequences, branches and loops have code of another form. Proofs about
all expressions go by these forms.
-/

namespace ContractBackend

namespace Graph

variable {graph : Graph} {source target onTrue onFalse id : BlockId}

theorem size_push (block : Block) : (graph.push block).size = graph.size + 1 := by
  simp [push, size]

theorem size_modify (id : BlockId) (change : Block → Block) :
    (graph.modify id change).size = graph.size := by
  simp [modify, size]

theorem block_push_size (block : Block) : (graph.push block).block graph.size = block := by
  simp [Graph.block, push, size]

theorem block_modify_of_ne {other : BlockId} (change : Block → Block) (different : other ≠ id) :
    (graph.modify id change).block other = graph.block other := by
  simp [Graph.block, modify, Array.getElem?_modify, Ne.symm different]

theorem block_modify_self (change : Block → Block) (inside : id < graph.size) :
    (graph.modify id change).block id = change (graph.block id) := by
  have bound : id < graph.blocks.size := inside
  simp [Graph.block, modify, Array.getElem_modify, bound]

theorem block_modify_of_le {other : BlockId} (change : Block → Block) (beyond : ¬ id < graph.size) :
    (graph.modify id change).block other = graph.block other := by
  by_cases same : other = id
  · subst same
    have absent : graph.blocks[other]? = none := Array.getElem?_eq_none (Nat.le_of_not_lt beyond)
    simp [Graph.block, modify, Array.getElem?_modify, absent]
  · exact block_modify_of_ne change same

/-- Link a block to its successor. -/
def linked (graph : Graph) (source target : BlockId) : Graph :=
  graph.modify source fun block => { block with shape := .simple (some target) }

/-- Link a block to its two targets. -/
def branched (graph : Graph) (source onTrue onFalse : BlockId) : Graph :=
  graph.modify source fun block =>
    { block with shape := .conditional (some onTrue) (some onFalse) }

theorem setNext_eq_ok {after : Graph} :
    graph.setNext source target = .ok after ↔
      source < graph.size ∧ target < graph.size ∧
        (∃ next, (graph.block source).shape = .simple next) ∧
        graph.linked source target = after := by
  simp only [setNext, Fallible.check_eq_ok, checkBlock_eq_ok]
  cases (graph.block source).shape <;> simp [linked]

theorem setBranches_eq_ok {after : Graph} :
    graph.setBranches source onTrue onFalse = .ok after ↔
      source < graph.size ∧ onTrue < graph.size ∧ onFalse < graph.size ∧
        (∃ first second, (graph.block source).shape = .conditional first second) ∧
        graph.branched source onTrue onFalse = after := by
  simp only [setBranches, Fallible.check_eq_ok, checkBlock_eq_ok]
  cases (graph.block source).shape <;> simp [branched]

end Graph

namespace Lowering

variable {α β : Type} {context after : Context}

/-- What a step comes to in a context. -/
def outcome (step : LowerM α) (context : Context) : Except CompileError α × Context :=
  step context

/-- A step succeeds in one context with a result and leaves another context. -/
def Yields (step : LowerM α) (context : Context) (result : α) (after : Context) : Prop :=
  outcome step context = (.ok result, after)

theorem outcome_bind (first : LowerM α) (rest : α → LowerM β) (context : Context) :
    outcome (first >>= rest) context = match outcome first context with
      | (.ok value, middle) => outcome (rest value) middle
      | (.error cause, middle) => (.error cause, middle) := by
  have unfolded : outcome (first >>= rest) context =
      (ExceptT.bindCont rest (outcome first context).1) (outcome first context).2 := rfl
  rw [unfolded]
  rcases outcome first context with ⟨_ | _, _⟩ <;> rfl

theorem yields_bind {first : LowerM α} {rest : α → LowerM β} {result : β} :
    Yields (first >>= rest) context result after ↔
      ∃ value middle, Yields first context value middle ∧
        Yields (rest value) middle result after := by
  simp only [Yields, outcome_bind]
  rcases outcome first context with ⟨_ | value, middle⟩
  · simp
  · simp

theorem yields_pure {value result : α} :
    Yields (pure value) context result after ↔ value = result ∧ context = after := by
  have unfolded : outcome (pure value) context = (.ok value, context) := rfl
  simp [Yields, unfolded]

theorem yields_lift {value : Except CompileError α} {result : α} :
    Yields (liftM value) context result after ↔ value = .ok result ∧ context = after := by
  have unfolded : outcome (liftM value : LowerM α) context = (value, context) := rfl
  simp [Yields, unfolded]

theorem yields_get {result : Context} :
    Yields get context result after ↔ context = result ∧ context = after := by
  have unfolded : outcome get context = (.ok context, context) := rfl
  simp [Yields, unfolded]

theorem yields_set {next : Context} {result : PUnit} :
    Yields (set next) context result after ↔ next = after := by
  have unfolded : outcome (set next : LowerM PUnit) context = (.ok ⟨⟩, next) := rfl
  simp [Yields, unfolded]

theorem yields_modify {change : Context → Context} {result : PUnit} :
    Yields (modify change) context result after ↔ change context = after := by
  have unfolded : outcome (modify change : LowerM PUnit) context = (.ok ⟨⟩, change context) := rfl
  simp [Yields, unfolded]

theorem yields_addBlock {block : Block} {id : BlockId} :
    Yields (addBlock block) context id after ↔
      context.graph.size = id ∧ { context with graph := context.graph.push block } = after := by
  have unfolded : outcome (addBlock block) context =
      (.ok context.graph.size, { context with graph := context.graph.push block }) := rfl
  simp [Yields, unfolded]

theorem yields_attempt {step : LowerM α} {result : Except CompileError α} :
    Yields (attempt step) context result after ↔ outcome step context = (result, after) := by
  have unfolded : outcome (attempt step) context =
      (.ok (outcome step context).1, (outcome step context).2) := rfl
  simp [Yields, unfolded, Prod.ext_iff]

theorem yields_setNext {source target : BlockId} {result : Unit} :
    Yields (setNext source target) context result after ↔
      ∃ graph, context.graph.setNext source target = .ok graph ∧
        { context with graph } = after := by
  simp only [setNext, yields_bind, yields_get, yields_lift, yields_set]
  grind

theorem yields_setBranches {source onTrue onFalse : BlockId} {result : Unit} :
    Yields (setBranches source onTrue onFalse) context result after ↔
      ∃ graph, context.graph.setBranches source onTrue onFalse = .ok graph ∧
        { context with graph } = after := by
  simp only [setBranches, yields_bind, yields_get, yields_lift, yields_set]
  grind

end Lowering

namespace Expr

/-- The instructions of an expression that becomes a single block. -/
def leaf? : Expr → Option (List Instr)
  | .int value => some [.int value]
  | .bytes value => some [⟨.byte, [.bytes value]⟩]
  | .text value => some [⟨.byte, [.text value]⟩]
  | .field source name _ => some [⟨source.opcode, [.name name]⟩]
  | .sigArg index => some [.immediate .arg index.toUInt64]
  | .seq [] => some []
  | .ret => some [⟨.retsub, []⟩]
  | .exit approved => some [.int (if approved then 1 else 0), ⟨.ret, []⟩]
  | .abort => some [⟨.err, []⟩]
  | .load slot _ => some [.load slot]
  | .slotIndex slot => some [⟨.int, [.slotIndex slot]⟩]
  | .inline code => some code.instrs
  | _ => none

/-- The instruction and the operands of an expression that becomes an instruction behind the
code of its operands. What leaves a routine with a value differs in the main routine. -/
def operator? (main : Bool) : Expr → Option (Instr × List Expr)
  | .binary op left right => some (⟨op.opcode, []⟩, [left, right])
  | .unary op operand => some (⟨op.opcode, []⟩, [operand])
  | .retValue value => some (⟨if main then .ret else .retsub, []⟩, [value])
  | .store slot value => some (.store slot, [value])
  | .loadIndirect index => some (⟨.loads, []⟩, [index])
  | .storeIndirect index value => some (⟨.stores, []⟩, [index, value])
  | .stateGet key => some (⟨.appGlobalGet, []⟩, [key])
  | .statePut key value => some (⟨.appGlobalPut, []⟩, [key, value])
  | .call target arguments => some (.callsub target.id, arguments)
  | _ => none

theorem leaf?_of_operator? {main : Bool} {expr : Expr} {operation : Instr × List Expr}
    (isOperator : expr.operator? main = some operation) : expr.leaf? = none := by
  cases expr <;> simp_all [operator?, leaf?]

/-- The expressions that an expression is made of. -/
def parts : Expr → List Expr
  | .binary _ left right | .storeIndirect left right | .statePut left right
  | .ifThen left right | .whileLoop left right => [left, right]
  | .unary _ part | .retValue part | .store _ part | .loadIndirect part | .stateGet part => [part]
  | .ifElse condition thenBranch elseBranch => [condition, thenBranch, elseBranch]
  | .seq items | .call _ items => items
  | _ => []

theorem parts_of_operator? {main : Bool} {expr : Expr} {instr : Instr} {operands : List Expr}
    (isOperator : expr.operator? main = some (instr, operands)) : expr.parts = operands := by
  cases expr <;> cases isOperator <;> rfl

theorem sizeOf_lt_of_mem_parts {expr part : Expr} (member : part ∈ expr.parts) :
    sizeOf part < sizeOf expr := by
  have inList := List.sizeOf_lt_of_mem member
  cases expr <;> simp [parts] at member inList ⊢ <;> grind

/-- What holds of an expression wherever it holds of its parts holds of every expression. -/
@[elab_as_elim]
theorem parts_induction {motive : Expr → Prop}
    (whole : ∀ expr : Expr, (∀ part ∈ expr.parts, motive part) → motive expr) (expr : Expr) :
    motive expr :=
  whole expr fun part _ => parts_induction whole part
termination_by sizeOf expr
decreasing_by exact sizeOf_lt_of_mem_parts ‹_›

/-- What holds of an expression whenever it holds of its parts, form by form. -/
structure Compositional (main : Bool) (motive : Expr → Prop) : Prop where
  leaf : ∀ expr instrs, expr.leaf? = some instrs → motive expr
  operator : ∀ expr instr operands, expr.operator? main = some (instr, operands) →
    (∀ operand ∈ operands, motive operand) → motive expr
  seq : ∀ init last, (∀ item ∈ init, motive item) → motive last → motive (.seq (init ++ [last]))
  ifThen : ∀ condition thenBranch, motive condition → motive thenBranch →
    motive (.ifThen condition thenBranch)
  ifElse : ∀ condition thenBranch elseBranch, motive condition → motive thenBranch →
    motive elseBranch → motive (.ifElse condition thenBranch elseBranch)
  whileLoop : ∀ condition body, motive condition → motive body →
    motive (.whileLoop condition body)
  breakLoop : motive .breakLoop
  continueLoop : motive .continueLoop

namespace Compositional

variable {main : Bool} {motive : Expr → Prop}

/-- Induction on expressions by their forms. -/
theorem all (property : Compositional main motive) (expr : Expr) : motive expr := by
  induction expr using parts_induction with
  | whole expr holds =>
    cases expr with
    | seq items =>
      rcases List.eq_nil_or_concat items with rfl | ⟨init, last, rfl⟩
      · exact property.leaf _ _ rfl
      · rw [List.concat_eq_append] at holds ⊢
        exact property.seq _ _ (fun item member => holds item (List.mem_append_left _ member))
          (holds last (List.mem_append_right _ List.mem_cons_self))
    | ifThen condition thenBranch =>
      exact property.ifThen _ _ (holds condition (by simp [parts]))
        (holds thenBranch (by simp [parts]))
    | ifElse condition thenBranch elseBranch =>
      exact property.ifElse _ _ _ (holds condition (by simp [parts]))
        (holds thenBranch (by simp [parts])) (holds elseBranch (by simp [parts]))
    | whileLoop condition body =>
      exact property.whileLoop _ _ (holds condition (by simp [parts]))
        (holds body (by simp [parts]))
    | breakLoop => exact property.breakLoop
    | continueLoop => exact property.continueLoop
    | binary | unary | retValue | store | loadIndirect | storeIndirect | stateGet | statePut
    | call => exact property.operator _ _ _ rfl holds
    | _ => exact property.leaf _ _ rfl

end Compositional

end Expr

/-- The routine that an expression stands in: its program and what the routine leaves on the
stack when it returns, which the main routine does not. -/
structure Home where
  program : Program
  returns : Option Returns

namespace Home

/-- Whether this is the main routine. -/
def isMain (home : Home) : Bool := home.returns.isNone

end Home

/-- The routine at hand. -/
def Context.home (context : Context) : Home :=
  ⟨context.program, context.current.map Handle.returns⟩

/-- What lowering checks of an expression, its parts and its version aside. -/
def Expr.Admitted (home : Home) : Expr → Prop
  | .call target arguments =>
      (∃ subroutine, home.program.resolve target = .ok subroutine) ∧
        arguments.length = target.argCount ∧ ∀ argument ∈ arguments, argument.ty.isValue = true
  | .ret => home.returns = some .nothing
  | .retValue value =>
      home.returns = none ∨ (∃ ty, home.returns = some (.value ty)) ∧ value.ty.isValue = true
  | .unary _ operand => operand.ty.isValue = true
  | .store _ value => value.ty.isValue = true
  | _ => True

end ContractBackend
