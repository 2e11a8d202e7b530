import ContractBackend.Proofs.Gauge.Basic
import ContractBackend.Proofs.Machine.Effects
import ContractBackend.Proofs.Meaning.Results

/-!
# Dialects and the height of the stack

A dialect says which instructions the code of a routine may contain. Tidy code accesses cells
through slots, calls subroutines by number and branches only as the graph says; regular code
has the immediates its instructions need as well, and the main routine does not return to a
caller. Where the expressions are disciplined, the height of the stack is known at every place.
-/

namespace ContractBackend

namespace Operand

/-- Whether the operand is a number once slots have their cells. -/
def isNumber : Operand → Bool
  | .uint _ | .slot _ | .slotIndex _ => true
  | _ => false

def isLiteral : Operand → Bool
  | .bytes _ | .text _ => true
  | _ => false

def isName : Operand → Bool
  | .name _ => true
  | _ => false

end Operand

variable {instr : Instr} {effect : StackEffect} {height : Nat}

namespace Instr

/-- Whether the instruction accesses a cell through its slot, calls a subroutine by its number,
and does not branch. -/
def isTidy (instr : Instr) : Bool :=
  match instr.op with
  | .load | .store => (instr.operands.head?.bind Operand.slot?).isSome
  | .callsub => (instr.operands.head?.bind Operand.subroutine?).isSome
  | op => !op.isBranch

theorem exists_slot_of_head (named : (instr.operands.head?.bind Operand.slot?).isSome = true) :
    ∃ slot others, instr.operands = .slot slot :: others := by
  cases operands : instr.operands with
  | nil => simp [operands] at named
  | cons head others =>
    cases head with
    | slot slot => exact ⟨slot, others, rfl⟩
    | _ => simp [operands, Operand.slot?] at named

/-- Whether the immediate that the instruction needs is there. -/
def hasImmediate (instr : Instr) : Bool :=
  match instr.op.immediate with
  | .nothing => true
  | .number => instr.operands.head?.any Operand.isNumber
  | .literal => instr.operands.head?.any Operand.isLiteral
  | .name => instr.operands.head?.any Operand.isName

/-- The effect of an instruction, calls included. -/
def effectIn? (declared : SubroutineId → Option Handle) (instr : Instr) : Option StackEffect :=
  match CallGraph.callee? instr with
  | some id => (declared id).map fun handle =>
      ⟨handle.argCount, if handle.returns.isValue then 1 else 0⟩
  | none => instr.effect?

end Instr

/-- The instructions that the code of a routine may contain, besides branches. -/
structure Dialect where
  admits : Instr → Bool
  straight : ∀ {instr : Instr}, admits instr = true → instr.op.isBranch = false

namespace Dialect

theorem isBranch_of_isTidy (tidy : instr.isTidy = true) : instr.op.isBranch = false := by
  rw [Instr.isTidy] at tidy
  cases op : instr.op <;> simp_all [Opcode.isBranch]

/-- Tidy instructions. -/
def tidy : Dialect := ⟨Instr.isTidy, isBranch_of_isTidy⟩

/-- Tidy instructions that have their immediates. The main routine does not return to a
caller. -/
def regular (main : Bool) : Dialect where
  admits instr := instr.isTidy && instr.hasImmediate && !(main && instr.op = .retsub)
  straight := by
    intro instr admitted
    rw [Bool.and_eq_true, Bool.and_eq_true] at admitted
    exact isBranch_of_isTidy admitted.1.1

/-- Regular instructions, without those that move a value down the stack. -/
def plain (main : Bool) : Dialect where
  admits instr := (regular main).admits instr && instr.op != .cover
  straight := by
    intro instr admitted
    rw [Bool.and_eq_true] at admitted
    exact (regular main).straight admitted.1

end Dialect

/-- Whether no instruction but the last one leaves the routine, and the last one does if control
is said to end there. -/
def InlineCode.isProper (code : InlineCode) : Bool :=
  code.instrs.dropLast.all (fun instr => !instr.op.isExit) &&
    (!code.terminates || code.instrs.getLast?.any fun instr => instr.op.isExit)

namespace Expr

mutual

/-- Whether something holds of an expression and of all its parts. -/
def every (holds : Expr → Bool) (expr : Expr) : Bool :=
  holds expr && match expr with
  | .binary _ left right | .storeIndirect left right | .statePut left right
  | .ifThen left right | .whileLoop left right => left.every holds && right.every holds
  | .unary _ part | .retValue part | .store _ part | .loadIndirect part | .stateGet part =>
      part.every holds
  | .ifElse condition thenBranch elseBranch =>
      condition.every holds && thenBranch.every holds && elseBranch.every holds
  | .seq items | .call _ items => everyOf holds items
  | .int _ | .bytes _ | .text _ | .field .. | .sigArg _ | .breakLoop | .continueLoop | .ret
  | .exit _ | .abort | .load .. | .slotIndex _ | .inline _ => true

/-- Whether it holds of several expressions and of all their parts. -/
def everyOf (holds : Expr → Bool) : List Expr → Bool
  | [] => true
  | item :: rest => item.every holds && everyOf holds rest

end

/-- The instructions that an expression becomes, its parts aside. The main routine has no return
without a value. -/
def own (main : Bool) : Expr → List Instr
  | .ret => if main then [] else [⟨.retsub, []⟩]
  | expr => expr.leaf?.getD ((expr.operator? main).toList.map Prod.fst)

/-- Whether something holds of every instruction that an expression and its parts become in the
main routine, or in a subroutine. -/
def emits (main : Bool) (admits : Instr → Bool) : Expr → Bool :=
  every fun part => (part.own main).all admits

/-- Whether all code given instruction by instruction ends as it is said to. -/
def isProper : Expr → Bool :=
  every fun
    | .inline code => code.isProper
    | _ => true

/-- Whether no code is given instruction by instruction. -/
def isCatalog : Expr → Bool :=
  every fun
    | .inline _ => false
    | _ => true

variable {holds holds' : Expr → Bool} {expr : Expr} {items operands : List Expr} {instr : Instr}
  {main : Bool}

theorem everyOf_eq_true : everyOf holds items = true ↔ ∀ item ∈ items, item.every holds = true := by
  induction items with
  | nil => simp [everyOf]
  | cons head tail ih => simp [everyOf, ih]

theorem holds_of_every (all : expr.every holds = true) : holds expr = true := by
  rw [every.eq_def, Bool.and_eq_true] at all
  exact all.1

theorem every_iff : expr.every holds = true ↔
    holds expr = true ∧ ∀ part ∈ expr.parts, part.every holds = true := by
  rw [every.eq_def, Bool.and_eq_true]
  cases expr <;> simp [parts, everyOf_eq_true, and_assoc]

theorem every_of_operator? (isOperator : expr.operator? main = some (instr, operands))
    (all : expr.every holds = true) : ∀ operand ∈ operands, operand.every holds = true :=
  parts_of_operator? isOperator ▸ (every_iff.mp all).2

/-- What follows from something for each expression follows from it for all parts. -/
theorem every_mono (weaker : ∀ part, holds part = true → holds' part = true) (expr : Expr)
    (all : expr.every holds = true) : expr.every holds' = true := by
  induction expr using parts_induction with
  | whole expr ih =>
    obtain ⟨here, parts⟩ := every_iff.mp all
    exact every_iff.mpr ⟨weaker expr here, fun part member => ih part member (parts part member)⟩

theorem isProper_of_isCatalog (catalog : expr.isCatalog = true) : expr.isProper = true := by
  refine every_mono (fun part isNode => ?_) expr catalog
  cases part <;> simp_all

end Expr

/-- What is known of the height of a routine's part of the stack. -/
abbrev Level := Option Nat

namespace Gauge

/-- Code of a dialect, with calls as they are declared and a number of values left behind when
the routine returns, as far as the height is known. -/
def heights (dialect : Dialect) (declared : SubroutineId → Option Handle) (results : Nat) :
    Gauge Level where
  move instr level :=
    if dialect.admits instr then
      match level with
      | none => some none
      | some height =>
          match instr.effectIn? declared with
          | some effect =>
              if effect.pops ≤ height then some (some (height - effect.pops + effect.pushes))
              else none
          | none => none
    else none
  leave instr level := dialect.admits instr = true ∧ ∀ height, level = some height →
    (instr.op = .retsub → height = results) ∧ (instr.op = .ret → 0 < height)
  test level :=
    match level with
    | none => some none
    | some 0 => none
    | some (height + 1) => some (some height)
  straight := by
    intro instr level next moves
    split at moves
    next admitted => exact dialect.straight admitted
    next => cases moves

end Gauge

/-- How many values a routine leaves on the stack when it returns. -/
def Returns.results (returns : Option Returns) : Nat := if returns.any Returns.isValue then 1 else 0

namespace Home

/-- The gauge of the code of a routine. -/
def gauge (home : Home) (dialect : Dialect) : Gauge Level :=
  .heights dialect home.program.declared (Returns.results home.returns)

end Home

namespace Expr

/-- The number of values that an expression leaves on the stack. -/
def width (expr : Expr) : Nat := if expr.ty.isValue then 1 else 0

/-- What is known of the height behind an expression. -/
def raise (expr : Expr) (level : Level) : Level := level.map (· + expr.width)

/-- An expression may be executed at a level. Where the height is known, the stack is empty
wherever control can get out of the expression. -/
structure Fits (main : Bool) (dialect : Dialect) (expr : Expr) (level : Level) : Prop where
  admitted : expr.emits main dialect.admits = true
  proper : expr.isProper = true
  steady : ∀ height, level = some height →
    expr.disciplined = true ∧ (expr.escapes = true → height = 0)

/-- Expressions may be executed one after the other, and control gets out of none of them while
the stack is higher than at first. -/
def FitEach (main : Bool) (dialect : Dialect) (base : Level) : List Expr → Level → Prop
  | [], _ => True
  | item :: rest, level =>
      item.Fits main dialect level ∧ (item.escapes = true → level = base) ∧
        FitEach main dialect base rest (item.raise level)

/-- What is known of the height behind several expressions. -/
def raiseEach (items : List Expr) (level : Level) : Level :=
  items.foldl (fun level item => item.raise level) level

end Expr

/-! ## Code of one block -/

variable {instrs : List Instr}

section Code

variable {dialect : Dialect} {declared : SubroutineId → Option Handle} {results : Nat}
  {behind : Level → Prop} {level next : Level}

/-- Code without a known height. -/
theorem through_unknown (admitted : ∀ instr ∈ instrs, dialect.admits instr = true)
    (goes : ∀ instr ∈ instrs.dropLast, instr.op.isExit = false)
    (holds : (∀ instr ∈ instrs, instr.op.isExit = false) → behind none) :
    (Gauge.heights dialect declared results).Through instrs none behind := by
  induction instrs with
  | nil => exact holds (List.forall_mem_nil _)
  | cons instr rest ih =>
    simp only [Gauge.Through]
    split
    next exits =>
      refine ⟨⟨admitted instr (by simp), fun _ known => by cases known⟩, ?_⟩
      cases rest with
      | nil => rfl
      | cons next more =>
        have early := goes instr (by simp)
        simp [exits] at early
    next goesOn =>
      refine ⟨none, by simp [Gauge.heights, admitted instr (by simp)], ih ?_ ?_ ?_⟩
      · exact fun other member => admitted other (by simp [member])
      · intro other member
        cases rest with
        | nil => simp at member
        | cons next more => exact goes other (by simp [List.dropLast, member])
      · intro stays
        exact holds (by simpa [goesOn] using stays)

/-- An instruction with a known effect. -/
theorem move_heights (admitted : dialect.admits instr = true)
    (known : instr.effectIn? declared = some effect) (enough : effect.pops ≤ height) :
    (Gauge.heights dialect declared results).move instr (some height) =
      some (some (height - effect.pops + effect.pushes)) := by
  simp [Gauge.heights, admitted, known, enough]

theorem admits_of_move
    (moves : (Gauge.heights dialect declared results).move instr level = some next) :
    dialect.admits instr = true := by
  by_contra refused
  simp [Gauge.heights, refused] at moves

/-- What an instruction with a known effect has found and what it leaves. -/
theorem of_move_heights (known : instr.effectIn? declared = some effect)
    (moves : (Gauge.heights dialect declared results).move instr level = some next) :
    (∀ height, level = some height → effect.pops ≤ height) ∧
      next = level.map fun height => height - effect.pops + effect.pushes := by
  cases level with
  | none => simpa [Gauge.heights, admits_of_move moves] using moves.symm
  | some height => simpa [Gauge.heights, admits_of_move moves, known] using moves.symm

/-- Where the height is known, only an instruction with a known effect goes on. -/
theorem exists_effect_of_move
    (moves : (Gauge.heights dialect declared results).move instr (some height) = some next) :
    ∃ effect, instr.effectIn? declared = some effect ∧ effect.pops ≤ height ∧
      next = some (height - effect.pops + effect.pushes) := by
  cases known : instr.effectIn? declared with
  | none => simp [Gauge.heights, known] at moves
  | some effect =>
    obtain ⟨enough, rfl⟩ := of_move_heights known moves
    exact ⟨effect, rfl, enough height rfl, rfl⟩

theorem through_single (admitted : dialect.admits instr = true) (goes : instr.op.isExit = false)
    (known : instr.effectIn? declared = some effect) (enough : effect.pops ≤ height)
    (holds : behind (some (height - effect.pops + effect.pushes))) :
    (Gauge.heights dialect declared results).Through [instr] (some height) behind := by
  simp only [Gauge.Through, goes, Bool.false_eq_true, if_false]
  exact ⟨_, move_heights admitted known enough, holds⟩

theorem through_exit (exits : instr.op.isExit = true)
    (leaves : (Gauge.heights dialect declared results).leave instr level) :
    (Gauge.heights dialect declared results).Through [instr] level behind := by
  simpa only [Gauge.Through, exits, if_true, and_true] using leaves

end Code

namespace Expr

variable {home : Home} {dialect : Dialect} {expr : Expr} {level : Level} {behind : Level → Prop}
  {main : Bool} {operands : List Expr}

theorem raise_of_isValue (isValue : expr.ty.isValue = true) :
    expr.raise (some height) = some (height + 1) := by
  simp [raise, width, isValue]

theorem raise_of_not_isValue (noValue : expr.ty.isValue = false) : expr.raise level = level := by
  cases level <;> simp [raise, width, noValue]

/-- A return without a value stands in a subroutine only. -/
theorem own_of_leaf (isLeaf : expr.leaf? = some instrs) (admitted : expr.Admitted home) :
    expr.own home.isMain = instrs := by
  cases expr with
  | ret =>
    have nothing : home.returns = some .nothing := admitted
    cases isLeaf
    simp [own, Home.isMain, nothing]
  | _ => simp [own, isLeaf]

theorem own_of_operator (isOperator : expr.operator? main = some (instr, operands)) :
    expr.own main = [instr] := by
  have noLeaf := leaf?_of_operator? isOperator
  cases expr with
  | ret => cases isOperator
  | _ => simp [own, noLeaf, isOperator]

/-- A leaf leaves the routine with its last instruction only, and does if control ends there. -/
theorem exits_of_leaf (isLeaf : expr.leaf? = some instrs) (proper : expr.isProper = true) :
    (∀ instr ∈ instrs.dropLast, instr.op.isExit = false) ∧
      ((∀ instr ∈ instrs, instr.op.isExit = false) → expr.terminates = false) := by
  cases expr with
  | inline code =>
    cases isLeaf
    have ends : code.isProper = true := holds_of_every proper
    simp only [InlineCode.isProper, Bool.and_eq_true, List.all_eq_true, Bool.or_eq_true,
      Bool.not_eq_true'] at ends
    refine ⟨ends.1, fun goes => ends.2.resolve_right fun exits => ?_⟩
    rw [Option.any_eq_true] at exits
    obtain ⟨last, isLast, exits⟩ := exits
    simp [goes last (List.mem_of_getLast? isLast)] at exits
  | seq items =>
    cases items with
    | nil => cases isLeaf; exact ⟨List.forall_mem_nil _, fun _ => rfl⟩
    | cons => cases isLeaf
  | ret | abort | exit =>
    cases isLeaf
    simp [Instr.int, Opcode.isExit]
  | _ =>
    cases isLeaf
    try exact ⟨List.forall_mem_nil _, fun _ => rfl⟩

/-- The code of a leaf may be executed. -/
theorem through_leaf (isLeaf : expr.leaf? = some instrs) (admitted : expr.Admitted home)
    (fits : expr.Fits home.isMain dialect level)
    (holds : expr.terminates = false → behind (expr.raise level)) :
    (home.gauge dialect).Through instrs level behind := by
  have allowed : ∀ instr ∈ instrs, dialect.admits instr = true := by
    have here := holds_of_every fits.admitted
    rwa [own_of_leaf isLeaf admitted, List.all_eq_true] at here
  cases level with
  | none =>
    obtain ⟨early, ends⟩ := exits_of_leaf isLeaf fits.proper
    exact through_unknown allowed early fun goes => holds (ends goes)
  | some height =>
    obtain ⟨disciplined, empty⟩ := fits.steady height rfl
    cases expr with
    | int | bytes | text | sigArg | slotIndex =>
      cases isLeaf
      exact through_single (allowed _ (by simp)) rfl rfl (Nat.zero_le _) (holds rfl)
    | field source name ty =>
      cases isLeaf
      have isValue : (field source name ty).ty.isValue = true := disciplined
      rw [raise_of_isValue isValue] at holds
      cases source <;>
        exact through_single (allowed _ (by simp)) rfl rfl (Nat.zero_le _) (holds rfl)
    | load slot ty =>
      cases isLeaf
      have isValue : (load slot ty).ty.isValue = true := disciplined
      rw [raise_of_isValue isValue] at holds
      exact through_single (allowed _ (by simp)) rfl rfl (Nat.zero_le _) (holds rfl)
    | seq items =>
      cases items with
      | nil => cases isLeaf; exact holds rfl
      | cons => cases isLeaf
    | ret =>
      cases isLeaf
      refine through_exit rfl ⟨allowed _ (by simp), fun _ same => ?_⟩
      cases same
      have nothing : home.returns = some .nothing := admitted
      simp [Returns.results, nothing, empty rfl, Returns.isValue]
    | exit approved =>
      cases isLeaf
      refine ⟨_, move_heights (allowed _ (by simp)) rfl (Nat.zero_le _),
        through_exit rfl ⟨allowed _ (by simp), fun _ same => ?_⟩⟩
      cases same
      simp
    | abort =>
      cases isLeaf
      exact through_exit rfl ⟨allowed _ (by simp), fun _ _ => ⟨by rintro ⟨⟩, by rintro ⟨⟩⟩⟩
    | inline => cases disciplined
    | _ => cases isLeaf

/-- Operands may be executed one after the other, and each leaves one value. -/
theorem fitEach_operands
    (fits : ∀ operand ∈ operands, ∀ height, operand.Fits main dialect (some height))
    (good : ∀ operand ∈ operands, operand.isOperand = true) (base : Level) (height : Nat) :
    FitEach main dialect base operands (some height) ∧
      raiseEach operands (some height) = some (height + operands.length) := by
  induction operands generalizing height with
  | nil => exact ⟨trivial, rfl⟩
  | cons operand rest ih =>
    rw [List.forall_mem_cons] at fits good
    have isOperand := good.1
    rw [Expr.isOperand, Bool.and_eq_true, Bool.not_eq_true'] at isOperand
    obtain ⟨isValue, stays⟩ := isOperand
    obtain ⟨others, raised⟩ := ih fits.2 good.2 (height + 1)
    rw [FitEach, raiseEach, List.foldl_cons, raise_of_isValue isValue]
    refine ⟨⟨fits.1 height, by simp [stays], others⟩, raised.trans ?_⟩
    rw [List.length_cons, Nat.add_assoc, Nat.add_comm 1]

theorem fitEach_none (fits : ∀ operand ∈ operands, operand.Fits main dialect none) :
    FitEach main dialect none operands none ∧ raiseEach operands none = none := by
  induction operands with
  | nil => exact ⟨trivial, rfl⟩
  | cons operand rest ih =>
    rw [List.forall_mem_cons] at fits
    obtain ⟨others, raised⟩ := ih fits.2
    exact ⟨⟨fits.1, fun _ => rfl, others⟩, raised⟩

theorem isValue_returns {returns : Returns} (sound : returns ≠ .value .none) :
    returns.ty.isValue = returns.isValue := by
  rcases returns with _ | _ | _ <;> first | rfl | exact absurd rfl sound

/-- What the instruction behind operands does to the stack: it takes the values of the operands
off and leaves that of the expression. -/
theorem effect_of_operator (isOperator : expr.operator? home.isMain = some (instr, operands))
    (admitted : expr.Admitted home) (disciplined : expr.disciplined = true)
    (goes : instr.op.isExit = false) :
    instr.effectIn? home.program.declared = some ⟨operands.length, expr.width⟩ := by
  cases expr with
  | binary op | unary op => cases isOperator; cases op <;> rfl
  | store | stateGet | statePut | loadIndirect | storeIndirect => cases isOperator; rfl
  | retValue =>
    cases isOperator
    cases isMain : home.isMain <;> simp [isMain, Opcode.isExit] at goes
  | call target arguments =>
    cases isOperator
    obtain ⟨⟨subroutine, resolved⟩, count, _⟩ := admitted
    obtain ⟨found, rfl⟩ := Program.resolve_eq_ok.mp resolved
    have callee : CallGraph.callee? (.callsub subroutine.handle.id) =
        some subroutine.handle.id := rfl
    simp only [Expr.disciplined, Bool.and_eq_true, decide_eq_true_eq] at disciplined
    simp only [Instr.effectIn?, callee, Program.declared, found, Option.map_some, count, width,
      ty, isValue_returns disciplined.1.1]
  | _ => cases isOperator

/-- The instruction behind operands goes on unless it returns their value. -/
theorem isExit_of_operator (isOperator : expr.operator? main = some (instr, operands)) :
    instr.op.isExit = expr.terminates := by
  cases expr with
  | binary op | unary op => cases isOperator; cases op <;> rfl
  | retValue => cases isOperator; cases main <;> rfl
  | store | loadIndirect | storeIndirect | stateGet | statePut | call => cases isOperator; rfl
  | _ => cases isOperator

/-- What returns the value of an operand leaves nothing else behind. -/
theorem leave_of_operator (isOperator : expr.operator? home.isMain = some (instr, operands))
    (admitted : expr.Admitted home) (exits : instr.op.isExit = true)
    (empty : expr.escapes = true → height = 0) :
    (instr.op = .retsub → height + operands.length = Returns.results home.returns) ∧
      (instr.op = .ret → 0 < height + operands.length) := by
  cases expr with
  | retValue value =>
    cases isOperator
    refine ⟨fun isRetsub => ?_, fun _ => Nat.succ_pos _⟩
    rcases admitted with isMain | ⟨⟨ty, returns⟩, -⟩
    · simp [Home.isMain, isMain] at isRetsub
    · simp [Returns.results, returns, Returns.isValue, empty rfl]
  | _ =>
    rw [isExit_of_operator isOperator] at exits
    simp_all [operator?, terminates]

/-- The instruction behind operands may be executed. -/
theorem through_operator (isOperator : expr.operator? home.isMain = some (instr, operands))
    (admitted : expr.Admitted home) (fits : expr.Fits home.isMain dialect level)
    (holds : expr.terminates = false → behind (expr.raise level)) :
    FitEach home.isMain dialect level operands level ∧
      (home.gauge dialect).Through [instr] (raiseEach operands level) behind := by
  have allowed : dialect.admits instr = true := by
    have here := holds_of_every fits.admitted
    rwa [own_of_operator isOperator, List.all_cons, List.all_nil, Bool.and_true] at here
  have emitted := every_of_operator? isOperator fits.admitted
  have proper := every_of_operator? isOperator fits.proper
  cases level with
  | none =>
    obtain ⟨each, raised⟩ := fitEach_none fun operand member =>
      Fits.mk (emitted operand member) (proper operand member) nofun
    refine ⟨each, ?_⟩
    rw [raised]
    refine through_unknown (by simpa using allowed) (by simp) fun goes => ?_
    exact holds (by simpa [isExit_of_operator isOperator] using goes)
  | some height =>
    obtain ⟨disciplined, empty⟩ := fits.steady height rfl
    have good := disciplined_of_operator? isOperator disciplined
    have stays : ∀ operand ∈ operands, operand.escapes = false := by
      intro operand member
      have isOperand := (good operand member).1
      rw [Expr.isOperand, Bool.and_eq_true, Bool.not_eq_true'] at isOperand
      exact isOperand.2
    obtain ⟨each, raised⟩ := fitEach_operands
      (fun operand member _ => Fits.mk (emitted operand member) (proper operand member)
        fun _ _ => ⟨(good operand member).2, by simp [stays operand member]⟩)
      (fun operand member => (good operand member).1) (some height) height
    refine ⟨each, ?_⟩
    rw [raised]
    cases goes : instr.op.isExit with
    | true =>
      refine through_exit goes ⟨allowed, fun _ same => ?_⟩
      cases same
      exact leave_of_operator isOperator admitted goes empty
    | false =>
      refine through_single allowed goes
        (effect_of_operator isOperator admitted disciplined goes) (Nat.le_add_left _ _) ?_
      rw [Nat.add_sub_cancel]
      exact holds ((isExit_of_operator isOperator).symm.trans goes)

theorem emits_mono {admits admits' : Instr → Bool}
    (weaker : ∀ instr, admits instr = true → admits' instr = true)
    (emitted : expr.emits main admits = true) : expr.emits main admits' = true := by
  refine every_mono (fun part all => ?_) expr emitted
  rw [List.all_eq_true] at all ⊢
  exact fun instr member => weaker instr (all instr member)

/-- Lowering makes plain code of all expressions whose code is not given instruction by
instruction. -/
theorem emits_plain_of_isCatalog (main : Bool) (catalog : expr.isCatalog = true) :
    expr.emits main (Dialect.plain main).admits = true := by
  refine every_mono (fun part isNode => ?_) expr catalog
  cases part with
  | inline => cases isNode
  | seq items => cases items <;> simp [own, leaf?, operator?]
  | binary op | unary op => cases op <;> cases main <;> rfl
  | field source => cases source <;> cases main <;> rfl
  | _ => cases main <;> rfl

theorem emits_of_isCatalog (main : Bool) (catalog : expr.isCatalog = true) :
    expr.emits main (Dialect.regular main).admits = true := by
  refine emits_mono (fun instr admitted => ?_) (emits_plain_of_isCatalog main catalog)
  rw [Dialect.plain, Bool.and_eq_true] at admitted
  exact admitted.1

/-- Disciplined expressions are of the catalog. -/
theorem isCatalog_of_disciplined (expr : Expr) (disciplined : expr.disciplined = true) :
    expr.isCatalog = true := by
  induction expr using parts_induction with
  | whole expr ih =>
    refine every_iff.mpr ⟨?_, fun part isPart =>
      ih part isPart (disciplined_of_part isPart disciplined)⟩
    cases expr with
    | inline => cases disciplined
    | _ => rfl

theorem fits_disciplined (disciplined : expr.disciplined = true) (main : Bool) :
    expr.Fits main (.regular main) (some 0) := by
  have catalog := expr.isCatalog_of_disciplined disciplined
  refine ⟨emits_of_isCatalog main catalog, isProper_of_isCatalog catalog, fun height known => ?_⟩
  cases known
  exact ⟨disciplined, fun _ => rfl⟩

end Expr

end ContractBackend
