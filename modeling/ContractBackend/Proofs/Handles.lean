import ContractBackend.Proofs.Lowering.Outcomes
import ContractBackend.Proofs.Registry

/-!
# Handles of other programs

A handle says nothing of the program that issued it. A program takes a handle for its own exactly
if it has itself issued an equal one, and refuses every other, whatever is to be done with it.
-/

namespace ContractBackend

variable {program : Program} {handle : Handle}

/-- A subroutine is called somewhere in an expression. -/
inductive Expr.Calls (handle : Handle) : Expr → Prop where
  | call (arguments : List Expr) : Calls handle (.call handle arguments)
  | part {expr part : Expr} : part ∈ expr.parts → Calls handle part → Calls handle expr

namespace Expr.Passes

variable {home : Home} {ids : List SubroutineId} {expr : Expr}

theorem parts_of_leaf? {instrs : List Instr} (isLeaf : expr.leaf? = some instrs) :
    expr.parts = [] := by
  rw [leaf?.eq_def] at isLeaf
  split at isLeaf <;> cases isLeaf <;> rfl

theorem part (passes : expr.Passes home ids) : ∀ part ∈ expr.parts, part.Passes home ids := by
  cases passes with
  | leaf isLeaf => simp [parts_of_leaf? isLeaf]
  | operator isOperator _ _ each => exact parts_of_operator? isOperator ▸ each
  | seq _ each => exact each
  | ifThen _ condition branch => simp [parts, condition, branch]
  | ifElse _ condition branch alternative => simp [parts, condition, branch, alternative]
  | whileLoop _ condition body => simp [parts, condition, body]
  | breakLoop | continueLoop => simp [parts]

theorem declared_of_calls (passes : expr.Passes home ids) (calls : expr.Calls handle) :
    home.program.declared handle.id = some handle := by
  induction calls with
  | call arguments =>
    cases passes with
    | leaf isLeaf => cases isLeaf
    | operator _ admitted =>
      obtain ⟨⟨subroutine, resolved⟩, _⟩ := admitted
      obtain ⟨found, same⟩ := Program.resolve_eq_ok.mp resolved
      rw [Program.declared, found, Option.map_some, same]
  | part isPart _ ih => exact ih (passes.part _ isPart)

end Expr.Passes

/-- A program has nothing to do with a handle: it is not resolved, it is given no body, and it can
be called nowhere. -/
structure Program.Refuses (program : Program) (handle : Handle) : Prop where
  resolve : program.resolve handle = .error (.invalidProgram (.foreignSubroutine handle.name))
  implement : ∀ locals build, (Program.implement handle locals build).run program =
    (.error (.invalidProgram (.foreignSubroutine handle.name)), program)
  call : ∀ (context : Context) arguments, context.program = program → 4 ≤ context.version →
    Lowering.outcome (Expr.call handle arguments).lower context =
      (.error (.invalidProgram (.foreignSubroutine handle.name)), context)
  calls : ∀ (context : Context) (expr : Expr), context.program = program → expr.Calls handle →
    ¬ Lowering.Succeeds expr.lower context

theorem Program.refuses_iff :
    program.Refuses handle ↔ program.declared handle.id ≠ some handle := by
  constructor
  · intro refuses
    exact (resolve_eq_error.mp refuses.resolve).1
  · intro other
    have resolve := resolve_eq_error.mpr ⟨other, rfl⟩
    refine ⟨resolve, fun locals build => ?_, ?_, ?_⟩
    · rw [run_implement, resolve]
    · rintro context arguments rfl recent
      have admitted : ¬ context.version < (Expr.call handle arguments).minVersion :=
        UInt8.not_lt.mpr recent
      rw [Expr.lower, Lowering.outcome_bind, Lowering.outcome_requireVersion, if_neg admitted]
      simp only [Lowering.checkCall, Lowering.outcome_bind, Lowering.outcome_get,
        Lowering.outcome_lift, resolve]
    · rintro context expr rfl calls ⟨span, after, lowered⟩
      have passes := (Lowering.lowered_of_yields lowered).passes expr (List.mem_singleton_self expr)
      exact other (passes.declared_of_calls calls)

namespace Operation

/-- The handle that an operation issues. -/
def handle? (program : Program) : Operation → Option Handle
  | declare name argCount returns =>
      ((Program.declare name argCount returns).run program).1.toOption
  | define name argCount returns locals build =>
      ((Program.define name argCount returns locals build).run program).1.toOption
  | _ => none

/-- A handle is issued in the course of a history. -/
def Issues (handle : Handle) : Program → List Operation → Prop
  | _, [] => False
  | program, operation :: operations =>
      operation.handle? program = some handle ∨ Issues handle (operation.perform program) operations

theorem declared_declaring (name : String) (argCount : Nat) (returns : Returns) :
    (program.declaring name argCount returns).declared handle.id = some handle ↔
      program.declared handle.id = some handle ∨
        (program.declaration name argCount returns).handle = handle := by
  have isLast : (program.declaration name argCount returns).handle.id = program.subroutines.size :=
    rfl
  simp only [Program.declared, Program.declaring, Array.getElem?_push]
  by_cases last : handle.id = program.subroutines.size
  · simp [last]
  · have other : (program.declaration name argCount returns).handle ≠ handle := by
      rintro rfl
      exact last isLast
    simp [last, other]

theorem declared_perform (operation : Operation) :
    (operation.perform program).declared handle.id = some handle ↔
      program.declared handle.id = some handle ∨ operation.handle? program = some handle := by
  have unchanged : ∀ {after : Program}, program.SameDeclarations after →
      (after.declared handle.id = some handle ↔
        program.declared handle.id = some handle ∨ none = some handle) := by
    intro after same
    simp [same.declared]
  cases operation with
  | newVar => exact unchanged (.refl program)
  | declare name argCount returns =>
    rw [perform, handle?, Program.run_declare]
    split
    next => exact unchanged (.refl program)
    next => simp [declared_declaring, Except.toOption]
  | define name argCount returns locals build =>
    rw [perform, handle?, Program.run_define]
    split
    next => exact unchanged (.refl program)
    next =>
      have same := Program.sameDeclarations_implement (program.declaring name argCount returns)
        (program.declaration name argCount returns).handle locals build
      simp [same.declared, declared_declaring, Except.toOption]
  | implement handle locals build =>
    exact unchanged (program.sameDeclarations_implement handle locals build)
  | body id => exact unchanged (program.sameDeclarations_body id)
  | compile main options => exact unchanged (Program.sameDeclarations_compile program main options)

theorem declared_after (history : List Operation) :
    (after program history).declared handle.id = some handle ↔
      program.declared handle.id = some handle ∨ Issues handle program history := by
  induction history generalizing program with
  | nil => simp [after, Issues]
  | cons operation operations ih =>
    rw [after, List.foldl_cons, ← after, ih, declared_perform, Issues, or_assoc]

/-- A handle is refused exactly if no equal one has been issued by the program itself. -/
theorem refuses_iff_not_issued (history : List Operation) (handle : Handle) :
    (after {} history).Refuses handle ↔ ¬ Issues handle {} history := by
  have empty : Program.declared {} handle.id ≠ some handle := by simp [Program.declared]
  rw [Program.refuses_iff, ne_eq, declared_after, or_iff_right empty]

/-- The handle of a subroutine of each of two programs. -/
def shared : Handle := ⟨0, "f", 0, .value .uint64⟩

/-- A program whose only subroutine has a constant for its value. -/
def constant (value : UInt64) : List Operation :=
  [.define "f" 0 (.value .uint64) [] fun _ => (.int value, [])]

/-- A handle is taken for that of another subroutine by a program that did not issue it. -/
theorem not_refused_elsewhere :
    Issues shared {} (constant 1) ∧ ¬ (after {} (constant 2)).Refuses shared ∧
      ((Program.body shared.id).run (after {} (constant 1))).1 = .ok (.int 1) ∧
      ((Program.body shared.id).run (after {} (constant 2))).1 = .ok (.int 2) := by
  refine ⟨.inl rfl, fun refuses => ?_, rfl, rfl⟩
  cases refuses.resolve

end Operation

end ContractBackend
