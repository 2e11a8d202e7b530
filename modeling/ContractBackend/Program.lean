import ContractBackend.Error
import ContractBackend.Expr.Basic

/-!
# Programs

A program is the registry of its subroutines and the source of its slots. A subroutine is declared
first and given a body later, so that bodies can call each other. The body is built when it is
first needed and kept from then on.
-/

namespace ContractBackend

/-- What the builder of a body can refer to. -/
structure Scope where
  /-- The subroutine itself. -/
  this : Handle
  params : List Var
  locals : List Var
  deriving DecidableEq, Inhabited

namespace Scope

def argument (scope : Scope) (index : Nat) : Except CompileError Expr :=
  match scope.params[index]? with
  | some param => .ok param.load
  | none =>
      .error (.invalidProgram (.noSuchArgument scope.this.name scope.params.length index))

end Scope

/-- Writes a body, and reports what it had to leave out. -/
abbrev Builder := Scope → Expr × List CompileError

inductive Body where
  /-- Declared only. -/
  | missing
  /-- To be built on first use, with a fresh variable for each of the given types. -/
  | pending (locals : List Ty) (build : Builder)
  | built (expr : Expr)
  deriving Inhabited

namespace Body

def isBuilt : Body → Bool
  | .built _ => true
  | _ => false

end Body

structure Subroutine where
  handle : Handle
  params : List Var
  body : Body
  deriving Inhabited

structure Program where
  slots : SlotSupply := {}
  /-- The subroutines, each at the position of its number. -/
  subroutines : Array Subroutine := #[]
  /-- What the builders have reported, in the order in which the bodies were built. -/
  reports : List CompileError := []

instance : Inhabited Program := ⟨{}⟩

/-- An operation on a program. A failing operation leaves a program behind, too. -/
abbrev ProgramM := ExceptT CompileError (StateM Program)

namespace Program

/-- A new variable, in a cell of its choice if one is given. -/
def newVar (ty : Ty) (requested : Option Cell := none) : StateM Program Var :=
  modifyGet fun program =>
    let (slot, slots) := program.slots.draw requested
    (⟨slot, ty⟩, { program with slots })

def newVars (types : List Ty) : StateM Program (List Var) :=
  modifyGet fun program =>
    let (drawn, slots) := program.slots.drawMany types.length
    ((drawn.zip types).map fun entry => ⟨entry.1, entry.2⟩, { program with slots })

def subroutine (program : Program) (id : SubroutineId) : Except CompileError Subroutine :=
  match program.subroutines[id]? with
  | some subroutine => .ok subroutine
  | none => .error (.internal (.unknownSubroutine id))

/-- The subroutine that a handle was issued for, if this program has issued it. -/
def resolve (program : Program) (handle : Handle) : Except CompileError Subroutine :=
  match program.subroutines[handle.id]? with
  | some subroutine =>
      if subroutine.handle = handle then .ok subroutine
      else .error (.invalidProgram (.foreignSubroutine handle.name))
  | none => .error (.invalidProgram (.foreignSubroutine handle.name))

/-- Declare a subroutine. Its parameters are variables of their own. -/
def declare (name : String) (argCount : Nat) (returns : Returns) : ProgramM Handle := do
  if maxArguments < argCount then
    throw (.invalidProgram (.tooManyArguments name argCount))
  let params ← newVars (List.replicate argCount .any)
  let program ← get
  let handle : Handle := ⟨program.subroutines.size, name, argCount, returns⟩
  set { program with subroutines := program.subroutines.push ⟨handle, params, .missing⟩ }
  pure handle

/-- Give a declared subroutine its body. -/
def implement (handle : Handle) (locals : List Ty) (build : Builder) : ProgramM Unit := do
  let program ← get
  let subroutine ← program.resolve handle
  match subroutine.body with
  | .missing =>
      set { program with subroutines := program.subroutines.modify handle.id fun subroutine =>
        { subroutine with body := .pending locals build } }
  | _ => throw (.invalidProgram (.bodyExists handle.name))

def define (name : String) (argCount : Nat) (returns : Returns) (locals : List Ty)
    (build : Builder) : ProgramM Handle := do
  let handle ← declare name argCount returns
  implement handle locals build
  pure handle

/-- The body of a subroutine, built if it has not been. -/
def body (id : SubroutineId) : ProgramM Expr := do
  let subroutine ← (← get).subroutine id
  match subroutine.body with
  | .missing => throw (.invalidProgram (.missingBody subroutine.handle.name))
  | .built expr => pure expr
  | .pending types build =>
      let locals ← newVars types
      let (expr, reports) := build ⟨subroutine.handle, subroutine.params, locals⟩
      modify fun program =>
        { program with
          subroutines := program.subroutines.modify id fun subroutine =>
            { subroutine with body := .built expr }
          reports := program.reports ++ reports }
      pure expr

end Program

end ContractBackend
