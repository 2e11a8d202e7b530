import ContractBackend.Program

/-!
# Programs and their bodies

Building a body leaves what has been declared as it is. A property that all bodies of a
program have, whatever variables they are built with, is kept when one of them is built.
-/

namespace ContractBackend

/-- The body of a subroutine has a property, whatever local variables it is built with. -/
def Subroutine.Has (property : Expr → Prop) (subroutine : Subroutine) : Prop :=
  match subroutine.body with
  | .missing => True
  | .pending types build => ∀ locals : List Var, locals.map Var.ty = types →
      property (build ⟨subroutine.handle, subroutine.params, locals⟩).1
  | .built expr => property expr

theorem Subroutine.Has.mono {property property' : Expr → Prop} {subroutine : Subroutine}
    (has : subroutine.Has property) (weaker : ∀ expr, property expr → property' expr) :
    subroutine.Has property' := by
  simp only [Has] at has ⊢
  split
  next => trivial
  next build isBody =>
    simp only [isBody] at has
    exact fun locals typed => weaker _ (has locals typed)
  next expr isBody =>
    simp only [isBody] at has
    exact weaker _ has

namespace Program

variable {program : Program} {id : SubroutineId}

def declared (program : Program) (id : SubroutineId) : Option Handle :=
  program.subroutines[id]?.map Subroutine.handle

theorem resolve_eq_ok {handle : Handle} {subroutine : Subroutine} :
    program.resolve handle = .ok subroutine ↔
      program.subroutines[handle.id]? = some subroutine ∧ subroutine.handle = handle := by
  simp only [resolve]
  cases program.subroutines[handle.id]? with
  | none => simp
  | some found =>
    by_cases same : found.handle = handle
    · simp only [same, if_true, Except.ok.injEq, Option.some.injEq]
      constructor
      · rintro rfl
        exact ⟨rfl, same⟩
      · rintro ⟨rfl, _⟩
        rfl
    · simp only [same, if_false, reduceCtorEq, Option.some.injEq, false_iff, not_and]
      rintro rfl
      exact same

theorem subroutine_eq_ok {subroutine : Subroutine} :
    program.subroutine id = .ok subroutine ↔ program.subroutines[id]? = some subroutine := by
  rw [Program.subroutine]
  cases program.subroutines[id]? <;> simp

/-- A handle is refused unless the subroutine of its number has been declared with it. -/
theorem resolve_eq_error {handle : Handle} {cause : CompileError} :
    program.resolve handle = .error cause ↔ program.declared handle.id ≠ some handle ∧
      cause = .invalidProgram (.foreignSubroutine handle.name) := by
  simp only [resolve, declared]
  cases program.subroutines[handle.id]? with
  | none => simp [@eq_comm _ cause]
  | some found => by_cases same : found.handle = handle <;> simp [same, @eq_comm _ cause]

/-- Every body has a property. -/
def BodiesHave (property : Expr → Prop) (program : Program) : Prop :=
  ∀ (id : SubroutineId) (subroutine : Subroutine),
    program.subroutines[id]? = some subroutine → subroutine.Has property

theorem BodiesHave.mono {property property' : Expr → Prop} (all : program.BodiesHave property)
    (weaker : ∀ expr, property expr → property' expr) : program.BodiesHave property' :=
  fun id subroutine found => (all id subroutine found).mono weaker

/-- Every subroutine has as many parameters as its handle says. -/
def IsWellDeclared (program : Program) : Prop :=
  ∀ (id : SubroutineId) (subroutine : Subroutine), program.subroutines[id]? = some subroutine →
    subroutine.params.length = subroutine.handle.argCount

/-- Two programs differ at most in what bodies have been built. -/
def SameDeclarations (before after : Program) : Prop :=
  ∀ id : SubroutineId, (after.subroutines[id]?).map (fun subroutine =>
      (subroutine.handle, subroutine.params)) =
    (before.subroutines[id]?).map fun subroutine => (subroutine.handle, subroutine.params)

namespace SameDeclarations

variable {before middle after : Program}

theorem refl (program : Program) : SameDeclarations program program := fun _ => rfl

theorem trans (first : SameDeclarations before middle) (second : SameDeclarations middle after) :
    SameDeclarations before after :=
  fun id => (second id).trans (first id)

theorem declared (same : SameDeclarations before after) : after.declared = before.declared := by
  funext id
  have equal := congrArg (Option.map Prod.fst) (same id)
  simpa [Program.declared, Option.map_map, Function.comp_def] using equal

theorem size (same : SameDeclarations before after) :
    after.subroutines.size = before.subroutines.size := by
  have inside : ∀ id : SubroutineId,
      (after.subroutines[id]?).isSome = (before.subroutines[id]?).isSome := by
    intro id
    have equal := congrArg Option.isSome (same id)
    simpa using equal
  have lower := inside after.subroutines.size
  have upper := inside before.subroutines.size
  simp only [Nat.lt_irrefl, not_false_eq_true, getElem?_neg, Option.isSome_none, Bool.false_eq,
    Option.isSome_eq_false_iff, Option.isNone_iff_eq_none, getElem?_eq_none_iff, Nat.not_lt]
    at lower upper
  omega

theorem isWellDeclared (same : SameDeclarations before after) (well : before.IsWellDeclared) :
    after.IsWellDeclared := by
  intro id subroutine found
  have equal := same id
  rw [found] at equal
  cases earlier : before.subroutines[id]? with
  | none => simp [earlier] at equal
  | some other =>
    simp only [earlier, Option.map_some, Option.some.injEq, Prod.mk.injEq] at equal
    rw [equal.1, equal.2]
    exact well id other earlier

end SameDeclarations

/-! ## Building a body -/

section Body

variable {α β : Type}

theorem run_bind (first : ProgramM α) (rest : α → ProgramM β) (program : Program) :
    (first >>= rest).run program = match first.run program with
      | (.ok value, after) => (rest value).run after
      | (.error cause, after) => (.error cause, after) := by
  have unfolded : (first >>= rest).run program =
      (ExceptT.bindCont rest (first.run program).1) (first.run program).2 := rfl
  rw [unfolded]
  rcases first.run program with ⟨_ | _, _⟩ <;> rfl

theorem run_get (program : Program) :
    (get : ProgramM Program).run program = (.ok program, program) :=
  rfl

theorem run_lift (value : Except CompileError α) (program : Program) :
    (liftM value : ProgramM α).run program = (value, program) :=
  rfl

theorem run_body (program : Program) (id : SubroutineId) :
    (Program.body id).run program = match program.subroutines[id]? with
      | none => (.error (.internal (.unknownSubroutine id)), program)
      | some subroutine =>
        match subroutine.body with
        | .missing => (.error (.invalidProgram (.missingBody subroutine.handle.name)), program)
        | .built expr => (.ok expr, program)
        | .pending types build =>
          let (drawn, written) := ((newVars types program).2, build
            ⟨subroutine.handle, subroutine.params, (newVars types program).1⟩)
          (.ok written.1, { drawn with
            subroutines := drawn.subroutines.modify id fun subroutine =>
              { subroutine with body := .built written.1 }
            reports := drawn.reports ++ written.2 }) := by
  simp only [Program.body, run_bind, run_get, Program.subroutine]
  cases found : program.subroutines[id]? with
  | none => rfl
  | some subroutine =>
    simp only [run_lift]
    cases isBody : subroutine.body <;> rfl

theorem map_ty_newVars (types : List Ty) (program : Program) :
    (newVars types program).1.map Var.ty = types := by
  have unfolded : (newVars types program).1 =
      ((program.slots.drawMany types.length).1.zip types).map fun entry => ⟨entry.1, entry.2⟩ := rfl
  rw [unfolded, List.map_map]
  apply List.map_snd_zip
  simp [SlotSupply.drawMany]

theorem subroutines_newVars (types : List Ty) (program : Program) :
    (newVars types program).2.subroutines = program.subroutines :=
  rfl

theorem getElem?_modify_body {subroutines : Array Subroutine} (expr : Expr) (other : SubroutineId) :
    (subroutines.modify id fun subroutine => { subroutine with body := .built expr })[other]? =
      subroutines[other]?.map fun subroutine =>
        if other = id then { subroutine with body := .built expr } else subroutine := by
  rw [Array.getElem?_modify]
  by_cases same : id = other
  · subst same
    cases subroutines[id]? <;> simp
  · cases subroutines[other]? <;> simp [same, Ne.symm same]

theorem sameDeclarations_body (program : Program) (id : SubroutineId) :
    SameDeclarations program ((Program.body id).run program).2 := by
  rw [run_body]
  split
  next => exact .refl program
  next subroutine found =>
    split
    next => exact .refl program
    next => exact .refl program
    next types build isBody =>
      intro other
      simp only [getElem?_modify_body, subroutines_newVars, Option.map_map]
      congr 1
      funext subroutine
      simp only [Function.comp]
      split <;> rfl

/-- A body that is built has every property of the bodies, and the others keep it. -/
theorem BodiesHave.body {property : Expr → Prop} (all : program.BodiesHave property)
    (id : SubroutineId) :
    (∀ expr, ((Program.body id).run program).1 = .ok expr → property expr) ∧
      ((Program.body id).run program).2.BodiesHave property := by
  rw [run_body]
  split
  next => exact ⟨nofun, all⟩
  next subroutine found =>
    have has := all id subroutine found
    simp only [Subroutine.Has] at has
    split
    next => exact ⟨nofun, all⟩
    next expr isBody =>
      simp only [isBody] at has
      exact ⟨fun _ same => by cases same; exact has, all⟩
    next types build isBody =>
      simp only [isBody] at has
      have built := has _ (map_ty_newVars types program)
      refine ⟨fun _ same => by cases same; exact built, fun other later found' => ?_⟩
      simp only [getElem?_modify_body, subroutines_newVars, Option.map_eq_some_iff] at found'
      obtain ⟨earlier, foundEarlier, rfl⟩ := found'
      split
      next => exact built
      next => exact all other earlier foundEarlier

end Body

/-! ## Making programs -/

/-- A program that is made step by step. -/
inductive Made : Program → Prop where
  | empty : Made {}
  | newVar {program : Program} (ty : Ty) (requested : Option Cell) : Made program →
      Made ((newVar ty requested).run program).2
  | declare {program : Program} (name : String) (argCount : Nat) (returns : Returns) :
      Made program → Made ((declare name argCount returns).run program).2
  | implement {program : Program} (handle : Handle) (locals : List Ty) (build : Builder) :
      Made program → Made ((implement handle locals build).run program).2
  | body {program : Program} (id : SubroutineId) : Made program →
      Made ((Program.body id).run program).2

theorem Made.define (made : Made program) (name : String) (argCount : Nat) (returns : Returns)
    (locals : List Ty) (build : Builder) :
    Made ((define name argCount returns locals build).run program).2 := by
  have declared := made.declare name argCount returns
  rw [Program.define, run_bind]
  rcases isDeclared : (Program.declare name argCount returns).run program with ⟨_ | handle, after⟩
  · rwa [isDeclared] at declared
  · rw [isDeclared] at declared
    have implemented := declared.implement handle locals build
    simp only [run_bind]
    rcases isImplemented : (Program.implement handle locals build).run after with ⟨_ | _, last⟩
    · rwa [isImplemented] at implemented
    · rwa [isImplemented] at implemented

theorem length_newVars (types : List Ty) (program : Program) :
    (newVars types program).1.length = types.length := by
  rw [← List.length_map, map_ty_newVars]

/-- The next subroutine of a program, with a new variable for each of its parameters. -/
def declaration (program : Program) (name : String) (argCount : Nat) (returns : Returns) :
    Subroutine :=
  ⟨⟨program.subroutines.size, name, argCount, returns⟩,
    (newVars (.replicate argCount .any) program).1, .missing⟩

/-- The program with its next subroutine. -/
def declaring (program : Program) (name : String) (argCount : Nat) (returns : Returns) :
    Program :=
  { (newVars (.replicate argCount .any) program).2 with
    subroutines := program.subroutines.push (program.declaration name argCount returns) }

theorem run_declare (program : Program) (name : String) (argCount : Nat) (returns : Returns) :
    (declare name argCount returns).run program =
      if maxArguments < argCount then
        (.error (.invalidProgram (.tooManyArguments name argCount)), program)
      else
        (.ok (program.declaration name argCount returns).handle,
          program.declaring name argCount returns) := by
  by_cases many : maxArguments < argCount <;> simp only [declare, many, if_true, if_false] <;> rfl

theorem IsWellDeclared.declare (well : program.IsWellDeclared) (name : String) (argCount : Nat)
    (returns : Returns) : ((declare name argCount returns).run program).2.IsWellDeclared := by
  rw [run_declare]
  split
  next => exact well
  next =>
    intro id subroutine found
    rw [declaring, Array.getElem?_push] at found
    split at found
    next =>
      cases found
      exact (length_newVars _ _).trans List.length_replicate
    next => exact well id subroutine found

theorem run_implement (program : Program) (handle : Handle) (locals : List Ty) (build : Builder) :
    (implement handle locals build).run program = match program.resolve handle with
      | .error cause => (.error cause, program)
      | .ok subroutine =>
        match subroutine.body with
        | .missing => (.ok (), { program with
            subroutines := program.subroutines.modify handle.id fun subroutine =>
              { subroutine with body := .pending locals build } })
        | _ => (.error (.invalidProgram (.bodyExists handle.name)), program) := by
  simp only [implement, run_bind, run_get, run_lift]
  rcases program.resolve handle with _ | ⟨_, _, _ | _ | _⟩ <;> rfl

/-- A body changes nothing of the declaration. -/
theorem sameDeclarations_implement (program : Program) (handle : Handle) (locals : List Ty)
    (build : Builder) :
    SameDeclarations program ((implement handle locals build).run program).2 := by
  rw [run_implement]
  rcases program.resolve handle with _ | ⟨_, _, _ | _ | _⟩ <;> try exact .refl program
  intro other
  simp only [Array.getElem?_modify]
  split <;> cases program.subroutines[other]? <;> rfl

theorem Made.isWellDeclared (made : Made program) : program.IsWellDeclared := by
  induction made with
  | empty => exact fun id subroutine found => by simp at found
  | newVar _ _ _ ih => exact ih
  | declare name argCount returns _ ih => exact ih.declare name argCount returns
  | @implement program handle locals build _ ih =>
    exact (sameDeclarations_implement program handle locals build).isWellDeclared ih
  | @body program id _ ih => exact (sameDeclarations_body program id).isWellDeclared ih

end Program

/-! ## A recursive program -/

/-- A subroutine that calls itself. -/
def factorial : Handle := ⟨0, "factorial", 1, .value .uint64⟩

/-- Its argument. -/
def factorialOf : Var := ⟨⟨0, none⟩, .any⟩

def factorialBody : Expr :=
  .ifElse (.binary .eq factorialOf.load (.int 0))
    (.int 1)
    (.binary .mul factorialOf.load (.call factorial [.binary .sub factorialOf.load (.int 1)]))

def factorialProgram : Program where
  slots := (SlotSupply.draw {} none).2
  subroutines := #[⟨factorial, [factorialOf], .pending [] fun _ => (factorialBody, [])⟩]

def factorialMain : Expr := .retValue (.binary .eq (.call factorial [.int 3]) (.int 6))

theorem made_factorialProgram : factorialProgram.Made :=
  Program.Made.define .empty "factorial" 1 (.value .uint64) [] fun _ => (factorialBody, [])

theorem bodies_factorialProgram {property : Expr → Prop} (holds : property factorialBody) :
    factorialProgram.BodiesHave property := by
  intro id subroutine found
  match id with
  | 0 =>
    cases found
    exact fun _ _ => holds
  | id + 1 => cases found

end ContractBackend
