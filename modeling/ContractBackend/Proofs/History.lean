import ContractBackend.Proofs.Build
import ContractBackend.Proofs.Lowering.Uniform

/-!
# Compiling again

A compilation builds the bodies it needs, and they stay built, also where it fails. What has been
built is found again by a later compilation, which needs the bodies in the same order: it makes no
difference whether and for what the program has been compiled before.
-/

namespace ContractBackend

open Lowering (outcome)

namespace Program

variable {before middle after : Program} {id : SubroutineId} {expr : Expr}

def HasBuilt (program : Program) (id : SubroutineId) (expr : Expr) : Prop :=
  ∃ subroutine, program.subroutines[id]? = some subroutine ∧ subroutine.body = .built expr

/-- A later state of a program: nothing is declared anew, and what has been built stays. -/
structure Extends (before after : Program) : Prop where
  sameDeclarations : before.SameDeclarations after
  hasBuilt : ∀ id expr, before.HasBuilt id expr → after.HasBuilt id expr
  issued : before.slots.issued ≤ after.slots.issued

theorem Extends.refl (program : Program) : program.Extends program :=
  ⟨.refl program, fun _ _ hasBuilt => hasBuilt, Nat.le_refl _⟩

theorem Extends.trans (first : before.Extends middle) (second : middle.Extends after) :
    before.Extends after where
  sameDeclarations := first.sameDeclarations.trans second.sameDeclarations
  hasBuilt id expr hasBuilt := second.hasBuilt id expr (first.hasBuilt id expr hasBuilt)
  issued := Nat.le_trans first.issued second.issued

/-- A body that has been built is found again. -/
theorem HasBuilt.run_body (hasBuilt : before.HasBuilt id expr) :
    (Program.body id).run before = (.ok expr, before) := by
  obtain ⟨subroutine, found, isBody⟩ := hasBuilt
  rw [Program.run_body, found]
  simp only [isBody]

/-- A body that is asked for is built from then on; the others stay. -/
theorem extends_body (program : Program) (id : SubroutineId) :
    program.Extends ((Program.body id).run program).2 := by
  have issued : program.slots.issued ≤ ((Program.body id).run program).2.slots.issued := by
    rw [run_body]
    split
    next => exact Nat.le_refl _
    next =>
      split
      next => exact Nat.le_refl _
      next => exact Nat.le_refl _
      next => exact Nat.le_add_right ..
  refine ⟨sameDeclarations_body program id, fun other expr hasBuilt => ?_, issued⟩
  by_cases same : other = id
  · subst same
    rwa [hasBuilt.run_body]
  · obtain ⟨built, foundBuilt, isBuilt⟩ := hasBuilt
    rw [run_body]
    split
    next => exact ⟨built, foundBuilt, isBuilt⟩
    next =>
      split
      next => exact ⟨built, foundBuilt, isBuilt⟩
      next => exact ⟨built, foundBuilt, isBuilt⟩
      next =>
        refine ⟨built, ?_, isBuilt⟩
        simp only [getElem?_modify_body, subroutines_newVars, foundBuilt, Option.map_some, same,
          if_false]

theorem hasBuilt_body (isBody : (Program.body id).run before = (.ok expr, after)) :
    after.HasBuilt id expr := by
  rw [run_body] at isBody
  split at isBody
  next => cases isBody
  next subroutine found =>
    split at isBody
    next => cases isBody
    next isBuilt =>
      cases isBody
      exact ⟨subroutine, found, isBuilt⟩
    next =>
      cases isBody
      refine ⟨{ subroutine with body := .built _ }, ?_, rfl⟩
      simp only [getElem?_modify_body, subroutines_newVars, found, Option.map_some, if_true]

/-- Where there is no body to build, nothing happens. -/
theorem eq_of_body_eq_error {cause : CompileError}
    (fails : (Program.body id).run before = (.error cause, after)) : after = before := by
  rw [run_body] at fails
  split at fails
  next => cases fails; rfl
  next =>
    split at fails
    next => cases fails; rfl
    next => cases fails
    next => cases fails

end Program

namespace Lowering

variable {α β : Type} {step : LowerM α} {context : Context}

/-- A step that is repeated with the bodies it has built before, be it for another version, comes
to the same as for that version from the start. For the same version it builds nothing more. -/
structure Resumes (step : LowerM α) (context : Context) : Prop where
  grows : context.program.Extends (outcome step context).2.program
  sameResult : ∀ version,
    (outcome step (context.moved (outcome step context).2.program version)).1 =
      (outcome step (context.moved context.program version)).1
  sameState : ∀ version, Succeeds step (context.moved context.program version) →
    outcome step (context.moved (outcome step context).2.program version) =
      outcome step (context.moved context.program version)
  settled :
    (outcome step (context.moved (outcome step context).2.program context.version)).2.program =
      (outcome step context).2.program

/-- A step that builds nothing. -/
theorem Resumes.of_kept (kept : (outcome step context).2.program = context.program) :
    Resumes step context := by
  have unmoved : context.moved context.program context.version = context := rfl
  constructor
  case grows => exact kept ▸ .refl _
  case sameResult => simp [kept]
  case sameState => simp [kept]
  case settled => rw [kept, unmoved, kept]

theorem Resumes.behind_get {rest : Context → LowerM α}
    (unmoved : ∀ program version, context.program.SameDeclarations program →
      rest (context.moved program version) = rest context)
    (resumes : Resumes (rest context) context) : Resumes (get >>= rest) context := by
  have unfolded : ∀ context, outcome (get >>= rest) context = outcome (rest context) context :=
    fun _ => rfl
  have same := resumes.grows.sameDeclarations
  constructor
  case grows => exact resumes.grows
  case sameResult =>
    intro version
    simp only [unfolded, unmoved _ _ same, unmoved _ _ (.refl _)]
    exact resumes.sameResult version
  case sameState =>
    rintro version ⟨result, after, yields⟩
    rw [Yields, unfolded, unmoved _ _ (.refl _)] at yields
    simp only [unfolded, unmoved _ _ same, unmoved _ _ (.refl _)]
    exact resumes.sameState version ⟨result, after, yields⟩
  case settled =>
    simp only [unfolded, unmoved _ _ same]
    exact resumes.settled

/-- In front of a step stands one that builds nothing. -/
theorem Uniform.resumes {first : LowerM α} {rest : α → LowerM β} (uniform : Uniform first)
    (behind : ∀ value context, Resumes (rest value) context) (context : Context) :
    Resumes (first >>= rest) context := by
  have keeps := uniform.keeps context
  rcases isFirst : outcome first context with ⟨cause | value, middle⟩
  · refine .of_kept ?_
    rw [outcome_bind, isFirst]
    rw [isFirst] at keeps
    exact keeps.1
  · rw [isFirst] at keeps
    obtain ⟨keptProgram, keptVersion⟩ := keeps
    simp only at keptProgram keptVersion
    have whole : outcome (first >>= rest) context = outcome (rest value) middle := by
      rw [outcome_bind, isFirst]
    have resumes := behind value middle
    have same := keptProgram ▸ resumes.grows.sameDeclarations
    have succeeds : Succeeds first context := ⟨value, middle, isFirst⟩
    -- Where the first step succeeds for the version, it leads to the same place.
    have moved : ∀ program version, context.program.SameDeclarations program →
        Succeeds first (context.moved program version) →
        outcome (first >>= rest) (context.moved program version) =
          outcome (rest value) (middle.moved program version) := by
      intro program version same succeedsToo
      have agrees := uniform context program version same (.inr ⟨succeeds, succeedsToo⟩)
      rw [outcome_bind, agrees, isFirst]
    have again : ∀ version, outcome first
        (context.moved (outcome (rest value) middle).2.program version) =
      ((outcome first (context.moved context.program version)).1,
        (outcome first (context.moved context.program version)).2.moved
          (outcome (rest value) middle).2.program version) := fun version =>
      uniform (context.moved context.program version) _ version same (.inl rfl)
    have reaches : ∀ version, Succeeds first (context.moved context.program version) →
        outcome (first >>= rest) (context.moved (outcome (rest value) middle).2.program version) =
            outcome (rest value) (middle.moved (outcome (rest value) middle).2.program version) ∧
          outcome (first >>= rest) (context.moved context.program version) =
            outcome (rest value) (middle.moved middle.program version) := by
      rintro version ⟨result, after, yields⟩
      have yieldsAgain := again version
      rw [show outcome first (context.moved context.program version) = _ from yields] at yieldsAgain
      rw [keptProgram]
      exact ⟨moved _ version same ⟨result, _, yieldsAgain⟩,
        moved _ version (.refl _) ⟨result, after, yields⟩⟩
    constructor
    case grows =>
      rw [whole, ← keptProgram]
      exact resumes.grows
    case sameResult =>
      intro version
      rw [whole]
      rcases direct : outcome first (context.moved context.program version) with ⟨cause | _, after⟩
      · rw [outcome_bind, outcome_bind, again, direct]
      · rw [(reaches version ⟨_, after, direct⟩).1, (reaches version ⟨_, after, direct⟩).2]
        exact resumes.sameResult version
    case sameState =>
      intro version both
      have reached := reaches version both.of_bind
      obtain ⟨result, after, yields⟩ := both
      rw [Yields, reached.2] at yields
      rw [whole, reached.1, reached.2]
      exact resumes.sameState version ⟨result, after, yields⟩
    case settled =>
      have reached := reaches context.version succeeds
      rw [whole, reached.1, ← keptVersion]
      exact resumes.settled

end Lowering

namespace Compile

open Lowering

/-- A subroutine is looked up and its body built; the rest is done with them. -/
theorem outcome_lowerSubroutine (id : SubroutineId) (context : Context) :
    outcome (lowerSubroutine id) context = match context.program.subroutines[id]? with
      | none => (.error (.internal (.unknownSubroutine id)), context)
      | some subroutine =>
        match (Program.body id).run context.program with
        | (.error cause, program) => (.error cause, { context with program })
        | (.ok body, program) =>
          outcome (lowerBody subroutine.handle subroutine.params body)
            { context with program } := by
  have unfolded : lowerSubroutine id = (do
      let subroutine ← (← get).program.subroutine id
      let body ← onProgram (Program.body id)
      lowerBody subroutine.handle subroutine.params body) := rfl
  simp only [unfolded, outcome_bind, outcome_get, outcome_lift, Program.subroutine]
  cases found : context.program.subroutines[id]? with
  | none => rfl
  | some subroutine =>
    have asked : outcome (onProgram (Program.body id)) context =
        (((Program.body id).run context.program).1,
          { context with program := ((Program.body id).run context.program).2 }) := rfl
    simp only [asked]
    rcases (Program.body id).run context.program with ⟨_ | body, program⟩ <;> rfl

theorem outcome_lowerSubroutine_of_body {id : SubroutineId} {subroutine : Subroutine} {body : Expr}
    {before after : Program} (found : before.subroutines[id]?.map (fun subroutine =>
      (subroutine.handle, subroutine.params)) = some (subroutine.handle, subroutine.params))
    (isBody : (Program.body id).run before = (.ok body, after)) (context : Context)
    (version : Version) :
    outcome (lowerSubroutine id) (context.moved before version) =
      outcome (lowerBody subroutine.handle subroutine.params body)
        (context.moved after version) := by
  obtain ⟨other, found, same⟩ := Option.map_eq_some_iff.mp found
  simp only [Prod.mk.injEq] at same
  have isProgram : (context.moved before version).program = before := rfl
  rw [outcome_lowerSubroutine, isProgram, found, ← same.1, ← same.2]
  simp only [isBody]
  rfl

/-- In front of a step stands the lowering of a subroutine. -/
theorem resumes_lowerSubroutine {α : Type} {id : SubroutineId} {rest : RoutineGraph → LowerM α}
    (behind : ∀ graph context, Resumes (rest graph) context) (context : Context) :
    Resumes (lowerSubroutine id >>= rest) context := by
  cases found : context.program.subroutines[id]? with
  | none =>
    refine .of_kept ?_
    rw [outcome_bind, outcome_lowerSubroutine, found]
  | some subroutine =>
    rcases isBody : (Program.body id).run context.program with ⟨cause | body, built⟩
    · refine .of_kept ?_
      rw [outcome_bind, outcome_lowerSubroutine, found]
      simp only [isBody]
      exact Program.eq_of_body_eq_error isBody
    · let lowering := lowerBody subroutine.handle subroutine.params body >>= rest
      have resumes : Resumes lowering (context.moved built context.version) :=
        (uniform_lowerBody _ _ body).resumes behind _
      have grows : context.program.Extends built := by
        have grows := Program.extends_body context.program id
        rwa [isBody] at grows
      have growsMore := grows.trans resumes.grows
      -- The body is built, or it has been built before and is found.
      have reaches : ∀ before after version, context.program.SameDeclarations before →
          (Program.body id).run before = (.ok body, after) →
          outcome (lowerSubroutine id >>= rest) (context.moved before version) =
            outcome lowering (context.moved after version) := by
        intro before after version same isBody
        have declared := same id
        rw [found, Option.map_some] at declared
        rw [outcome_bind, outcome_lowerSubroutine_of_body declared isBody, outcome_bind]
      have whole : outcome (lowerSubroutine id >>= rest) context =
          outcome lowering (context.moved built context.version) :=
        reaches context.program built context.version (.refl _) isBody
      have direct := fun version => reaches context.program built version (.refl _) isBody
      have again := fun version => reaches _ _ version growsMore.sameDeclarations
        (resumes.grows.hasBuilt id body (Program.hasBuilt_body isBody)).run_body
      constructor
      case grows =>
        rw [whole]
        exact growsMore
      case sameResult =>
        intro version
        rw [whole, direct, again]
        exact resumes.sameResult version
      case sameState =>
        rintro version ⟨result, after, yields⟩
        rw [Yields, direct] at yields
        rw [whole, direct, again]
        exact resumes.sameState version ⟨result, after, yields⟩
      case settled =>
        rw [whole, again]
        exact resumes.settled

theorem resumes_lowerReferenced (count : Nat) (graphs : RoutineTable RoutineGraph)
    (context : Context) : Resumes (lowerReferenced count graphs) context := by
  induction count generalizing graphs context with
  | zero => exact .of_kept rfl
  | succ count ih =>
    refine .behind_get (fun _ _ _ => rfl) ?_
    cases context.referenced.find? fun id => (graphs.lookup (.subroutine id)).isNone with
    | none => exact .of_kept rfl
    | some id => exact resumes_lowerSubroutine (fun graph context => ih _ context) context

theorem resumes_lowerFrom {main : LowerM RoutineGraph} (uniform : Uniform main)
    (context : Context) : Resumes (lowerFrom main) context := by
  refine uniform.resumes (fun graph context => ?_) context
  refine .behind_get (fun program version same => ?_) (resumes_lowerReferenced _ _ context)
  have moved : (context.moved program version).program = program := rfl
  rw [moved, same.size]

end Compile

/-- What a compilation leaves behind. -/
theorem Build.program_compileFrom (main : LowerM RoutineGraph) (options : CompileOptions)
    (before : Program) :
    ((compileFrom main options).run before).2 = match options.validate with
      | .error _ => before
      | .ok () => (outcome (Compile.lowerFrom main)
          { program := before, version := options.version }).2.program := by
  rw [run_compileFrom]
  cases options.validate with
  | error => rfl
  | ok => rcases outcome (Compile.lowerFrom main) _ with ⟨_ | _, _⟩ <;> rfl

/-- Where lowering comes to the same, compilation does. -/
theorem Build.run_compile_congr {main : LowerM RoutineGraph} {before earlier : Program}
    (options : CompileOptions)
    (sameResult : (outcome (Compile.lowerFrom main)
        { program := earlier, version := options.version }).1 =
      (outcome (Compile.lowerFrom main) { program := before, version := options.version }).1)
    (sameState : Lowering.Succeeds (Compile.lowerFrom main)
        { program := before, version := options.version } →
      outcome (Compile.lowerFrom main) { program := earlier, version := options.version } =
        outcome (Compile.lowerFrom main) { program := before, version := options.version }) :
    ((compileFrom main options).run earlier).1 = ((compileFrom main options).run before).1 ∧
      ∀ artifact after, (compileFrom main options).run before = (.ok artifact, after) →
        (compileFrom main options).run earlier = (.ok artifact, after) := by
  rw [run_compileFrom, run_compileFrom]
  cases options.validate with
  | error => exact ⟨rfl, nofun⟩
  | ok =>
    rcases lowered : outcome (Compile.lowerFrom main)
      { program := before, version := options.version } with ⟨cause | graphs, context⟩
    · rw [lowered] at sameResult
      rcases again : outcome (Compile.lowerFrom main)
        { program := earlier, version := options.version } with ⟨other | _, _⟩
      · rw [again] at sameResult
        cases sameResult
        exact ⟨rfl, nofun⟩
      · rw [again] at sameResult
        cases sameResult
    · rw [sameState ⟨graphs, context, lowered⟩, lowered]
      exact ⟨rfl, fun _ _ compiled => compiled⟩

/-- What has been compiled before makes no difference. A program is compiled with any options,
whatever that comes to. To compile it then comes to what it would have come to at first: the same
failure, or the same artifact with the same bodies built from the same slots. With the options it
has been compiled with, the program is left as it is: no body is built and no slot is drawn. So it
is for every way to lower the main routine that draws no slot and sees nothing of the program but
what is declared; to lower an expression is one. -/
theorem compile_after_compile (first second : CompileOptions) (before : Program) :
    (∀ main : Expr, compile main = compileFrom (Compile.lowerMain main) ∧
      Lowering.Uniform (Compile.lowerMain main)) ∧
    ∀ main : LowerM RoutineGraph, Lowering.Uniform main →
      let earlier := ((compileFrom main first).run before).2
      ((compileFrom main second).run earlier).1 = ((compileFrom main second).run before).1 ∧
        (∀ artifact after, (compileFrom main second).run before = (.ok artifact, after) →
          (compileFrom main second).run earlier = (.ok artifact, after)) ∧
        ((compileFrom main first).run earlier).2 = earlier := by
  refine ⟨fun main => ⟨rfl, Compile.uniform_lowerMain main⟩, fun main uniform => ?_⟩
  intro earlier
  have resumes := Compile.resumes_lowerFrom uniform { program := before, version := first.version }
  have isEarlier : earlier = match first.validate with
      | .error _ => before
      | .ok () => (outcome (Compile.lowerFrom main)
          { program := before, version := first.version }).2.program :=
    Build.program_compileFrom main first before
  cases supported : first.validate with
  | error cause =>
      have unchanged : earlier = before := by rw [isEarlier, supported]
      refine ⟨by rw [unchanged], fun _ _ compiled => by rwa [unchanged], ?_⟩
      rw [Build.program_compileFrom, supported]
  | ok =>
      rw [supported] at isEarlier
      simp only at isEarlier
      have same := Build.run_compile_congr second (isEarlier ▸ resumes.sameResult second.version)
        (isEarlier ▸ resumes.sameState second.version)
      refine ⟨same.1, same.2, ?_⟩
      rw [Build.program_compileFrom, supported, isEarlier]
      exact resumes.settled

/-- The body that is built for an early version serves for the latest one. -/
theorem compile_after_compile_factorial :
    let earlier := ((compile factorialMain { version := 4 }).run factorialProgram).2
    earlier.subroutines[0]?.map (fun subroutine => subroutine.body.isBuilt) = some true ∧
      ∃ artifact after, (compile factorialMain {}).run factorialProgram = (.ok artifact, after) ∧
        (compile factorialMain {}).run earlier = (.ok artifact, after) := by
  refine ⟨by decide +kernel, ?_⟩
  obtain ⟨artifact, after, compiled⟩ : ∃ artifact after,
      (compile factorialMain {}).run factorialProgram = (.ok artifact, after) :=
    Fallible.exists_of_isSome (by decide +kernel)
  obtain ⟨each, again⟩ := compile_after_compile { version := 4 } {} factorialProgram
  exact ⟨artifact, after, compiled, (again _ (each factorialMain).2).2.1 artifact after compiled⟩

/-- A main routine that draws a slot draws another one each time. -/
theorem issued_lt_of_freshSlot {main : Slot → LowerM RoutineGraph} {options : CompileOptions}
    (uniform : ∀ slot, Lowering.Uniform (main slot)) (supported : options.validate = .ok ())
    (before : Program) : before.slots.issued <
      ((compileFrom (Lowering.freshSlot >>= main) options).run before).2.slots.issued := by
  have grows := (Compile.resumes_lowerFrom (uniform ⟨before.slots.issued, none⟩)
    { program := { before with slots := ⟨before.slots.issued + 1⟩ }
      version := options.version }).grows.issued
  rw [Build.program_compileFrom, supported]
  exact grows

end ContractBackend
