import ContractBackend.Proofs.History

/-!
# The registry of a program

Whatever is done to a program, with success or without, its subroutines stay as they have been
declared, a body is attached once and built once, and no slot is handed out twice.
-/

namespace ContractBackend

/-- A subroutine at a later time, when some slots have been handed out. A body that has been
attached is still to be built by the same builder, or has been built by it with variables in slots
of these; a body that has been built is the same. -/
structure Subroutine.Becomes (slots : List Slot) (earlier later : Subroutine) : Prop where
  handle : later.handle = earlier.handle
  params : later.params = earlier.params
  pending : ∀ types build, earlier.body = .pending types build →
    later.body = .pending types build ∨ ∃ locals : List Var, locals.map Var.ty = types ∧
      (locals.map Var.slot).Sublist slots ∧
      later.body = .built (build ⟨earlier.handle, earlier.params, locals⟩).1
  built : ∀ expr, earlier.body = .built expr → later.body = .built expr

theorem Subroutine.Becomes.refl (slots : List Slot) (subroutine : Subroutine) :
    Becomes slots subroutine subroutine :=
  ⟨rfl, rfl, fun _ _ => .inl, fun _ => id⟩

theorem Subroutine.Becomes.trans {earlier middle later : Subroutine} {slots more : List Slot}
    (first : Becomes slots earlier middle) (second : Becomes more middle later) :
    Becomes (slots ++ more) earlier later where
  handle := second.handle.trans first.handle
  params := second.params.trans first.params
  pending types build isBody := by
    rcases first.pending types build isBody with same | ⟨locals, typed, drawn, isBuilt⟩
    · rw [← first.handle, ← first.params]
      refine (second.pending types build same).imp_right ?_
      rintro ⟨locals, typed, drawn, isBuilt⟩
      exact ⟨locals, typed, drawn.trans (List.sublist_append_right ..), isBuilt⟩
    · exact .inr ⟨locals, typed, drawn.trans (List.sublist_append_left ..),
        second.built _ isBuilt⟩
  built expr isBody := second.built expr (first.built expr isBody)

namespace Program

variable {before program after : Program} {slots more : List Slot} {id : SubroutineId}

/-- The program with what has been written for the body of a subroutine. -/
def keeping (program : Program) (id : SubroutineId) (written : Expr × List CompileError) :
    Program :=
  { program with
    subroutines := program.subroutines.modify id fun subroutine =>
      { subroutine with body := .built written.1 }
    reports := program.reports ++ written.2 }

/-- What is done to a program at one time, with the slots that are handed out: for a variable, for
the parameters of a subroutine, or for the variables that the builder of a body is given. -/
inductive Changes (program : Program) : List Slot → Program → Prop where
  | draw (ty : Ty) (requested : Option Cell) :
      Changes program [((newVar ty requested).run program).1.slot]
        ((newVar ty requested).run program).2
  | declare (name : String) (argCount : Nat) (returns : Returns) :
      Changes program ((program.declaration name argCount returns).params.map Var.slot)
        (program.declaring name argCount returns)
  | attach {handle : Handle} {subroutine : Subroutine} (locals : List Ty) (build : Builder) :
      program.resolve handle = .ok subroutine → subroutine.body = .missing →
      Changes program [] ((implement handle locals build).run program).2
  | build {id : SubroutineId} {subroutine : Subroutine} {types : List Ty} {build : Builder} :
      program.subroutines[id]? = some subroutine → subroutine.body = .pending types build →
      Changes program ((newVars types program).1.map Var.slot)
        ((newVars types program).2.keeping id
          (build ⟨subroutine.handle, subroutine.params, (newVars types program).1⟩))

/-- One change after the other. -/
inductive Evolves (start : Program) : List Slot → Program → Prop where
  | refl : Evolves start [] start
  | step {slots more : List Slot} {program after : Program} : Evolves start slots program →
      program.Changes more after → Evolves start (slots ++ more) after

theorem Evolves.single (changes : program.Changes slots after) : program.Evolves slots after :=
  .step .refl changes

theorem Evolves.trans (first : before.Evolves slots program) (second : program.Evolves more after) :
    before.Evolves (slots ++ more) after := by
  induction second with
  | refl => rwa [List.append_nil]
  | step _ changes ih => exact List.append_assoc .. ▸ ih.step changes

/-- Every subroutine of an earlier program is there later, when some slots have been handed out. -/
def Keeps (slots : List Slot) (before after : Program) : Prop :=
  ∀ (id : SubroutineId) (earlier : Subroutine), before.subroutines[id]? = some earlier →
    ∃ later, after.subroutines[id]? = some later ∧ Subroutine.Becomes slots earlier later

theorem Keeps.trans (first : Keeps slots before program) (second : Keeps more program after) :
    Keeps (slots ++ more) before after := by
  intro id earlier found
  obtain ⟨middle, foundMiddle, becomes⟩ := first id earlier found
  obtain ⟨later, foundLater, becomes'⟩ := second id middle foundMiddle
  exact ⟨later, foundLater, becomes.trans becomes'⟩

/-- What a program that has handed out some slots can rely on. -/
structure Registered (program : Program) (slots : List Slot) : Prop where
  numbered : ∀ (id : SubroutineId) (subroutine : Subroutine),
    program.subroutines[id]? = some subroutine →
      subroutine.handle.id = id ∧ subroutine.params.length = subroutine.handle.argCount
  /-- The parameters of all subroutines have been handed out, one by one. -/
  params : ((program.subroutines.toList.flatMap Subroutine.params).map Var.slot).Sublist slots
  /-- Slots are numbered in the order in which they are handed out. -/
  slots : slots.map Slot.id = List.range program.slots.issued

theorem keeps_modify {change : Subroutine → Subroutine} {subroutine : Subroutine}
    {supply : SlotSupply} {reports : List CompileError}
    (found : program.subroutines[id]? = some subroutine)
    (becomes : Subroutine.Becomes slots subroutine (change subroutine)) :
    Keeps slots program ⟨supply, program.subroutines.modify id change, reports⟩ := by
  intro other earlier found'
  rw [Array.getElem?_modify, found']
  split
  next same =>
    subst same
    cases found.symm.trans found'
    exact ⟨_, rfl, becomes⟩
  next => exact ⟨earlier, rfl, .refl slots earlier⟩

theorem Changes.keeps (changes : program.Changes slots after) : Keeps slots program after := by
  cases changes with
  | draw => exact fun _ earlier found => ⟨earlier, found, .refl _ earlier⟩
  | declare =>
    intro id earlier found
    obtain ⟨inside, _⟩ := Array.getElem?_eq_some_iff.mp found
    refine ⟨earlier, ?_, .refl _ earlier⟩
    rw [declaring, Array.getElem?_push, if_neg (Nat.ne_of_lt inside), found]
  | attach locals build resolved isMissing =>
    rw [run_implement, resolved]
    simp only [isMissing]
    refine keeps_modify (resolve_eq_ok.mp resolved).1 ⟨rfl, rfl, ?_, ?_⟩ <;> simp [isMissing]
  | @build id subroutine types builder found isPending =>
    refine keeps_modify found ⟨rfl, rfl, fun _ _ isBody => ?_, fun _ isBody => ?_⟩
    · cases isPending.symm.trans isBody
      exact .inr ⟨_, map_ty_newVars types program, .refl _, rfl⟩
    · cases isPending.symm.trans isBody

/-- Slots for new variables take the next numbers. -/
theorem ids_newVars (types : List Ty) (program : Program) :
    ((newVars types program).1.map Var.slot).map Slot.id =
      (List.range types.length).map (program.slots.issued + ·) := by
  have unfolded : (newVars types program).1 =
      ((program.slots.drawMany types.length).1.zip types).map fun entry => ⟨entry.1, entry.2⟩ := rfl
  have drawn : (newVars types program).1.map Var.slot = (program.slots.drawMany types.length).1 := by
    rw [unfolded, List.map_map]
    apply List.map_fst_zip
    simp [SlotSupply.drawMany]
  rw [drawn, SlotSupply.drawMany, List.map_map]
  rfl

/-- Nothing is declared, and further slots are handed out. -/
theorem Registered.extend {count : Nat} (registered : program.Registered slots)
    (same : program.SameDeclarations after)
    (drawn : more.map Slot.id = (List.range count).map (program.slots.issued + ·))
    (isIssued : after.slots.issued = program.slots.issued + count) :
    after.Registered (slots ++ more) where
  numbered id subroutine found := by
    have equal := same id
    rw [found] at equal
    obtain ⟨earlier, foundEarlier, entry⟩ := Option.map_eq_some_iff.mp equal.symm
    obtain ⟨handle, params⟩ := Prod.mk.inj entry
    rw [← handle, ← params]
    exact registered.numbered id earlier foundEarlier
  params := by
    have equal : after.subroutines.toList.map Subroutine.params =
        program.subroutines.toList.map Subroutine.params := by
      refine List.ext_getElem? fun id => ?_
      have entry := congrArg (Option.map Prod.snd) (same id)
      simpa [Option.map_map, Function.comp_def] using entry
    rw [List.flatMap_def, equal, ← List.flatMap_def]
    exact registered.params.trans (List.sublist_append_left ..)
  slots := by rw [List.map_append, registered.slots, drawn, isIssued, List.range_add]

theorem Changes.registered (changes : program.Changes more after)
    (registered : program.Registered slots) : after.Registered (slots ++ more) := by
  cases changes with
  | draw => exact registered.extend (.refl program) rfl rfl
  | declare name argCount returns =>
    refine ⟨fun id subroutine found => ?_, ?_, ?_⟩
    · rw [declaring, Array.getElem?_push] at found
      split at found
      next isLast =>
        cases found
        exact ⟨isLast.symm, (length_newVars _ _).trans List.length_replicate⟩
      next => exact registered.numbered id subroutine found
    · simp only [declaring, Array.toList_push, List.flatMap_append, List.map_append,
        List.flatMap_singleton]
      exact registered.params.append (.refl _)
    · rw [List.map_append, registered.slots, declaration, ids_newVars, ← List.range_add]
      rfl
  | @attach handle _ locals build resolved isMissing =>
    have drawn : [].map Slot.id = (List.range 0).map (program.slots.issued + ·) := rfl
    refine registered.extend (program.sameDeclarations_implement handle locals build) drawn ?_
    rw [run_implement, resolved]
    simp only [isMissing]
    rfl
  | @build id subroutine types build found isPending =>
    have same := program.sameDeclarations_body id
    rw [run_body, found] at same
    simp only [isPending] at same
    exact registered.extend same (ids_newVars types program) rfl

theorem Evolves.keeps (evolves : before.Evolves slots after) : Keeps slots before after := by
  induction evolves with
  | refl => exact fun _ earlier found => ⟨earlier, found, .refl [] earlier⟩
  | step _ changes ih => exact ih.trans changes.keeps

theorem Evolves.registered (evolves : before.Evolves more after)
    (registered : before.Registered slots) : after.Registered (slots ++ more) := by
  induction evolves with
  | refl => rwa [List.append_nil]
  | step _ changes ih =>
    rw [← List.append_assoc]
    exact changes.registered ih

/-! ## Compilation -/

section Compilation

open Lowering (outcome Uniform)

variable {α β : Type} {kept : Program → Prop}

/-- A step of lowering keeps a property of the program. -/
def Preserves (kept : Program → Prop) (step : LowerM α) : Prop :=
  ∀ context, kept context.program → kept (outcome step context).2.program

theorem Preserves.bind {step : LowerM α} {rest : α → LowerM β} (first : Preserves kept step)
    (behind : ∀ value, Preserves kept (rest value)) : Preserves kept (step >>= rest) := by
  intro context start
  have middle := first context start
  rw [Lowering.outcome_bind]
  rcases isFirst : outcome step context with ⟨_ | value, after⟩ <;> rw [isFirst] at middle
  · exact middle
  · exact behind value after middle

/-- A step that builds nothing keeps every property. -/
theorem preserves_of_uniform {step : LowerM α} (uniform : Uniform step) : Preserves kept step :=
  fun context start => (uniform.keeps context).1.symm ▸ start

variable (build : ∀ program id, kept program → kept ((Program.body id).run program).2)

include build

theorem preserves_lowerSubroutine (id : SubroutineId) :
    Preserves kept (Compile.lowerSubroutine id) := by
  intro context start
  have built := build context.program id start
  rw [Compile.outcome_lowerSubroutine]
  cases context.program.subroutines[id]? with
  | none => exact start
  | some subroutine =>
    rcases isBody : (Program.body id).run context.program with ⟨_ | body, after⟩ <;>
      rw [isBody] at built
    · exact built
    · exact preserves_of_uniform (Compile.uniform_lowerBody _ _ body) _ built

theorem preserves_lowerReferenced (count : Nat) (graphs : RoutineTable RoutineGraph) :
    Preserves kept (Compile.lowerReferenced count graphs) := by
  induction count generalizing graphs with
  | zero => exact fun _ start => start
  | succ count ih =>
    refine .bind (fun _ start => start) fun context => ?_
    cases context.referenced.find? fun id => (graphs.lookup (.subroutine id)).isNone with
    | none => exact fun _ start => start
    | some id => exact (preserves_lowerSubroutine build id).bind fun graph => ih _

/-- Compiling does nothing to a program but build bodies. -/
theorem compile_induction (start : kept program) (main : Expr) (options : CompileOptions) :
    kept ((compile main options).run program).2 := by
  have lowered : Preserves kept (Compile.lowerRoutines main) :=
    (preserves_of_uniform (Compile.uniform_lowerMain main)).bind fun _ =>
      .bind (fun _ start => start) fun _ => preserves_lowerReferenced build _ _
  rw [compile, Build.program_compileFrom]
  cases options.validate with
  | error => exact start
  | ok => exact lowered _ start

end Compilation

theorem sameDeclarations_compile (program : Program) (main : Expr) (options : CompileOptions) :
    program.SameDeclarations ((compile main options).run program).2 :=
  compile_induction (fun after id same => same.trans (sameDeclarations_body after id))
    (.refl program) main options

/-! ## Operations -/

/-- Declaring a subroutine with its body does not fail for the body. -/
theorem run_define (program : Program) (name : String) (argCount : Nat) (returns : Returns)
    (locals : List Ty) (build : Builder) :
    (define name argCount returns locals build).run program =
      if maxArguments < argCount then
        (.error (.invalidProgram (.tooManyArguments name argCount)), program)
      else
        (.ok (program.declaration name argCount returns).handle,
          ((implement (program.declaration name argCount returns).handle locals build).run
            (program.declaring name argCount returns)).2) := by
  have resolved : (program.declaring name argCount returns).resolve
      (program.declaration name argCount returns).handle =
        .ok (program.declaration name argCount returns) :=
    resolve_eq_ok.mpr ⟨Array.getElem?_push_size, rfl⟩
  rw [define, run_bind, run_declare]
  by_cases many : maxArguments < argCount
  · simp only [many, if_true]
  · simp only [many, if_false, run_bind, run_implement, resolved]
    rfl

end Program

/-- A compilation declares nothing. -/
theorem Build.sameDeclarations {main : Expr} {options : CompileOptions} {before : Program}
    (build : Build main options before) : before.SameDeclarations build.context.program := by
  have same := Program.sameDeclarations_compile before main options
  rwa [run_compile_eq_ok.mpr ⟨build, rfl, rfl⟩] at same

/-- An operation on a program. -/
inductive Operation where
  | newVar (ty : Ty) (requested : Option Cell)
  | declare (name : String) (argCount : Nat) (returns : Returns)
  | define (name : String) (argCount : Nat) (returns : Returns) (locals : List Ty)
      (build : Builder)
  | implement (handle : Handle) (locals : List Ty) (build : Builder)
  | body (id : SubroutineId)
  | compile (main : Expr) (options : CompileOptions)

namespace Operation

/-- The program that an operation leaves behind, with success or without. -/
def perform (program : Program) : Operation → Program
  | newVar ty requested => ((Program.newVar ty requested).run program).2
  | declare name argCount returns => ((Program.declare name argCount returns).run program).2
  | define name argCount returns locals build =>
      ((Program.define name argCount returns locals build).run program).2
  | implement handle locals build => ((Program.implement handle locals build).run program).2
  | body id => ((Program.body id).run program).2
  | compile main options => ((ContractBackend.compile main options).run program).2

/-- The program after a history of operations. -/
def after (start : Program) (history : List Operation) : Program :=
  history.foldl perform start

end Operation

end ContractBackend
