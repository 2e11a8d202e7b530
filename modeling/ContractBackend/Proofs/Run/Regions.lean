import ContractBackend.Proofs.Run.Activations

/-!
# Control stays in its routine

The lines of a listing are divided among the routines. Control is always in the lines of the
routine that was called last and has not returned, and gets from one routine to another by
calls and returns only. Hence no run fails through the fault of the listing.
-/

namespace ContractBackend

open Machine (State Limits Environment Memory Value Fault)

namespace Build

variable {α : Type} {main : Expr} {options : CompileOptions} {before : Program}

/-- The routine that a line belongs to. -/
def routineAt (build : Build main options before) (line : Nat) : Option Routine :=
  build.origins[line]?.map Link.Origin.routine

/-- Where control goes on behind the instruction at a line: in the same routine, at the label of
a subroutine, or behind the last call. -/
inductive Continues (build : Build main options before) (line : Nat) (state next : State) :
    Opcode → Prop where
  | within {op : Opcode} : op ≠ .callsub → op ≠ .retsub →
      build.routineAt next.line = build.routineAt state.line → next.frames = state.frames →
      Continues build line state next op
  | call {id : SubroutineId} : build.origins[next.line]? = some ⟨.subroutine id, none, false⟩ →
      build.routineAt (line + 1) = build.routineAt state.line →
      next.frames = (line + 1) :: state.frames → Continues build line state next .callsub
  | back : state.frames = next.line :: next.frames → Continues build line state next .retsub

/-- Control is in the routine of the activation at hand and stays there until the next call or
return. -/
structure Confined (build : Build main options before) (limits : Limits) (env : Environment)
    (state : State) (chain : List Activation) : Prop where
  /-- The line of control, and the lines to come back to, are in the routines of the
  activations. -/
  lines : (state.line :: state.frames).map build.routineAt =
    chain.map fun activation => some activation.routine
  outermost : chain.getLast?.map Activation.routine = some .main
  /-- There is an instruction to be executed, in the same routine. -/
  fetched : ∃ line op arguments, build.code.fetch state.line = some (line, op, arguments) ∧
    build.routineAt line = build.routineAt state.line ∧
    ∀ next, state.step limits env build.code = .ok (.running next) →
      build.Continues line state next op

variable {build : Build main options before} {gauge : Routine → Gauge α} {start : Routine → α}
  {limits : Limits} {env : Environment} {state next : State} {routine : Routine} {level : α}
  {code : List Link.Element} {line index : Nat} {instr : Instr} {arguments : List Argument}

theorem routineAt_lineOf (found : build.table.lookup routine = some code)
    (inside : index < code.length) :
    build.routineAt (Link.lineOf build.table routine index) = some routine := by
  rw [routineAt, origins, Link.origins_lineOf found (List.getElem?_eq_getElem inside)]
  rfl

/-- There is an element of the code at a safe place. -/
theorem lt_of_safe
    (safe : FlatCode.Safe (gauge routine) (code.map Link.Element.item) index level) :
    index < code.length := by
  obtain ⟨_, here⟩ := safe.exists_item
  simpa using (List.getElem?_eq_some_iff.mp here).1

theorem Stands.routineAt (stands : build.Stands gauge routine line level) :
    build.routineAt line = some routine := by
  cases stands with
  | inside found isLine safe =>
    rw [isLine]
    exact routineAt_lineOf found (lt_of_safe safe)
  | entry found isLine safe =>
    rw [isLine]
    cases routine with
    | main =>
      have first := routineAt_lineOf found (lt_of_safe safe)
      exact first
    | subroutine id =>
      rw [Build.routineAt, origins, Link.origins_firstLine found]
      rfl

theorem Fetches.routineAt
    (fetches : build.Fetches gauge routine line level code index instr arguments) :
    build.routineAt (Link.lineOf build.table routine index) = some routine :=
  routineAt_lineOf fetches.found (by simpa using (List.getElem?_eq_some_iff.mp fetches.here).1)

section Kept

variable {holds : Memory → Activation → α → Prop}
  {awaits : Routine → List Value → Activation → α → Prop} {top : Activation}
  {rest : List Activation}

theorem Suspended.map_routineAt {frames : List Nat}
    (suspended : build.Suspended gauge awaits top rest frames) :
    frames.map build.routineAt = rest.map fun activation => some activation.routine := by
  induction suspended with
  | main => rfl
  | call _ _ stands _ _ ih => rw [List.map_cons, List.map_cons, stands.routineAt, ih]

/-- The main routine waits for all others. -/
theorem Suspended.outermost {frames : List Nat}
    (suspended : build.Suspended gauge awaits top rest frames) :
    (top :: rest).getLast?.map Activation.routine = some .main := by
  induction suspended with
  | main isMain => simp [isMain]
  | call _ _ _ _ _ ih => rwa [List.getLast?_cons_cons]

/-- A step stays in the routine unless it is a call or a return. -/
theorem Moves.continues
    (moves : build.Moves gauge start limits env routine level index instr arguments state next)
    (stands : build.Stands gauge routine state.line level) :
    build.Continues (Link.lineOf build.table routine index) state next instr.op := by
  have here := stands.routineAt
  cases moves with
  | straight goes noCall _ _ frames stays =>
    refine .within noCall ?_ (stays.routineAt.trans here.symm) frames
    intro isReturn
    simp [isReturn, Opcode.isExit] at goes
  | jump isJump _ frames stays =>
    exact .within (by simp [isJump]) (by simp [isJump]) (stays.routineAt.trans here.symm) frames
  | branch conditional _ _ frames stays =>
    refine .within ?_ ?_ (stays.routineAt.trans here.symm) frames <;>
      rcases conditional with op | op <;> simp [op]
  | @call _ id isCall _ _ _ isLine frames entered stays =>
    have isLabel : build.origins[next.line]? = some ⟨.subroutine id, none, false⟩ := by
      rw [isLine]
      cases entered with
      | entry found | inside found => exact Link.origins_firstLine found
    rw [isCall]
    exact .call isLabel (stays.routineAt.trans here.symm) frames
  | back isReturn _ _ frames =>
    rw [isReturn]
    exact .back frames

theorem Certified.confined (certified : build.Certified gauge start)
    (kept : build.Kept gauge holds awaits state top rest level) :
    build.Confined limits env state (top :: rest) := by
  obtain ⟨code, index, instr, arguments, fetches⟩ := kept.stands.fetch
  have here := kept.stands.routineAt
  refine ⟨?_, kept.suspended.outermost, _, _, _, fetches.fetched, ?_, fun next steps => ?_⟩
  · rw [List.map_cons, List.map_cons, here, kept.suspended.map_routineAt]
  · rw [fetches.routineAt, here]
  · exact (certified.moves fetches steps).continues kept.stands

end Kept

/-! ## Programs written in the catalog -/

section Catalog

/-- Nothing is kept of the activations but where control is. -/
theorem sustains_true (build : Build main options before) (gauge : Routine → Gauge α)
    (start : Routine → α) (limits : Limits) (env : Environment) :
    build.Sustains gauge start limits env (fun _ _ _ => True) (fun _ _ _ _ => True) where
  initial := trivial
  straight := by intros; trivial
  branch := by intros; trivial
  call := by intros; exact ⟨trivial, trivial⟩
  back := by intros; trivial

theorem isTidy_of_regular (main : Bool) (instr : Instr)
    (admitted : (Dialect.regular main).admits instr = true) : instr.isTidy = true := by
  simp only [Dialect.regular, Bool.and_eq_true] at admitted
  exact admitted.1.1

/-- The code of a program that is written in the catalog is safe. -/
theorem certified_regular (build : Build main options before) (catalog : main.isCatalog = true)
    (bodies : before.BodiesHave fun body => body.isCatalog = true) :
    build.Certified (before.gauge .regular) fun _ => none :=
  build.certified Dialect.complete_regular isTidy_of_regular (Expr.fits_regular catalog true)
    (bodies.mono fun _ catalog => Expr.fits_regular catalog false) nofun

theorem hasImmediate_of_move {level next : Level}
    (moves : (before.gauge .regular routine).move instr level = some next) :
    instr.hasImmediate = true := by
  have admitted := admits_of_move moves
  simp only [Dialect.regular, Bool.and_eq_true] at admitted
  exact admitted.1.2

/-- The main routine does not return to a caller. -/
theorem ne_main_of_leave {level : Level}
    (leaves : (before.gauge .regular routine).leave instr level) (isReturn : instr.op = .retsub) :
    routine ≠ .main := by
  rintro rfl
  have admitted := leaves.1
  simp [Dialect.regular, isReturn] at admitted

/-- A step that fails does not fail through the fault of the listing. -/
theorem Reaches.isStray (catalog : main.isCatalog = true)
    (bodies : before.BodiesHave fun body => body.isCatalog = true) {chain : List Activation}
    {fault : Fault} (reaches : build.Reaches limits env state chain)
    (fails : state.step limits env build.code = .error fault) : fault.isStray = false := by
  have certified := build.certified_regular catalog bodies
  obtain ⟨top, rest, level, rfl, kept⟩ := certified.exists_kept (build.sustains_true ..) reaches
  refine certified.isStray hasImmediate_of_move (fun leaves isReturn => ?_) kept.stands fails
  have inside := ne_main_of_leave leaves isReturn
  have suspended := kept.suspended
  generalize state.frames = frames at suspended ⊢
  cases suspended with
  | main isMain => exact absurd isMain inside
  | call => nofun

/-- Control stays in its routine. -/
theorem control_stays_in_routine {artifact : Artifact} {after : Program}
    (catalog : main.isCatalog = true)
    (bodies : before.BodiesHave fun body => body.isCatalog = true)
    (compiled : (compile main options).run before = (.ok artifact, after)) :
    ∃ build : Build main options before, build.artifact = artifact ∧
      List.Forall₂ (Link.Resolves build.resolver) build.origins artifact.assembly.lines ∧
      ∀ (limits : Limits) (env : Environment),
        (∀ state chain, build.Reaches limits env state chain →
          build.Confined limits env state chain) ∧
        ∀ fault, Machine.run artifact.assembly env limits = .error fault →
          fault.isStray = false := by
  obtain ⟨build, rfl, _⟩ := run_compile_eq_ok.mp compiled
  have certified := build.certified_regular catalog bodies
  refine ⟨build, rfl, build.isListed.resolved, fun limits env =>
    ⟨fun state chain reaches => ?_, fun fault fails => ?_⟩⟩
  · obtain ⟨top, rest, level, rfl, kept⟩ := certified.exists_kept (build.sustains_true ..) reaches
    exact certified.confined kept
  · have keeps : ∀ state next : State, (∃ chain, build.Reaches limits env state chain) →
        state.step limits env build.code = .ok (.running next) →
        ∃ chain, build.Reaches limits env next chain :=
      fun _ _ ⟨_, reaches⟩ steps => ⟨_, reaches.step steps⟩
    rcases State.exists_step_eq_error keeps ⟨_, .start⟩ fails with rfl | ⟨_, ⟨_, reaches⟩, fails⟩
    · rfl
    · exact reaches.isStray catalog bodies fails

end Catalog

end Build

theorem exists_compile_factorial :
    ∃ artifact after, (compile factorialMain { optimize := .all }).run factorialProgram =
      (.ok artifact, after) :=
  Fallible.exists_of_isSome (by decide +kernel)

theorem Build.control_stays_in_routine_factorial :
    factorialMain.isCatalog = true ∧
      factorialProgram.BodiesHave (fun body => body.isCatalog = true) ∧
      ∃ artifact after, (compile factorialMain { optimize := .all }).run factorialProgram =
          (.ok artifact, after) ∧
        ∃ build : Build factorialMain { optimize := .all } factorialProgram,
          build.artifact = artifact ∧
          List.Forall₂ (Link.Resolves build.resolver) build.origins artifact.assembly.lines ∧
          ∀ (limits : Limits) (env : Environment),
            (∀ state chain, build.Reaches limits env state chain →
              build.Confined limits env state chain) ∧
            ∀ fault, Machine.run artifact.assembly env limits = .error fault →
              fault.isStray = false := by
  obtain ⟨artifact, after, compiled⟩ := exists_compile_factorial
  have catalog : factorialMain.isCatalog = true := rfl
  have bodies : factorialProgram.BodiesHave fun body => body.isCatalog = true :=
    bodies_factorialProgram rfl
  exact ⟨catalog, bodies, artifact, after, compiled,
    control_stays_in_routine catalog bodies compiled⟩

end ContractBackend
