import Mathlib.Data.List.Chain
import ContractBackend.Proofs.Run.Regions

/-!
# The chain of active routines

The routines that are active at a time, as they are read off the line of control and the lines
to come back to, are a path of the call graph. So what the call graph says of routines that
exclude each other, and of calls that cannot enter their caller again, is true of every run.
-/

namespace ContractBackend

open Machine (State Limits Environment Memory Value)

namespace CallGraph

open Relation (TransGen ReflTransGen)

variable {graph : CallGraph} {front rest chain : List Routine} {caller : Routine}

/-- A chain of calls, the innermost routine first: each routine is called by the next one. -/
def IsPath (graph : CallGraph) (chain : List Routine) : Prop :=
  chain.IsChain fun callee caller => ∃ id, callee = .subroutine id ∧ id ∈ graph.callees caller

/-- Whatever is active above a routine is at the end of a chain of calls from it. -/
theorem IsPath.transGen (path : graph.IsPath (front ++ caller :: rest)) {routine : Routine}
    (above : routine ∈ front) : TransGen graph.IsEdge caller routine := by
  have chains : (front ++ caller :: rest).IsChain fun callee caller =>
      TransGen graph.IsEdge caller callee := path.imp fun _ _ edge => .single edge
  have each := chains.pairwise
  exact (List.pairwise_append.mp each).2.2 routine above caller List.mem_cons_self

/-- Routines that exclude each other are not active at the same time. -/
theorem IsPath.not_exclusive (path : graph.IsPath chain) {left right : SubroutineId}
    (hasLeft : .subroutine left ∈ chain) (hasRight : .subroutine right ∈ chain)
    (different : left ≠ right) : graph.exclusive left right = false := by
  rw [Bool.eq_false_iff, ne_eq, exclusive_iff]
  rintro ⟨_, noneTo, noneFrom⟩
  obtain ⟨front, rest, rfl⟩ := List.append_of_mem hasRight
  have other : Routine.subroutine left ≠ .subroutine right := fun same =>
    different (by cases same; rfl)
  rcases List.mem_append.mp hasLeft with above | below
  · exact noneFrom (path.transGen above)
  · have below := (List.mem_cons.mp below).resolve_left other
    obtain ⟨middle, rest, rfl⟩ := List.append_of_mem below
    have path : graph.IsPath ((front ++ .subroutine right :: middle) ++ .subroutine left :: rest) := by
      simpa using path
    exact noneTo (path.transGen (by simp))

/-- A call that cannot enter its caller again does not. -/
theorem IsPath.not_mem_of_isReentry {callee : SubroutineId}
    (path : graph.IsPath (front ++ .subroutine callee :: caller :: rest))
    (single : graph.isReentry caller callee = false) :
    caller ∉ front ++ [.subroutine callee] := by
  intro member
  have again : ReflTransGen graph.IsEdge (.subroutine callee) caller := by
    rcases List.mem_append.mp member with above | isCallee
    · exact (path.transGen above).to_reflTransGen
    · rw [List.mem_singleton.mp isCallee]
  rw [isReentry_iff.mpr again] at single
  cases single

end CallGraph

namespace Build

variable {α : Type} {main : Expr} {options : CompileOptions} {before : Program}

/-- The routines that are active, innermost first, as they are read off the line of control and
the lines to come back to. -/
def active (build : Build main options before) (state : State) : List (Option Routine) :=
  (state.line :: state.frames).map build.routineAt

/-- What a run comes to before the call that has led to a state returns. -/
inductive During (build : Build main options before) (limits : Limits) (env : Environment)
    (called : State) : State → Prop where
  | start : During build limits env called called
  | step {state next : State} : During build limits env called state →
      state.step limits env build.code = .ok (.running next) →
      called.frames.length ≤ next.frames.length → During build limits env called next

variable {build : Build main options before} {gauge : Routine → Gauge α} {start : Routine → α}
  {limits : Limits} {env : Environment} {state next called later : State}
  {chain : List Activation}

section Suspended

variable {awaits : Routine → List Value → Activation → α → Prop} {top : Activation}
  {rest : List Activation} {frames : List Nat}

/-- Every waiting activation has called the one above it. -/
theorem Suspended.isPath (suspended : build.Suspended gauge awaits top rest frames) :
    build.callGraph.IsPath ((top :: rest).map Activation.routine) := by
  induction suspended with
  | main => exact List.isChain_singleton _
  | call isSub edge _ _ _ ih => exact List.isChain_cons_cons.mpr ⟨⟨_, isSub, edge⟩, ih⟩

end Suspended

/-- Control stays in the routines of the activations. -/
theorem Certified.confined_of_reaches (certified : build.Certified gauge start)
    (reaches : build.Reaches limits env state chain) :
    build.Confined limits env state chain := by
  obtain ⟨top, rest, level, rfl, kept⟩ := certified.exists_kept (build.sustains_true ..) reaches
  exact certified.confined kept

/-- The active routines are a path of the call graph. -/
theorem Certified.exists_path (certified : build.Certified gauge start)
    (reaches : build.Reaches limits env state chain) :
    ∃ routines, build.active state = routines.map some ∧ build.callGraph.IsPath routines ∧
      routines.getLast? = some .main := by
  obtain ⟨top, rest, level, rfl, kept⟩ := certified.exists_kept (build.sustains_true ..) reaches
  have confined : build.Confined limits env state (top :: rest) := certified.confined kept
  refine ⟨(top :: rest).map Activation.routine, ?_, kept.suspended.isPath, ?_⟩
  · rw [active, confined.lines, List.map_map]
    rfl
  · rw [List.getLast?_map]
    exact confined.outermost

/-- Until a call returns, the lines to come back to are kept, and the first routine above them is
the one that was called. -/
theorem Certified.exists_above (certified : build.Certified gauge start)
    (reaches : build.Reaches limits env called chain) {callee : Routine}
    (isCallee : build.routineAt called.line = some callee)
    (during : build.During limits env called later) :
    (∃ chain, build.Reaches limits env later chain) ∧ ∃ above,
      later.frames = above ++ called.frames ∧
      ((later.line :: above).map build.routineAt).getLast? = some (some callee) := by
  induction during with
  | start => exact ⟨⟨chain, reaches⟩, [], rfl, by simp [isCallee]⟩
  | @step state next _ steps deep ih =>
    obtain ⟨⟨chain, reached⟩, above, frames, first⟩ := ih
    refine ⟨⟨_, reached.step steps⟩, ?_⟩
    obtain ⟨line, op, arguments, fetched, same, continues⟩ :=
      (certified.confined_of_reaches reached).fetched
    cases continues next steps with
    | within _ _ stays keeps =>
      refine ⟨above, keeps.trans frames, ?_⟩
      rw [List.map_cons, stays]
      exact first
    | call _ stays keeps =>
      refine ⟨(line + 1) :: above, by rw [keeps, frames]; rfl, ?_⟩
      rw [List.map_cons, List.map_cons, List.getLast?_cons_cons, stays]
      exact first
    | back keeps =>
      cases above with
      | nil =>
        have shorter := congrArg List.length (keeps.symm.trans frames)
        simp only [List.length_cons, List.nil_append] at shorter
        omega
      | cons back above =>
        obtain ⟨rfl, rest⟩ := List.cons.inj (keeps.symm.trans frames)
        exact ⟨above, rest, by simpa using first⟩

/-- A call that cannot enter its caller again does not. -/
theorem Certified.not_active_again (certified : build.Certified gauge start)
    (reaches : build.Reaches limits env state chain) {line : Nat} {arguments : List Argument}
    {caller : Routine} {callee : SubroutineId}
    (fetched : build.code.fetch state.line = some (line, .callsub, arguments))
    (steps : state.step limits env build.code = .ok (.running called))
    (isCaller : build.routineAt state.line = some caller)
    (isCallee : build.routineAt called.line = some (.subroutine callee))
    (single : build.callGraph.isReentry caller callee = false)
    (during : build.During limits env called later) :
    ∃ above, later.frames = above ++ called.frames ∧
      some caller ∉ (later.line :: above).map build.routineAt := by
  obtain ⟨_, _, _, isFetched, _, continues⟩ := (certified.confined_of_reaches reaches).fetched
  rw [fetched] at isFetched
  cases isFetched
  cases continues called steps with
  | within noCall => exact absurd rfl noCall
  | call _ stays frames =>
    obtain ⟨⟨_, reached⟩, above, isAbove, first⟩ :=
      certified.exists_above (reaches.step steps) isCallee during
    obtain ⟨routines, isActive, path, _⟩ := certified.exists_path reached
    refine ⟨above, isAbove, ?_⟩
    -- The routine that was called is the first one above its caller.
    obtain ⟨inner, isInner⟩ := List.getLast?_eq_some_iff.mp first
    rw [active, isAbove, ← List.cons_append, List.map_append, isInner, frames, List.map_cons, stays,
      isCaller, List.append_assoc] at isActive
    obtain ⟨front, behind, rfl, rfl, isBehind⟩ := List.append_eq_map_iff.mp isActive
    obtain ⟨_, waiting, rfl, same, isWaiting⟩ := List.map_eq_cons_iff.mp isBehind
    cases same
    obtain ⟨_, rest, rfl, same, _⟩ := List.map_eq_cons_iff.mp isWaiting
    cases same
    rw [isInner]
    simpa using path.not_mem_of_isReentry single

/-- What the call graph says of the routines that are active in a state. -/
structure FollowsCalls (build : Build main options before) (limits : Limits) (env : Environment)
    (state : State) : Prop where
  path : ∃ routines, build.active state = routines.map some ∧
    (CallGraph.ofRoutines build.flat).IsPath routines ∧ routines.getLast? = some .main
  /-- Routines that exclude each other are not both active. -/
  exclusive : ∀ left right, left ≠ right → some (.subroutine left) ∈ build.active state →
    some (.subroutine right) ∈ build.active state →
    (CallGraph.ofRoutines build.flat).exclusive left right = false
  /-- After a call that cannot enter its caller again, the caller is not activated above it until
  the call returns. -/
  reentry : ∀ {called : State} {line : Nat} {arguments : List Argument} {caller : Routine}
    {callee : SubroutineId}, build.code.fetch state.line = some (line, .callsub, arguments) →
    state.step limits env build.code = .ok (.running called) →
    build.routineAt state.line = some caller →
    build.routineAt called.line = some (.subroutine callee) →
    (CallGraph.ofRoutines build.flat).isReentry caller callee = false →
    ∀ later, build.During limits env called later → ∃ above,
      later.frames = above ++ called.frames ∧
      some caller ∉ (later.line :: above).map build.routineAt

/-- The call graph bounds the active routines. -/
theorem active_routines_follow_calls {artifact : Artifact} {after : Program}
    (catalog : main.isCatalog = true)
    (bodies : before.BodiesHave fun body => body.isCatalog = true)
    (compiled : (compile main options).run before = (.ok artifact, after)) :
    ∃ build : Build main options before, build.artifact = artifact ∧
      List.Forall₂ (Link.Resolves build.resolver) build.origins artifact.assembly.lines ∧
      ∀ limits env state chain, build.Reaches limits env state chain →
        build.FollowsCalls limits env state := by
  obtain ⟨build, rfl, _⟩ := run_compile_eq_ok.mp compiled
  have certified := build.certified_regular catalog bodies
  refine ⟨build, rfl, build.isListed.resolved,
    fun limits env state chain reaches => ?_⟩
  obtain ⟨routines, isActive, path, outermost⟩ := certified.exists_path reaches
  refine ⟨⟨routines, isActive, path, outermost⟩, fun left right different hasLeft hasRight => ?_,
    fun fetched steps isCaller isCallee single later during =>
      certified.not_active_again reaches fetched steps isCaller isCallee single during⟩
  rw [isActive] at hasLeft hasRight
  exact path.not_exclusive (by simpa using hasLeft) (by simpa using hasRight) different

theorem active_routines_follow_calls_factorial :
    factorialMain.isCatalog = true ∧
      factorialProgram.BodiesHave (fun body => body.isCatalog = true) ∧
      ∃ artifact after, (compile factorialMain { optimize := .all }).run factorialProgram =
          (.ok artifact, after) ∧
        ∃ build : Build factorialMain { optimize := .all } factorialProgram,
          build.artifact = artifact ∧
          List.Forall₂ (Link.Resolves build.resolver) build.origins artifact.assembly.lines ∧
          ∀ limits env state chain, build.Reaches limits env state chain →
            build.FollowsCalls limits env state := by
  obtain ⟨artifact, after, compiled⟩ := exists_compile_factorial
  have catalog : factorialMain.isCatalog = true := rfl
  have bodies : factorialProgram.BodiesHave fun body => body.isCatalog = true :=
    bodies_factorialProgram rfl
  exact ⟨catalog, bodies, artifact, after, compiled,
    active_routines_follow_calls catalog bodies compiled⟩

end Build

end ContractBackend
