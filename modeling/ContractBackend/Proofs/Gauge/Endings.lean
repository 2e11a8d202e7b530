import ContractBackend.Proofs.Gauge.Routines

/-!
# Where control ends

Control never gets behind the code of an expression that is said to terminate. It follows that a
routine is left wherever control does not go on in it: control does not run off its end into the
code of the next routine.
-/

namespace ContractBackend

namespace Graph

variable {graph other later : Graph} {entry source target : BlockId} {blocks : List Block}

/-- What is reachable depends on the reachable blocks only. -/
theorem mem_reachable_congr (inside : ∀ id ∈ graph.reachable entry, id < graph.size)
    (size : graph.size ≤ other.size)
    (same : ∀ id ∈ graph.reachable entry, other.successors id = graph.successors id)
    (id : BlockId) : id ∈ other.reachable entry ↔ id ∈ graph.reachable entry := by
  have fewer : ∀ id ∈ other.reachable entry, id ∈ graph.reachable entry := by
    apply Reach.closure_preserves
    · intro id _ reached target edge
      rw [same id reached] at edge
      exact reachable_closed inside id reached target edge
    · simpa using mem_reachable_entry
  have within : ∀ id ∈ other.reachable entry, id < other.size :=
    fun id reached => Nat.lt_of_lt_of_le (inside id (fewer id reached)) size
  have more : ∀ id ∈ graph.reachable entry, id ∈ other.reachable entry := by
    apply Reach.closure_preserves
    · intro id reached still target edge
      rw [← same id reached] at edge
      exact reachable_closed within id still target edge
    · simpa using mem_reachable_entry
  exact ⟨fewer id, more id⟩

/-- Linking a block behind which control does not get brings nothing within reach. -/
theorem mem_reachable_setNext (inside : ∀ id ∈ graph.reachable entry, id < graph.size)
    (stops : source ∈ graph.reachable entry → (graph.block source).exits = true)
    (isLater : (graph.append blocks).setNext source target = .ok later) (id : BlockId) :
    id ∈ later.reachable entry ↔ id ∈ graph.reachable entry := by
  obtain ⟨known, _, _, rfl⟩ := setNext_eq_ok.mp isLater
  refine mem_reachable_congr inside ?_ (fun id reached => ?_) id
  · rw [size_linked, size_append]
    exact Nat.le_add_right ..
  · have kept := block_append_of_lt blocks (inside id reached)
    by_cases isSource : id = source
    · subst isSource
      have exits : (((graph.append blocks).linked id target).block id).exits = true := by
        rw [linked, block_modify_self _ known, kept]
        exact stops reached
      rw [successors, successors, Block.successors, Block.successors, exits, stops reached]
      rfl
    · rw [successors, linked, block_modify_of_ne _ isSource, kept, successors]

end Graph

/-- Control leaves a routine wherever it does not go on in it. -/
def RoutineGraph.EndsInExits (routine : RoutineGraph) : Prop :=
  ∀ id ∈ routine.graph.reachable routine.entry, routine.graph.successors id = [] →
    (routine.graph.block id).exits = true

namespace Lowering

variable {expr : Expr} {before after : Context} {span : Span}

/-- Nothing has to be known of what follows code that terminates. -/
theorem safe_of_terminates (catalog : expr.isCatalog = true) (ends : expr.terminates = true)
    (lowered : Yields expr.lower before span after) :
    after.graph.Safe (before.home.gauge (.regular before.home.isMain)) span.entry none := by
  have code := lowered_of_yields lowered
  have graded : (expr.fragment before.home.isMain).Graded
      (before.home.gauge (.regular before.home.isMain)) _ _ (some none) (expr.onward (some none)) _ :=
    (code.passes expr (by simp)).grades (some none)
      fun level isLevel => Option.some.inj isLevel ▸ Expr.fits_regular catalog _
  rw [Expr.onward, Expr.beyond, if_pos ends] at graded
  exact code.safe graded

/-- The last block of code that terminates is out of reach, or it leaves the routine. -/
theorem exits_of_terminates (catalog : expr.isCatalog = true) (ends : expr.terminates = true)
    (lowered : Yields expr.lower before span after)
    (reached : span.exit ∈ after.graph.reachable span.entry) :
    (after.graph.block span.exit).exits = true := by
  have flowing : after.graph.Flowing span.entry := .of_safe (safe_of_terminates catalog ends lowered)
  refine flowing.ending span.exit reached ?_
  rw [Graph.successors, Block.successors, (lowered_of_yields lowered).waits]
  split <;> rfl

/-- Control never runs off: it does not get behind code that terminates, whatever is linked
there, and it leaves every routine wherever it does not go on in it. -/
theorem control_never_runs_off (before : Context) :
    (∀ (expr : Expr) (span : Span) (after : Context), expr.isCatalog = true →
      expr.terminates = true → Yields expr.lower before span after →
        (span.exit ∈ after.graph.reachable span.entry →
          (after.graph.block span.exit).exits = true) ∧
        ∀ blocks target later, (after.graph.append blocks).setNext span.exit target = .ok later →
          ∀ id, id ∈ later.reachable span.entry ↔ id ∈ after.graph.reachable span.entry) ∧
    (∀ (main : Expr) (routine : RoutineGraph) (after : Context), main.isCatalog = true →
      Yields (Compile.lowerMain main) before routine after → routine.EndsInExits) ∧
    ∀ (id : SubroutineId) (routine : RoutineGraph) (after : Context),
      before.program.BodiesHave (fun body => body.isCatalog = true) →
      Yields (Compile.lowerSubroutine id) before routine after → routine.EndsInExits := by
  refine ⟨fun expr span after catalog ends lowered => ?_, fun main routine after catalog lowered => ?_,
    fun id routine after catalog lowered => ?_⟩
  · have stops := exits_of_terminates catalog ends lowered
    have valid : after.graph.Valid span.entry := .of_safe (safe_of_terminates catalog ends lowered)
    exact ⟨stops, fun blocks target later isLater =>
      Graph.mem_reachable_setNext valid.inside stops isLater⟩
  · obtain ⟨safe, _⟩ := Compile.safe_of_lowerMain Dialect.complete_regular.toClosed
      (Expr.fits_regular catalog true) lowered
    exact (Graph.Flowing.of_safe safe).ending
  · obtain ⟨safe, _⟩ := Compile.safe_of_lowerSubroutine Dialect.complete_regular.toClosed
      (by rintro _ ⟨⟩) (catalog.mono fun body isCatalog => Expr.fits_regular isCatalog false) lowered
    exact (Graph.Flowing.of_safe safe).ending

/-- Leaves the loop around it, or the program in one way or the other. -/
def settling : Expr :=
  .seq [.ifThen (.int 1) .breakLoop, .ifElse (.int 0) .abort (.exit true)]

theorem control_never_runs_off_factorial :
    (∃ span after later, Yields settling.lower { program := {}, version := 5, loops := [{}] } span
        after ∧
      span.exit ∉ after.graph.reachable span.entry ∧
      (after.graph.append [{}]).setNext span.exit after.graph.size = .ok later ∧
      ∀ id, id ∈ later.reachable span.entry ↔ id ∈ after.graph.reachable span.entry) ∧
    (∃ routine after, Yields (Compile.lowerMain factorialMain)
        { program := factorialProgram, version := 5 } routine after ∧ routine.EndsInExits) ∧
    ∃ routine after, Yields (Compile.lowerSubroutine 0)
        { program := factorialProgram, version := 5 } routine after ∧ routine.EndsInExits := by
  refine ⟨?_, ?_, ?_⟩
  · have lowers : (outcome settling.lower
        { program := {}, version := 5, loops := [{}] }).1.toOption.any fun span =>
          let graph := (outcome settling.lower
            { program := {}, version := 5, loops := [{}] }).2.graph
          decide (span.exit ∉ graph.reachable span.entry) &&
            ((graph.append [{}]).setNext span.exit graph.size).toOption.isSome := by
      decide +kernel
    rcases lowered : outcome settling.lower { program := {}, version := 5, loops := [{}] } with
      ⟨_ | span, after⟩
    · simp [lowered, Except.toOption] at lowers
    · simp only [lowered, Except.toOption, Option.any_some, Bool.and_eq_true,
        decide_eq_true_eq] at lowers
      obtain ⟨away, links⟩ := lowers
      cases linked : (after.graph.append [{}]).setNext span.exit after.graph.size with
      | error => simp [linked] at links
      | ok later =>
          obtain ⟨_, unchanged⟩ := (control_never_runs_off _).1 settling span after rfl rfl lowered
          exact ⟨span, after, later, lowered, away, linked, unchanged _ _ later linked⟩
  · obtain ⟨routine, after, lowered⟩ : ∃ routine after, Yields (Compile.lowerMain factorialMain)
        { program := factorialProgram, version := 5 } routine after :=
      Fallible.exists_of_isSome (by decide +kernel)
    exact ⟨routine, after, lowered, (control_never_runs_off _).2.1 _ routine after rfl lowered⟩
  · obtain ⟨routine, after, lowered⟩ : ∃ routine after, Yields (Compile.lowerSubroutine 0)
        { program := factorialProgram, version := 5 } routine after :=
      Fallible.exists_of_isSome (by decide +kernel)
    have catalog : factorialProgram.BodiesHave fun body => body.isCatalog = true :=
      bodies_factorialProgram rfl
    exact ⟨routine, after, lowered,
      (control_never_runs_off _).2.2 0 routine after catalog lowered⟩

end Lowering

end ContractBackend
