import ContractBackend.Proofs.Lowering.Outcomes

/-!
# Lowering keeps to itself

Lowering an expression adds blocks to the graph of a routine and touches nothing else of it, also
where it fails half way. What it adds on success is code that is complete but for its last block,
which waits for a successor.
-/

namespace ContractBackend

namespace Leads

variable {first last exit id : Nat} {jumps : Jump → List Nat} {next next' : Option Nat}

/-- While the loop around code is open, only its last block has no successor. -/
theorem exists_next (leads : Leads first last exit jumps next .open id (.simple next'))
    (notExit : id ≠ exit) : ∃ target, next' = some target := by
  cases leads with
  | inner => exact ⟨_, rfl⟩
  | next isExit => exact absurd isExit notExit
  | jump _ goes => cases goes

/-- Blocks that decide have two targets. -/
theorem exists_targets {loop : JumpTargets} {onTrue onFalse : Option Nat}
    (leads : Leads first last exit jumps next loop id (.conditional onTrue onFalse)) :
    ∃ whenTrue whenFalse, onTrue = some whenTrue ∧ onFalse = some whenFalse ∧
      whenTrue ≠ whenFalse := by
  cases leads with
  | fork _ _ _ apart => exact ⟨_, _, rfl, rfl, Nat.ne_of_lt apart⟩

end Leads

namespace Lowering

variable {before after : Context} {span : Span}

def IsNew (before after : Context) (id : BlockId) : Prop :=
  before.graph.size ≤ id ∧ id < after.graph.size

/-- What lowering does to a context, whatever comes of it: it adds blocks, and lets some of them
leave or repeat the innermost loop once its targets are known. -/
structure Adds (before after : Context) (breaks continues : List BlockId) : Prop where
  grows : before.graph.size ≤ after.graph.size
  untouched : ∀ id < before.graph.size, after.graph.block id = before.graph.block id
  depth : after.loops.length = before.loops.length
  innermost : after.loops.head? = before.loops.head?.map fun exits =>
    { breaks := exits.breaks ++ breaks, continues := exits.continues ++ continues }
  around : after.loops.tail = before.loops.tail
  outside : before.loops = [] → breaks = [] ∧ continues = []
  pending : ∀ id ∈ breaks ++ continues,
    IsNew before after id ∧ ∃ next, (after.graph.block id).shape = .simple next

/-- The code that lowering hands over: nothing but its last block is left open, and control does
not get out of it. -/
structure Delivers (before : Context) (span : Span) (after : Context) : Prop where
  entry : IsNew before after span.entry
  exit : IsNew before after span.exit
  waits : (after.graph.block span.exit).shape = .simple none
  inside : ∀ id, IsNew before after id →
    ∀ target ∈ (after.graph.block id).shape.targets, IsNew before after target
  decides : ∀ id, IsNew before after id → ∀ onTrue onFalse,
    (after.graph.block id).shape = .conditional onTrue onFalse →
      ∃ whenTrue whenFalse, onTrue = some whenTrue ∧ onFalse = some whenFalse ∧
        whenTrue ≠ whenFalse
  goesOn : ∀ id, IsNew before after id → id ≠ span.exit → ∀ next,
    (after.graph.block id).shape = .simple next → ∃ target, next = some target

theorem Frame.exists_adds (frame : Frame before after) :
    ∃ breaks continues, Adds before after breaks continues := by
  obtain ⟨⟨blocks, isGraph⟩, jumps, noted, simple⟩ := frame
  refine ⟨jumps .leave, jumps .again, ?_, fun id inside => ?_, ?_, ?_, ?_, fun outermost => ?_,
    fun id member => ?_⟩
  · rw [isGraph, Graph.size_append]
    exact Nat.le_add_right ..
  · rw [isGraph, Graph.block_append_of_lt _ inside]
  · rw [noted.loops]
    cases before.loops <;> rfl
  · rw [noted.loops]
    cases before.loops <;> rfl
  · rw [noted.loops]
    cases before.loops <;> rfl
  · exact ⟨noted.outside outermost .leave, noted.outside outermost .again⟩
  · rcases List.mem_append.mp member with leaves | repeats
    · obtain ⟨low, high, isSimple⟩ := simple .leave id leaves
      exact ⟨⟨low, high⟩, isSimple⟩
    · obtain ⟨low, high, isSimple⟩ := simple .again id repeats
      exact ⟨⟨low, high⟩, isSimple⟩

theorem Lowered.delivers {code : Fragment} {items : List Expr}
    (lowered : Lowered code items before span after) : Delivers before span after where
  entry := lowered.entry_inside
  exit := by
    rw [IsNew, lowered.size, lowered.exit]
    exact code.exit_inside _
  waits := lowered.waits
  inside id isNew := (lowered.leads isNew.1 isNew.2).inside
  decides id isNew onTrue onFalse isShape := by
    have leads := lowered.leads isNew.1 isNew.2
    rw [isShape] at leads
    exact leads.exists_targets
  goesOn id isNew notExit next isShape := by
    have leads := lowered.leads isNew.1 isNew.2
    rw [isShape] at leads
    exact leads.exists_next notExit

/-- Lowering keeps to itself: in any case it adds blocks only, and on success they make up code
that waits for its successor. -/
theorem lower_adds_closed_code {expr : Expr} {result : Except CompileError Span}
    (lowered : outcome expr.lower before = (result, after)) :
    ∃ breaks continues, Adds before after breaks continues ∧
      ∀ span, result = .ok span → Delivers before span after := by
  cases result with
  | ok span =>
      have lowered := lowered_of_yields lowered
      obtain ⟨breaks, continues, adds⟩ := lowered.frame.exists_adds
      refine ⟨breaks, continues, adds, fun _ same => ?_⟩
      cases same
      exact lowered.delivers
  | error cause =>
      have refuses := lowers before.home.isMain expr before rfl
      rw [Ensures, lowered] at refuses
      obtain ⟨breaks, continues, adds⟩ := refuses.2.exists_adds
      exact ⟨breaks, continues, adds, by rintro _ ⟨⟩⟩

/-- Two loops are open, and a block waits to leave the inner one. -/
def withinLoops : Context :=
  { program := {}, version := 5, graph := ⟨#[{}]⟩, loops := [{ breaks := [0] }, {}] }

/-- Leaves the loop around it, or repeats it. -/
def turningAway : Expr := .ifElse (.int 1) (.seq [.breakLoop, .abort]) .continueLoop

/-- Repeats the loop around it, and does not get out of another loop. -/
def givingUp : Expr := .seq [.continueLoop, .whileLoop (.int 1) (.seq [.breakLoop, .ret])]

theorem lower_adds_closed_code_withinLoops :
    (∃ span after, Yields turningAway.lower withinLoops span after ∧
      after.loops = [{ breaks := [0, 3], continues := [6] }, {}] ∧
      Delivers withinLoops span after) ∧
    ∃ cause after, outcome givingUp.lower withinLoops = (.error cause, after) ∧
      after.loops = [{ breaks := [0], continues := [1] }, {}] ∧ 1 < after.graph.size ∧
      ∃ breaks continues, Adds withinLoops after breaks continues := by
  constructor
  · obtain ⟨span, after, lowered⟩ : ∃ span after, Yields turningAway.lower withinLoops span after :=
      Fallible.exists_of_isSome (by decide +kernel)
    have isLoops : (outcome turningAway.lower withinLoops).2.loops =
        [{ breaks := [0, 3], continues := [6] }, {}] := by
      decide +kernel
    rw [lowered] at isLoops
    obtain ⟨_, _, _, delivers⟩ := lower_adds_closed_code lowered
    exact ⟨span, after, lowered, isLoops, delivers span rfl⟩
  · have isError : (outcome givingUp.lower withinLoops).1.toOption.isNone := by decide +kernel
    have isLoops : (outcome givingUp.lower withinLoops).2.loops =
        [{ breaks := [0], continues := [1] }, {}] := by
      decide +kernel
    have isSize : 1 < (outcome givingUp.lower withinLoops).2.graph.size := by decide +kernel
    rcases lowered : outcome givingUp.lower withinLoops with ⟨cause | _, after⟩
    · rw [lowered] at isLoops isSize
      obtain ⟨breaks, continues, adds, _⟩ := lower_adds_closed_code lowered
      exact ⟨cause, after, rfl, isLoops, isSize, breaks, continues, adds⟩
    · simp [lowered, Except.toOption] at isError

end Lowering

end ContractBackend
