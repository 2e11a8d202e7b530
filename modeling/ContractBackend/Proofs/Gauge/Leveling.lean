import ContractBackend.Proofs.Gauge.Lowering
import ContractBackend.Proofs.Gauge.Flattening

/-!
# The height of the stack does not depend on the way

Where an expression is disciplined, every block of its code is entered at one height of the
stack, whichever way control takes to it.
-/

namespace ContractBackend

/-- The blocks that wait for the end of the innermost loop. -/
def Context.waiting (context : Context) : List BlockId :=
  match context.loops with
  | [] => []
  | exits :: _ => exits.breaks ++ exits.continues

namespace Instr

/-- What an instruction takes off the stack and puts on it, calls included. What a return hands
over to the caller is not taken off by the routine. -/
def takes? (declared : SubroutineId → Option Handle) (instr : Instr) : Option StackEffect :=
  if instr.op = .retsub then some ⟨0, 0⟩ else instr.effectIn? declared

/-- The height of the stack behind straight code, if no instruction takes more than is there. -/
def heightBehind? (declared : SubroutineId → Option Handle) : List Instr → Nat → Option Nat
  | [], height => some height
  | instr :: rest, height =>
      match instr.takes? declared with
      | some effect =>
          if effect.pops ≤ height then
            heightBehind? declared rest (height - effect.pops + effect.pushes)
          else none
      | none => none

end Instr

section Heights

variable {dialect : Dialect} {declared : SubroutineId → Option Handle} {results : Nat}
  {behind : Level → Prop} {height : Nat}

/-- An instruction that leaves the routine finds what it takes. -/
theorem takes_of_leave {instr : Instr} (exits : instr.op.isExit = true)
    (leaves : (Gauge.heights dialect declared results).leave instr (some height)) :
    ∃ effect, instr.takes? declared = some effect ∧ effect.pops ≤ height := by
  have value := (leaves.2 height rfl).2
  obtain ⟨op, operands⟩ := instr
  cases op <;> cases exits
  case ret => exact ⟨⟨1, 0⟩, rfl, value rfl⟩
  case retsub => exact ⟨⟨0, 0⟩, rfl, Nat.zero_le _⟩
  case err => exact ⟨⟨0, 0⟩, rfl, Nat.zero_le _⟩

theorem takes_of_move {instr : Instr} {level : Level} (goes : instr.op.isExit = false)
    (moves : (Gauge.heights dialect declared results).move instr (some height) = some level) :
    ∃ effect, instr.takes? declared = some effect ∧ effect.pops ≤ height ∧
      level = some (height - effect.pops + effect.pushes) := by
  have isTaken : instr.takes? declared = instr.effectIn? declared := by
    refine if_neg fun isRetsub => ?_
    rw [isRetsub] at goes
    cases goes
  rw [isTaken]
  exact exists_effect_of_move moves

/-- Code that may be executed takes no more than is there. -/
theorem heightBehind_of_through {instrs : List Instr}
    (through : (Gauge.heights dialect declared results).Through instrs (some height) behind) :
    ∃ final, Instr.heightBehind? declared instrs height = some final ∧
      ((∀ instr ∈ instrs, instr.op.isExit = false) → behind (some final)) := by
  induction instrs generalizing height with
  | nil => exact ⟨height, rfl, fun _ => through⟩
  | cons instr rest ih =>
    simp only [Gauge.Through] at through
    simp only [Instr.heightBehind?]
    split at through
    next exits =>
      obtain ⟨leaves, rfl⟩ := through
      obtain ⟨effect, isTaken, enough⟩ := takes_of_leave exits leaves
      rw [isTaken]
      refine ⟨height - effect.pops + effect.pushes, if_pos enough, fun goes => ?_⟩
      rw [goes instr (by simp)] at exits
      cases exits
    next goes =>
      obtain ⟨next, moves, through⟩ := through
      obtain ⟨effect, isTaken, enough, rfl⟩ := takes_of_move (by simpa using goes) moves
      obtain ⟨final, isFinal, holds⟩ := ih through
      rw [isTaken]
      refine ⟨final, (if_pos enough).trans isFinal, fun all => holds fun other member => ?_⟩
      exact all other (by simp [member])

theorem heightBehind_of_block {block : Block}
    (through : (Gauge.heights dialect declared results).Through block.instrs (some height) behind) :
    ∃ final, Instr.heightBehind? declared block.instrs height = some final ∧
      (block.exits = false → behind (some final)) := by
  obtain ⟨final, isFinal, holds⟩ := heightBehind_of_through through
  refine ⟨final, isFinal, fun going => holds (through.goes fun last isLast => ?_)⟩
  simpa [Block.exits, isLast] using going

end Heights

namespace Lowering

variable {expr : Expr} {before after : Context} {span : Span}

/-- Where a block goes on at a known height, the height is known there, too. -/
theorem exists_height_of_hands {home : Home} {dialect : Dialect} {marks : Nat → Option Level}
    {shape : Shape} (hands : shape.Hands (home.gauge dialect) marks (some height)) :
    ∀ target ∈ shape.targets,
      ∃ next, marks target = some (some next) ∧ height = next + shape.taken := by
  intro target member
  cases hands with
  | simple isOther =>
    obtain rfl := List.mem_singleton.mp member
    exact ⟨height, isOther, rfl⟩
  | @conditional onTrue onFalse _ level tests taken passed =>
    have isEither : target = onTrue ∨ target = onFalse := by simpa [Shape.targets] using member
    cases height with
    | zero => cases tests
    | succ height =>
      cases tests
      refine ⟨height, ?_, rfl⟩
      rcases isEither with rfl | rfl
      · exact taken
      · exact passed

theorem waiting_of_noted {jumps : Jump → List Nat} (noted : Noted before after jumps) :
    ∀ id ∈ after.waiting, id ∈ before.waiting ∨ ∃ jump, id ∈ jumps jump := by
  intro id member
  rw [Context.waiting, noted.loops] at member
  rw [Context.waiting]
  cases loops : before.loops with
  | nil => simp [loops, note] at member
  | cons exits around =>
    simp only [loops, note, List.mem_append] at member ⊢
    rcases member with (old | new) | (old | new)
    · exact .inl (.inl old)
    · exact .inr ⟨_, new⟩
    · exact .inl (.inr old)
    · exact .inr ⟨_, new⟩

/-- The blocks of a disciplined expression are marked so that they agree, and the last one leaves
what the expression does. -/
theorem exists_marks_of_disciplined (disciplined : expr.disciplined = true)
    (lowered : Yields expr.lower before span after) :
    ∃ marks : Nat → Option Level, marks span.entry = some (some 0) ∧
      (∀ id ∈ expr.jumpBlocks before.graph.size, ∀ level, marks id = some level → level = some 0) ∧
      ∀ id, before.graph.size ≤ id → id < after.graph.size → ∀ level, marks id = some level →
        (before.home.gauge (.regular before.home.isMain)).Through (after.graph.block id).instrs level
          fun level => if id = span.exit then level = some expr.width else
            (after.graph.block id).shape.Hands (before.home.gauge (.regular before.home.isMain)) marks
              level := by
  have code := lowered_of_yields lowered
  have graded := (List.forall_mem_singleton.mp code.passes).grades (some (some 0)) fun level isLevel =>
    Option.some.inj isLevel ▸ Expr.fits_disciplined disciplined before.home.isMain
  obtain ⟨marks, isEntry, jumping, outside, agrees⟩ := graded.exists_agreeing before.graph
    (fun _ => expr.onward (some (some 0))) (some after.graph.size) fun level isLevel =>
      ⟨_, rfl, .inr (Nat.le_of_eq code.size.symm), isLevel⟩
  refine ⟨marks, by rw [code.entry, isEntry], fun id member level isLevel => ?_,
    fun id low high level isLevel => ?_⟩
  · exact (Option.some.inj (jumping id member level isLevel)).symm
  have linked : before.graph.append ((expr.fragment before.home.isMain).blocks before.graph.size
      (some after.graph.size) .open) = after.graph.linked span.exit after.graph.size := by
    rw [code.graph, code.exit, Fragment.links _ rfl]
  have through := agrees id low (code.size ▸ high) level isLevel
  rw [linked] at through
  by_cases isExit : id = span.exit
  · subst isExit
    rw [Graph.linked, Graph.block_modify_self _ high] at through
    refine through.mono fun level hands => ?_
    simp only [if_true]
    cases hands with
    | simple isBehind =>
      rw [outside _ (.inr (Nat.le_of_eq code.size.symm))] at isBehind
      obtain ⟨_, _, isStart, rfl⟩ := Expr.onward_eq_some.mp isBehind
      cases isStart
      simp [Expr.raise]
  · rw [Graph.linked, Graph.block_modify_of_ne _ isExit] at through
    simpa only [isExit, if_false] using through

/-- The height of the stack does not depend on the way. The code of a disciplined expression,
in whatever loops it stands, has heights for the blocks that control can reach, relative to the
first one: no instruction takes more than is there, heights agree along every edge, blocks that
leave or repeat a loop stand at the height of the first block, and the last block, where control
goes on behind it, leaves the value of the expression. -/
theorem block_heights_agree {expr : Expr} {before after : Context} {span : Span}
    (disciplined : expr.disciplined = true) (lowered : Yields expr.lower before span after) :
    ∃ height : BlockId → Nat, height span.entry = 0 ∧
      (∀ id ∈ after.graph.reachable span.entry,
        ∃ final, Instr.heightBehind? before.program.declared (after.graph.block id).instrs
            (height id) = some final ∧
          (∀ target ∈ after.graph.successors id,
            final = height target + (after.graph.block id).shape.taken) ∧
          (id = span.exit → (after.graph.block id).exits = false →
            final = if expr.ty.isValue then 1 else 0)) ∧
      (∀ id ∈ expr.jumpBlocks before.graph.size, height id = 0) ∧
      after.graph.size = before.graph.size + expr.blocks ∧
      ∀ id ∈ after.waiting, id ∈ before.waiting ∨ id ∈ expr.jumpBlocks before.graph.size := by
  have code := lowered_of_yields lowered
  obtain ⟨marks, isEntry, jumping, agrees⟩ := exists_marks_of_disciplined disciplined lowered
  have height_eq : ∀ id height, marks id = some (some height) → ((marks id).join).getD 0 = height :=
    fun id height isHeight => by rw [isHeight]; rfl
  have here : ∀ id height, before.graph.size ≤ id → id < after.graph.size →
      marks id = some (some height) →
      ∃ final, Instr.heightBehind? before.program.declared (after.graph.block id).instrs height =
          some final ∧
        (∀ target ∈ after.graph.successors id, ∃ next, marks target = some (some next) ∧
          final = next + (after.graph.block id).shape.taken) ∧
        (id = span.exit → (after.graph.block id).exits = false → final = expr.width) := by
    intro id height low high isHeight
    obtain ⟨final, isFinal, leads⟩ := heightBehind_of_block (agrees id low high _ isHeight)
    refine ⟨final, isFinal, fun target edge => ?_, fun isExit going => ?_⟩
    · rw [Graph.successors, Block.successors] at edge
      split at edge
      next => cases edge
      next going =>
        have hands := leads (by simpa using going)
        by_cases isExit : id = span.exit
        · rw [isExit, code.waits] at edge
          cases edge
        · rw [if_neg isExit] at hands
          exact exists_height_of_hands hands target edge
    · have ends := leads going
      rw [if_pos isExit] at ends
      exact Option.some.inj ends
  have known : ∀ id ∈ after.graph.reachable span.entry,
      before.graph.size ≤ id ∧ id < after.graph.size ∧ ∃ height, marks id = some (some height) := by
    apply Reach.closure_preserves
    · rintro id - ⟨low, high, height, isHeight⟩ target edge
      obtain ⟨_, _, edges, _⟩ := here id height low high isHeight
      obtain ⟨next, isNext, _⟩ := edges target edge
      have inside := code.successors_inside low high target edge
      exact ⟨inside.1, inside.2, next, isNext⟩
    · exact List.forall_mem_singleton.mpr
        ⟨code.entry_inside.1, code.entry_inside.2, 0, isEntry⟩
  refine ⟨fun id => ((marks id).join).getD 0, height_eq _ 0 isEntry, fun id reached => ?_,
    fun id member => ?_, ?_, fun id waits => ?_⟩
  · obtain ⟨low, high, height, isHeight⟩ := known id reached
    obtain ⟨final, isFinal, edges, ends⟩ := here id height low high isHeight
    simp only [height_eq id height isHeight]
    refine ⟨final, isFinal, fun target edge => ?_, ends⟩
    obtain ⟨next, isNext, same⟩ := edges target edge
    rw [height_eq target next isNext, same]
  · simp only
    cases isMark : marks id with
    | none => rfl
    | some level => rw [jumping id member level isMark]; rfl
  · rw [code.size, (expr.numbers _).1]
  · refine (waiting_of_noted code.noted id waits).imp_right fun isJump => ?_
    obtain ⟨jump, isJump⟩ := isJump
    exact (expr.numbers _).2 jump _ id isJump

/-- Counts a variable down, and leaves the loop around it early or goes on with it. -/
def leavingLoop : Expr :=
  let counter : Slot := ⟨0, none⟩
  .seq [
    .whileLoop (.load counter .uint64) (.seq [
      .ifThen (.binary .eq (.load counter .uint64) (.int 7)) .breakLoop,
      .store counter (.binary .sub (.load counter .uint64) (.int 1))]),
    .ifElse (.load counter .uint64) .breakLoop .abort]

theorem block_heights_agree_leavingLoop :
    ∃ span after, leavingLoop.disciplined = true ∧
      Yields leavingLoop.lower { program := {}, version := 5, loops := [{}] } span after ∧
      6 ∈ after.graph.reachable span.entry ∧ 15 ∈ after.graph.reachable span.entry ∧
      ∃ height : BlockId → Nat, height span.entry = 0 ∧ height 6 = 0 ∧ height 15 = 0 ∧
        ∀ id ∈ after.graph.reachable span.entry,
          ∃ final, Instr.heightBehind? (fun _ => none) (after.graph.block id).instrs (height id) =
              some final ∧
            ∀ target ∈ after.graph.successors id,
              final = height target + (after.graph.block id).shape.taken := by
  have lowers : (outcome leavingLoop.lower { program := {}, version := 5, loops := [{}] }).1.toOption.any
      fun span => [6, 15].all fun id => decide (id ∈ (outcome leavingLoop.lower
        { program := {}, version := 5, loops := [{}] }).2.graph.reachable span.entry) := by
    decide +kernel
  rcases lowered : outcome leavingLoop.lower { program := {}, version := 5, loops := [{}] } with
    ⟨_ | span, after⟩
  · simp [lowered, Except.toOption] at lowers
  · have reached : 6 ∈ after.graph.reachable span.entry ∧ 15 ∈ after.graph.reachable span.entry := by
      simpa [lowered, Except.toOption] using lowers
    obtain ⟨height, isEntry, agree, jumping, _⟩ := block_heights_agree rfl lowered
    refine ⟨span, after, rfl, lowered, reached.1, reached.2, height, isEntry, jumping 6 (by decide),
      jumping 15 (by decide), fun id member => ?_⟩
    obtain ⟨final, isFinal, edges, _⟩ := agree id member
    exact ⟨final, isFinal, edges⟩

end Lowering

end ContractBackend
