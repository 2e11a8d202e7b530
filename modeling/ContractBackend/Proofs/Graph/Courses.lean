import ContractBackend.Proofs.Control
import ContractBackend.Proofs.Search
import ContractBackend.Proofs.Machine.SideBySide

/-!
# Walks from block to block

A walk through a graph, seen at the ends of the blocks: which blocks it goes through, in which
order, with which memory behind the instructions of each, and how it ends.

Two graphs of the same shape are walked through on memories that differ in some cells only. Where
their blocks do the same with such memories, the walks make the same decisions and end alike. Where
the first walk stops at something that the second one is spared, the second one may go on.
-/

namespace ContractBackend

open Machine (Memory Fault Flow)

/-- Execute instructions one after the other. -/
def Action.through (act : Action) : List Instr → Memory → Except Ending Memory
  | [], memory => .ok memory
  | instr :: rest, memory =>
      match act instr memory with
      | .error fault => .error (.failed fault memory)
      | .ok (flow, after) =>
          if flow = .next ∧ instr.op.isExit = false then act.through rest after
          else .error (.left flow after)

/-- Where control goes on behind the instructions of a block. -/
def Shape.goesOn (shape : Shape) (memory : Memory) : Except Ending (BlockId × Memory) :=
  match shape with
  | .simple (some next) => .ok (next, memory)
  | .conditional (some onTrue) (some onFalse) =>
      match Graph.condition? memory with
      | some (holds, after) => .ok (if holds then onTrue else onFalse, after)
      | none => .error (.undecided memory)
  | _ => .error (.lost memory)

theorem Shape.mem_targets_of_goesOn {shape : Shape} {memory after : Memory} {next : BlockId}
    (goesOn : shape.goesOn memory = .ok (next, after)) : next ∈ shape.targets := by
  rcases shape with (_ | only) | ⟨_ | onTrue, _ | onFalse⟩ <;> rw [Shape.goesOn] at goesOn
  case simple.some =>
    cases goesOn
    exact List.mem_singleton_self next
  case conditional.some.some =>
    split at goesOn
    next holds _ _ =>
      cases goesOn
      cases holds <;> simp [targets]
    next => cases goesOn
  all_goals cases goesOn

/-- A walk seen at the ends of the blocks. -/
structure Course where
  /-- The blocks that have been gone through, with the memory at the end of each. -/
  ends : List (BlockId × Memory)
  /-- The block in which the walk has come to a stop or is about to go on. -/
  block : BlockId
  /-- The memory with which this block has been entered. -/
  entered : Memory
  /-- How the walk ends, if it does. -/
  ending : Option Ending

namespace Course

/-- A course behind the end of a block. -/
def after (course : Course) (id : BlockId) (memory : Memory) : Course :=
  { course with ends := (id, memory) :: course.ends }

/-- The blocks that have been entered. -/
def visited (course : Course) : List BlockId := course.ends.map Prod.fst ++ [course.block]

end Course

/-- A walk through at most the given number of blocks. -/
def Graph.course (act : Action) (graph : Graph) : Nat → BlockId → Memory → Course
  | 0, id, memory => ⟨[], id, memory, none⟩
  | count + 1, id, memory =>
      match act.through (graph.block id).instrs memory with
      | .error ending => ⟨[], id, memory, some ending⟩
      | .ok atEnd =>
          match (graph.block id).shape.goesOn atEnd with
          | .error ending => ⟨[(id, atEnd)], id, memory, some ending⟩
          | .ok (next, after) => (graph.course act count next after).after id atEnd

namespace Action

variable {act : Action} {front rest instrs : List Instr} {memory atEnd : Memory} {ending : Ending}

theorem through_append : act.through (front ++ rest) memory =
    (act.through front memory >>= act.through rest) := by
  induction front generalizing memory with
  | nil => rfl
  | cons instr front ih =>
    rw [List.cons_append, through, through]
    cases act instr memory with
    | error => rfl
    | ok result =>
      simp only
      split
      next => exact ih
      next => rfl

/-- Code that leaves the routine is not gone through. -/
theorem goes_of_through (isOk : act.through instrs memory = .ok atEnd) :
    ∀ instr ∈ instrs, instr.op.isExit = false := by
  induction instrs generalizing memory with
  | nil => exact List.forall_mem_nil _
  | cons instr rest ih =>
    rw [through] at isOk
    split at isOk
    next => cases isOk
    next =>
      split at isOk
      next goes => exact List.forall_mem_cons.mpr ⟨goes.2, ih isOk⟩
      next => cases isOk

end Action

namespace Graph

variable {act : Action} {graph : Graph} {entry id next : BlockId} {instrs : List Instr}
  {memory atEnd after : Memory} {ending : Ending}

/-! ## Courses are walks -/

/-- Going through the instructions of a block is a walk to its end, or one that ends before. -/
theorem walk_through (act : Action) (graph : Graph) (id : BlockId) (instrs : List Instr)
    (memory : Memory) :
    match act.through instrs memory with
    | .ok atEnd =>
      ∃ events, Progress.Runs (graph.walk act) ⟨id, instrs, memory⟩ events ⟨id, [], atEnd⟩
    | .error ending =>
      ∃ events, Progress.Ends (graph.walk act) ⟨id, instrs, memory⟩ events ending := by
  induction instrs generalizing memory with
  | nil => exact ⟨[], .refl _⟩
  | cons instr rest ih =>
    cases acted : act instr memory with
    | error fault =>
      simp only [Action.through, acted]
      refine ⟨[⟨instr, memory⟩], .single ?_⟩
      simp only [walk, Action.perform, acted]
    | ok result =>
      obtain ⟨flow, after⟩ := result
      by_cases goes : flow = .next ∧ instr.op.isExit = false
      · have moved : graph.walk act ⟨id, instr :: rest, memory⟩ =
            .moved [⟨instr, memory⟩] ⟨id, rest, after⟩ := by
          simp only [walk, Action.perform, acted, goes, and_self, if_true]
        simp only [Action.through, acted, goes, and_self, if_true]
        have behind := ih after
        split at behind
        next =>
          obtain ⟨events, runs⟩ := behind
          exact ⟨_, .step moved runs⟩
        next =>
          obtain ⟨events, ends⟩ := behind
          exact ⟨_, (Progress.Runs.single moved).ends ends⟩
      · simp only [Action.through, acted, goes, if_false]
        refine ⟨[⟨instr, memory⟩], .single ?_⟩
        simp only [walk, Action.perform, acted, goes, if_false]

/-- At the end of a block the walk takes the way on, or it ends. -/
theorem walk_nil : graph.walk act ⟨id, [], memory⟩ =
    match (graph.block id).shape.goesOn memory with
    | .ok (next, after) => .moved [] (graph.enter next after)
    | .error ending => .ended [] ending := by
  simp only [walk]
  rcases (graph.block id).shape with (_ | next) | ⟨_ | onTrue, _ | onFalse⟩
  case conditional.some.some =>
    simp only [Shape.goesOn]
    cases condition? memory <;> rfl
  all_goals rfl

/-- A course is what a walk goes through: it comes to the end of each of the blocks, and then it
enters the next block or ends as the course says. -/
theorem walk_course (act : Action) (graph : Graph) (count : Nat) (id : BlockId) (memory : Memory) :
    (∀ block ∈ (graph.course act count id memory).ends,
      ∃ events, Progress.Runs (graph.walk act) (graph.enter id memory) events
        ⟨block.1, [], block.2⟩) ∧
    match (graph.course act count id memory).ending with
    | some ending =>
      ∃ events, Progress.Ends (graph.walk act) (graph.enter id memory) events ending
    | none =>
      ∃ events after, Progress.Runs (graph.walk act) (graph.enter id memory) events
        (graph.enter (graph.course act count id memory).block after) := by
  induction count generalizing id memory with
  | zero => exact ⟨List.forall_mem_nil _, [], memory, .refl _⟩
  | succ count ih =>
    have first := walk_through act graph id (graph.block id).instrs memory
    rw [course]
    cases through : act.through (graph.block id).instrs memory with
    | error ending =>
      rw [through] at first
      exact ⟨List.forall_mem_nil _, first⟩
    | ok atEnd =>
      rw [through] at first
      obtain ⟨events, toEnd⟩ := first
      have step := @walk_nil act graph id atEnd
      cases goesOn : (graph.block id).shape.goesOn atEnd with
      | error ending =>
        rw [goesOn] at step
        simp only [goesOn, List.forall_mem_singleton]
        exact ⟨⟨events, toEnd⟩, _, toEnd.ends (.single step)⟩
      | ok result =>
        obtain ⟨next, after⟩ := result
        rw [goesOn] at step
        have entered := toEnd.trans (.single step)
        obtain ⟨blocks, finish⟩ := ih next after
        simp only [goesOn, Course.after, List.forall_mem_cons]
        refine ⟨⟨⟨events, toEnd⟩, fun block member => ?_⟩, ?_⟩
        · obtain ⟨more, runs⟩ := blocks block member
          exact ⟨_, entered.trans runs⟩
        · split at finish
          next =>
            obtain ⟨more, ends⟩ := finish
            exact ⟨_, entered.ends ends⟩
          next =>
            obtain ⟨more, last, runs⟩ := finish
            exact ⟨_, last, entered.trans runs⟩

/-- A course that goes on at a block goes on within reach. -/
theorem mem_reachable_of_goesOn (inside : ∀ id ∈ graph.reachable entry, id < graph.size)
    (reached : id ∈ graph.reachable entry)
    (through : act.through (graph.block id).instrs memory = .ok atEnd)
    (goesOn : (graph.block id).shape.goesOn atEnd = .ok (next, after)) :
    next ∈ graph.reachable entry := by
  have going : (graph.block id).exits = false := by
    rw [Block.exits]
    cases last : (graph.block id).instrs.getLast? with
    | none => rfl
    | some instr => exact Action.goes_of_through through instr (List.mem_of_getLast? last)
  refine reachable_closed inside id reached next ?_
  rw [successors, Block.successors, going]
  exact Shape.mem_targets_of_goesOn goesOn

end Graph

open Machine (Limits Environment Memory Value Flow Fault)

namespace Machine

variable {limits : Limits} {env : Environment} {dead dead' : Cell → Prop}
  {memory memory' memory'' : Memory}

/-- Memories that differ in some cells only. -/
structure Agree (dead : Cell → Prop) (memory memory' : Memory) : Prop where
  stack : memory'.stack = memory.stack
  scratch : ∀ cell, ¬ dead cell → memory'.scratch.get cell = memory.scratch.get cell
  effects : memory'.effects = memory.effects
  appState : memory'.appState = memory.appState

theorem Agree.refl (dead : Cell → Prop) (memory : Memory) : Agree dead memory memory :=
  ⟨rfl, fun _ _ => rfl, rfl, rfl⟩

theorem Agree.mono (weaker : ∀ cell, dead cell → dead' cell) (agree : Agree dead memory memory') :
    Agree dead' memory memory' :=
  ⟨agree.stack, fun cell alive => agree.scratch cell (mt (weaker cell) alive), agree.effects,
    agree.appState⟩

theorem Agree.trans (first : Agree dead memory memory') (second : Agree dead memory' memory'') :
    Agree dead memory memory'' :=
  ⟨second.stack.trans first.stack,
    fun cell alive => (second.scratch cell alive).trans (first.scratch cell alive),
    second.effects.trans first.effects, second.appState.trans first.appState⟩

/-- An instruction does the same on both: it succeeds and leaves such memories again, or it fails
for the same reason. -/
def Alike (dead : Cell → Prop) :
    Except Fault (Flow × Memory) → Except Fault (Flow × Memory) → Prop :=
  Fallible.Related (fun fault fault' => fault'.unplaced = fault.unplaced)
    fun result result' => result'.1 = result.1 ∧ Agree dead result.2 result'.2

theorem execute_agree {op : Opcode} {line : Nat} {arguments : List Argument}
    (unread : ∀ cell, Reads op arguments cell → ¬ dead cell) (agree : Agree dead memory memory') :
    Alike dead (execute limits env ⟨op, line⟩ arguments memory)
      (execute limits env ⟨op, line⟩ arguments memory') := by
  let sides : Sides := ⟨limits, limits, [], [],
    fun left right => ∀ cell, ¬ dead cell → right.get cell = left.get cell, Nat.le_refl _⟩
  have beside : Beside sides memory.stack memory memory' :=
    ⟨(List.append_nil _).symm, agree.stack.trans (List.append_nil _).symm, agree.scratch,
      agree.effects, agree.appState⟩
  have keeps : ∀ (cell : Cell) value left right, sides.cells left right →
      sides.cells (left.set cell value cell.isLt) (right.set cell value cell.isLt) := by
    intro cell value left right same other alive
    by_cases isCell : cell = other
    · subst isCell
      exact (get_set_self _ _ _).trans (get_set_self _ _ _).symm
    · calc (right.set cell value cell.isLt).get other
          = right.get other := get_set_of_ne _ _ isCell
        _ = left.get other := same other alive
        _ = (left.set cell value cell.isLt).get other := (get_set_of_ne _ _ isCell).symm
  have alike := (execute_parallel sides env op line line (List.forall₂_same.mpr fun _ _ => .refl _)
    (fun cell reads left right same => same cell (unread cell reads)) fun _ => keeps).starts beside
    (.inl ⟨rfl, rfl⟩)
  change Exec.Matches sides op arguments memory (execute limits env ⟨op, line⟩ arguments memory)
    (execute limits env ⟨op, line⟩ arguments memory') at alike
  generalize execute limits env ⟨op, line⟩ arguments memory = before at alike ⊢
  generalize execute limits env ⟨op, line⟩ arguments memory' = after at alike ⊢
  cases alike with
  | ok top beside =>
    exact .ok ⟨rfl, beside.stack'.trans beside.stack.symm, beside.cells, beside.effects,
      beside.appState⟩
  | error same => exact .error same
  | crowded => exact .error rfl
  | full more => exact absurd more (Nat.lt_irrefl _)

end Machine

/-! ## Ways to end -/

/-- The memory at the end. -/
def Ending.memory : Ending → Memory
  | left _ memory | failed _ memory | undecided memory | lost memory => memory

/-- The same end with another memory, whatever line an instruction has that fails. -/
def Ending.onto (memory : Memory) : Ending → Ending
  | left flow _ => .left flow memory
  | failed fault _ => .failed fault.unplaced memory
  | undecided _ => .undecided memory
  | lost _ => .lost memory

/-- Ways to end that differ in some cells only. -/
structure Ending.Agree (dead : Cell → Prop) (ending ending' : Ending) : Prop where
  onto : ∀ memory, ending'.onto memory = ending.onto memory
  memory : Machine.Agree dead ending.memory ending'.memory

namespace Ending.Agree

variable {dead dead' : Cell → Prop} {ending ending' ending'' : Ending}

theorem refl (ending : Ending) : Agree dead ending ending := ⟨fun _ => rfl, .refl _ _⟩

theorem mono (weaker : ∀ cell, dead cell → dead' cell) (agree : Agree dead ending ending') :
    Agree dead' ending ending' :=
  ⟨agree.onto, agree.memory.mono weaker⟩

theorem trans (first : Agree dead ending ending') (second : Agree dead ending' ending'') :
    Agree dead ending ending'' :=
  ⟨fun memory => (second.onto memory).trans (first.onto memory), first.memory.trans second.memory⟩

end Ending.Agree

/-! ## Blocks -/

/-- Two ways through code that differ in some cells only. -/
abbrev Action.Passes (dead : Cell → Prop) : Except Ending Memory → Except Ending Memory → Prop :=
  Fallible.Related (Ending.Agree dead) (Machine.Agree dead)

/-- Code is gone through alike if each of its instructions is executed alike. -/
theorem Action.passes_through {act : Action} {dead : Cell → Prop} {instrs : List Instr}
    {memory memory' : Memory}
    (alike : ∀ instr ∈ instrs, ∀ memory memory', Machine.Agree dead memory memory' →
      Machine.Alike dead (act instr memory) (act instr memory'))
    (agree : Machine.Agree dead memory memory') :
    Passes dead (act.through instrs memory) (act.through instrs memory') := by
  induction instrs generalizing memory memory' with
  | nil => exact .ok agree
  | cons instr rest ih =>
    rw [List.forall_mem_cons] at alike
    have first := alike.1 memory memory' agree
    rw [through, through]
    generalize act instr memory = before at first ⊢
    generalize act instr memory' = after at first ⊢
    cases first with
    | error same => exact .error ⟨fun memory => congrArg (Ending.failed · memory) same, agree⟩
    | @ok result result' related =>
      obtain ⟨flow, middle⟩ := result
      obtain ⟨flow', middle'⟩ := result'
      obtain ⟨rfl, agree⟩ := related
      simp only
      split
      next => exact ih alike.2 agree
      next => exact .error ⟨fun _ => rfl, agree⟩

/-- Control goes on at the same block. -/
theorem Shape.goesOn_agree {dead : Cell → Prop} {memory memory' : Memory} (shape : Shape)
    (agree : Machine.Agree dead memory memory') :
    Fallible.Related (Ending.Agree dead)
      (fun next next' => next'.1 = next.1 ∧ Machine.Agree dead next.2 next'.2)
      (shape.goesOn memory) (shape.goesOn memory') := by
  rcases shape with (_ | only) | ⟨_ | onTrue, _ | onFalse⟩
  case simple.some => exact .ok ⟨rfl, agree⟩
  case conditional.some.some =>
    simp only [goesOn, Graph.condition?, agree.stack]
    rcases memory.stack with _ | ⟨_ | value, rest⟩
    · exact .error ⟨fun _ => rfl, agree⟩
    · exact .ok ⟨rfl, rfl, agree.scratch, agree.effects, agree.appState⟩
    · exact .error ⟨fun _ => rfl, agree⟩
  all_goals exact .error ⟨fun _ => rfl, agree⟩

/-! ## Courses -/

namespace Course

variable {dead dead' : Cell → Prop} {before middle behind : Course} {memory memory' : Memory}
  {ends ends' ends'' : List (BlockId × Memory)}

/-- The ends of the same blocks, with memories that differ in some cells only. -/
def EndsAgree (dead : Cell → Prop) : List (BlockId × Memory) → List (BlockId × Memory) → Prop :=
  List.Forall₂ fun left right => right.1 = left.1 ∧ Machine.Agree dead left.2 right.2

namespace EndsAgree

theorem mono (weaker : ∀ cell, dead cell → dead' cell) (agree : EndsAgree dead ends ends') :
    EndsAgree dead' ends ends' :=
  List.Forall₂.imp (fun _ _ same => ⟨same.1, same.2.mono weaker⟩) agree

theorem refl (ends : List (BlockId × Memory)) : EndsAgree dead ends ends :=
  List.forall₂_same.mpr fun _ _ => ⟨rfl, .refl _ _⟩

theorem trans (first : EndsAgree dead ends ends') (second : EndsAgree dead ends' ends'') :
    EndsAgree dead ends ends'' := by
  induction first generalizing ends'' with
  | nil => exact second
  | cons same _ ih =>
    cases second with
    | cons same' rest => exact .cons ⟨same'.1.trans same.1, same.2.trans same'.2⟩ (ih rest)

theorem map_fst (agree : EndsAgree dead ends ends') : ends'.map Prod.fst = ends.map Prod.fst := by
  induction agree with
  | nil => rfl
  | cons same _ ih => rw [List.map_cons, List.map_cons, same.1, ih]

/-- What one begins with agrees with what the other begins with. -/
theorem exists_of_begins (agree : EndsAgree dead ends ends') (begins : ends'' <+: ends) :
    ∃ done, EndsAgree dead ends'' done ∧ done <+: ends' := by
  refine ⟨ends'.take ends''.length, ?_, List.take_prefix _ _⟩
  have first := List.forall₂_take ends''.length agree
  rwa [← List.prefix_iff_eq_take.mp begins] at first

end EndsAgree

/-- Two walks go through the same blocks, with memories that differ in some cells only, and end
alike. -/
structure Same (dead : Cell → Prop) (before behind : Course) : Prop where
  ends : EndsAgree dead before.ends behind.ends
  block : behind.block = before.block
  ending : Option.Rel (Ending.Agree dead) before.ending behind.ending

/-- A walk goes through the blocks of another one, with memories that differ in some cells only,
and may go on from there. -/
structure Extends (dead : Cell → Prop) (before behind : Course) : Prop where
  ends : ∃ done, EndsAgree dead before.ends done ∧ done <+: behind.ends
  visited : before.visited <+: behind.visited

namespace Same

theorem refl (course : Course) : Same dead course course := by
  refine ⟨.refl _, rfl, ?_⟩
  cases course.ending with
  | none => exact .none
  | some ending => exact .some (.refl ending)

theorem mono (weaker : ∀ cell, dead cell → dead' cell) (same : Same dead before behind) :
    Same dead' before behind := by
  refine ⟨same.ends.mono weaker, same.block, ?_⟩
  have ending := same.ending
  generalize before.ending = first at ending ⊢
  generalize behind.ending = second at ending ⊢
  cases ending with
  | none => exact .none
  | some agree => exact .some (agree.mono weaker)

theorem trans (first : Same dead before middle) (second : Same dead middle behind) :
    Same dead before behind := by
  refine ⟨first.ends.trans second.ends, second.block.trans first.block, ?_⟩
  have ending := first.ending
  have ending' := second.ending
  generalize before.ending = one at ending ⊢
  generalize middle.ending = two at ending ending'
  generalize behind.ending = three at ending' ⊢
  cases ending with
  | none => exact ending'
  | some agree =>
    cases ending' with
    | some agree' => exact .some (agree.trans agree')

theorem toExtends (same : Same dead before behind) : Extends dead before behind := by
  refine ⟨⟨behind.ends, same.ends, List.prefix_refl _⟩, [], ?_⟩
  rw [List.append_nil, visited, visited, same.ends.map_fst, same.block]

/-- Walks are the same if they are so behind a block. -/
theorem after (same : Same dead before behind) (id : BlockId)
    (agree : Machine.Agree dead memory memory') :
    Same dead (before.after id memory) (behind.after id memory') :=
  ⟨.cons ⟨rfl, agree⟩ same.ends, same.block, same.ending⟩

end Same

namespace Extends

theorem mono (weaker : ∀ cell, dead cell → dead' cell) (further : Extends dead before behind) :
    Extends dead' before behind := by
  obtain ⟨done, agree, begins⟩ := further.ends
  exact ⟨⟨done, agree.mono weaker, begins⟩, further.visited⟩

theorem trans (first : Extends dead before middle) (second : Extends dead middle behind) :
    Extends dead before behind := by
  obtain ⟨done, agree, begins⟩ := first.ends
  obtain ⟨done', agree', begins'⟩ := second.ends
  obtain ⟨last, same, isLast⟩ := agree'.exists_of_begins begins
  exact ⟨⟨last, agree.trans same, isLast.trans begins'⟩, first.visited.trans second.visited⟩

theorem after (further : Extends dead before behind) (id : BlockId)
    (agree : Machine.Agree dead memory memory') :
    Extends dead (before.after id memory) (behind.after id memory') := by
  obtain ⟨done, same, begins⟩ := further.ends
  exact ⟨⟨(id, memory') :: done, .cons ⟨rfl, agree⟩ same, List.cons_prefix_cons.mpr ⟨rfl, begins⟩⟩,
    List.cons_prefix_cons.mpr ⟨rfl, further.visited⟩⟩

end Extends

end Course

namespace Graph

variable {act : Action} {dead : Cell → Prop} {graph other : Graph} {entry id : BlockId}
  {memory memory' : Memory}

/-- A walk enters the block at which it starts. -/
theorem begins_visited (act : Action) (graph : Graph) (count : Nat) (id : BlockId)
    (memory : Memory) : [id] <+: (graph.course act count id memory).visited := by
  cases count with
  | zero => exact List.prefix_refl _
  | succ count =>
    rw [course]
    split
    next => exact List.prefix_refl _
    next =>
      split
      next => exact List.cons_prefix_cons.mpr ⟨rfl, List.nil_prefix⟩
      next => exact List.cons_prefix_cons.mpr ⟨rfl, List.nil_prefix⟩

/-- Walks are the same if the ways through the blocks are. Where the first way stops, the second
one may go on. -/
theorem course_cases (stops : BlockId → Memory → Ending → Prop)
    (shapes : ∀ id, (other.block id).shape = (graph.block id).shape)
    (inside : ∀ id ∈ graph.reachable entry, id < graph.size)
    (covers : ∀ id ∈ graph.reachable entry, ∀ memory memory', Machine.Agree dead memory memory' →
      (∃ ending, act.through (graph.block id).instrs memory = .error ending ∧
        stops id memory ending) ∨
      Action.Passes dead (act.through (graph.block id).instrs memory)
        (act.through (other.block id).instrs memory'))
    (reached : id ∈ graph.reachable entry) (agree : Machine.Agree dead memory memory')
    (count : Nat) :
    Course.Same dead (graph.course act count id memory) (other.course act count id memory') ∨
      Course.Extends dead (graph.course act count id memory)
          (other.course act count id memory') ∧
        ∃ ending, (graph.course act count id memory).ending = some ending ∧
          stops (graph.course act count id memory).block
            (graph.course act count id memory).entered ending := by
  induction count generalizing id memory memory' with
  | zero => exact .inl ⟨.nil, rfl, .none⟩
  | succ count ih =>
    rcases covers id reached memory memory' agree with ⟨ending, isError, isStop⟩ | passes
    · have stopped : graph.course act (count + 1) id memory = ⟨[], id, memory, some ending⟩ := by
        rw [course, isError]
      rw [stopped]
      exact .inr ⟨⟨⟨[], .nil, List.nil_prefix⟩, begins_visited act other (count + 1) id memory'⟩,
        ending, rfl, isStop⟩
    · rw [course, course, shapes]
      generalize isThrough : act.through (graph.block id).instrs memory = first at passes ⊢
      generalize act.through (other.block id).instrs memory' = second at passes ⊢
      cases passes with
      | error agree => exact .inl ⟨.nil, rfl, .some agree⟩
      | @ok atEnd atEnd' agree =>
        have next := (graph.block id).shape.goesOn_agree agree
        simp only
        generalize goesOn : (graph.block id).shape.goesOn atEnd = first at next ⊢
        generalize (graph.block id).shape.goesOn atEnd' = second at next ⊢
        cases next with
        | error ends => exact .inl ⟨.cons ⟨rfl, agree⟩ .nil, rfl, .some ends⟩
        | @ok result result' related =>
          obtain ⟨target, entered⟩ := result
          obtain ⟨target', entered'⟩ := result'
          obtain ⟨rfl, behind⟩ := related
          have reached' := mem_reachable_of_goesOn inside reached isThrough goesOn
          rcases ih reached' behind with same | ⟨further, isStop⟩
          · exact .inl (same.after id agree)
          · exact .inr ⟨further.after id agree, isStop⟩

end Graph

end ContractBackend
