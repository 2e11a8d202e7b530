import ContractBackend.Proofs.Program
import ContractBackend.Proofs.Lowering.Fragments

/-!
# What lowering comes to

Lowering an expression adds exactly the code of the expression to the graph, or it fails for a
reason that lies in the program. Either way it leaves the blocks alone that are there before, and
notes the jumps it adds at the innermost loop only.
-/

namespace ContractBackend

/-- Whether an error says that an invariant of the compiler does not hold. -/
def CompileError.isDefect : CompileError → Bool
  | .malformedGraph _ | .internal _ => true
  | _ => false

/-- An expression and its parts pass the checks of lowering, and the subroutines they call are
among some subroutines. -/
inductive Expr.Passes (home : Home) (ids : List SubroutineId) : Expr → Prop where
  | leaf {expr : Expr} {instrs : List Instr} : expr.leaf? = some instrs → expr.Admitted home →
      Passes home ids expr
  | operator {expr : Expr} {instr : Instr} {operands : List Expr} :
      expr.operator? home.isMain = some (instr, operands) → expr.Admitted home →
      (∀ target arguments, expr = .call target arguments → target.id ∈ ids) →
      (∀ operand ∈ operands, Passes home ids operand) → Passes home ids expr
  | seq {init : List Expr} {last : Expr} : (∀ item ∈ init, item.ty.isValue = false) →
      (∀ item ∈ init ++ [last], Passes home ids item) → Passes home ids (.seq (init ++ [last]))
  | ifThen {condition thenBranch : Expr} : thenBranch.ty.isValue = false →
      Passes home ids condition → Passes home ids thenBranch →
      Passes home ids (.ifThen condition thenBranch)
  | ifElse {condition thenBranch elseBranch : Expr} :
      (thenBranch.terminates = false → elseBranch.terminates = false →
        thenBranch.ty.isValue = elseBranch.ty.isValue) →
      Passes home ids condition → Passes home ids thenBranch → Passes home ids elseBranch →
      Passes home ids (.ifElse condition thenBranch elseBranch)
  | whileLoop {condition body : Expr} : body.ty.isValue = false →
      Passes home ids condition → Passes home ids body →
      Passes home ids (.whileLoop condition body)
  | breakLoop : Passes home ids .breakLoop
  | continueLoop : Passes home ids .continueLoop

theorem Expr.Passes.mono {home : Home} {ids others : List SubroutineId} {expr : Expr}
    (passes : expr.Passes home ids) (more : ∀ id ∈ ids, id ∈ others) : expr.Passes home others := by
  induction passes with
  | leaf isLeaf admitted => exact .leaf isLeaf admitted
  | operator isOperator admitted known _ each =>
    exact .operator isOperator admitted
      (fun target arguments isCall => more _ (known target arguments isCall)) each
  | seq empty _ each => exact .seq empty each
  | ifThen empty _ _ condition branch => exact .ifThen empty condition branch
  | ifElse agree _ _ _ condition branch alternative =>
    exact .ifElse agree condition branch alternative
  | whileLoop empty _ _ condition body => exact .whileLoop empty condition body
  | breakLoop => exact .breakLoop
  | continueLoop => exact .continueLoop

namespace Lowering

variable {α β : Type} {before middle after context : Context} {cause : CompileError}
  {others : List Block}

/-! ## Results and failures -/

/-- A step succeeds with something that holds behind it, or fails with something else that
does. -/
def Ensures (step : LowerM α) (context : Context) (post : α → Context → Prop)
    (fails : CompileError → Context → Prop) : Prop :=
  match outcome step context with
  | (.ok value, after) => post value after
  | (.error cause, after) => fails cause after

section Ensures

variable {post : α → Context → Prop} {fails : CompileError → Context → Prop}

theorem Ensures.of_yields {step : LowerM α} {value : α} (yields : Yields step context value after)
    (holds : post value after) : Ensures step context post fails := by
  have isOutcome : outcome step context = (.ok value, after) := yields
  rw [Ensures, isOutcome]
  exact holds

theorem Ensures.of_throws {step : LowerM α} (throws : outcome step context = (.error cause, after))
    (holds : fails cause after) : Ensures step context post fails := by
  rw [Ensures, throws]
  exact holds

theorem Ensures.mono {step : LowerM α} {post' : α → Context → Prop}
    {fails' : CompileError → Context → Prop} (ensures : Ensures step context post fails)
    (weaker : ∀ value after, post value after → post' value after)
    (weaker' : ∀ cause after, fails cause after → fails' cause after) :
    Ensures step context post' fails' := by
  rw [Ensures] at ensures ⊢
  rcases isOutcome : outcome step context with ⟨cause | value, after⟩
  · rw [isOutcome] at ensures
    exact weaker' cause after ensures
  · rw [isOutcome] at ensures
    exact weaker value after ensures

theorem Ensures.imp {step : LowerM α} {post' : α → Context → Prop}
    (ensures : Ensures step context post fails)
    (weaker : ∀ value after, post value after → post' value after) :
    Ensures step context post' fails :=
  ensures.mono weaker fun _ _ holds => holds

theorem Ensures.of_outcome {step : LowerM α} {value : α} (ensures : Ensures step context post fails)
    (yields : Yields step context value after) : post value after := by
  have isOutcome : outcome step context = (.ok value, after) := yields
  rwa [Ensures, isOutcome] at ensures

theorem Ensures.bind {first : LowerM β} {rest : β → LowerM α} {between : β → Context → Prop}
    (start : Ensures first context between fails)
    (behind : ∀ value middle, between value middle → Ensures (rest value) middle post fails) :
    Ensures (first >>= rest) context post fails := by
  rw [Ensures] at start
  rw [Ensures, outcome_bind]
  rcases isFirst : outcome first context with ⟨cause | value, middle⟩
  · rwa [isFirst] at start
  · rw [isFirst] at start
    exact behind value middle start

/-- A step whose result is known. -/
theorem Ensures.step {first : LowerM β} {rest : β → LowerM α} {value : β}
    (yields : Yields first context value middle)
    (behind : Ensures (rest value) middle post fails) :
    Ensures (first >>= rest) context post fails := by
  have isFirst : outcome first context = (.ok value, middle) := yields
  rw [Ensures, outcome_bind, isFirst]
  exact behind

theorem ensures_pure {value : α} (holds : post value context) :
    Ensures (pure value) context post fails :=
  .of_yields (yields_pure.mpr ⟨rfl, rfl⟩) holds

theorem ensures_get {rest : Context → LowerM α} (behind : Ensures (rest context) context post fails) :
    Ensures (get >>= rest) context post fails :=
  .step (yields_get.mpr ⟨rfl, rfl⟩) behind

theorem ensures_throw (holds : fails cause context) : Ensures (throw cause) context post fails :=
  .of_throws rfl holds

/-- A check in front of further steps. -/
theorem ensures_guard {condition : Prop} [Decidable condition] {rest : PUnit → LowerM α}
    (holds : fails cause context) (behind : ¬ condition → Ensures (rest ⟨⟩) context post fails) :
    Ensures (if condition then throw cause >>= rest else rest ⟨⟩) context post fails := by
  split
  next => exact .of_throws rfl holds
  next passed => exact behind passed

theorem ensures_lift {value : Except CompileError α}
    (fine : ∀ result, value = .ok result → post result context)
    (faulty : ∀ cause, value = .error cause → fails cause context) :
    Ensures (liftM value) context post fails := by
  cases value with
  | error cause => exact .of_throws rfl (faulty cause rfl)
  | ok result => exact .of_yields (yields_lift.mpr ⟨rfl, rfl⟩) (fine result rfl)

end Ensures

/-! ## What is left behind -/

/-- The open loops, with jumps noted at the innermost one. -/
def note : List LoopExits → (Jump → List Nat) → List LoopExits
  | [], _ => []
  | exits :: around, jumps =>
      { breaks := exits.breaks ++ jumps .leave, continues := exits.continues ++ jumps .again } ::
        around

/-- What lowering does to a context apart from the graph: jumps are noted at the innermost loop,
and subroutines that are called are noted if they are declared. -/
structure Noted (before after : Context) (jumps : Jump → List Nat) : Prop where
  program : after.program = before.program
  version : after.version = before.version
  current : after.current = before.current
  loops : after.loops = note before.loops jumps
  outside : before.loops = [] → ∀ jump, jumps jump = []
  referenced : ∀ id ∈ before.referenced, id ∈ after.referenced
  declared : ∀ id ∈ after.referenced,
    id ∈ before.referenced ∨ id < before.program.subroutines.size

namespace Noted

variable {jumps jumps' : Jump → List Nat}

theorem refl (context : Context) : Noted context context fun _ => [] where
  program := rfl
  version := rfl
  current := rfl
  loops := by cases context.loops <;> simp [note]
  outside _ _ := rfl
  referenced _ := id
  declared _ := .inl

theorem home (noted : Noted before after jumps) : after.home = before.home := by
  rw [Context.home, noted.program, noted.current, Context.home]

theorem trans (first : Noted before middle jumps) (second : Noted middle after jumps') :
    Noted before after fun jump => jumps jump ++ jumps' jump where
  program := second.program.trans first.program
  version := second.version.trans first.version
  current := second.current.trans first.current
  loops := by
    rw [second.loops, first.loops]
    cases before.loops <;> simp [note]
  outside outermost jump := by
    have middleLoops : middle.loops = [] := by rw [first.loops, outermost]; rfl
    rw [first.outside outermost, second.outside middleLoops, List.append_nil]
  referenced id member := second.referenced id (first.referenced id member)
  declared id member := by
    rcases second.declared id member with early | new
    · exact first.declared id early
    · exact .inr (first.program ▸ new)

/-- The graph is not what is noted. -/
theorem regraph (noted : Noted before after jumps) (graph : Graph) :
    Noted before { after with graph } jumps :=
  { noted with }

/-- Behind jumps that are noted, steps may follow that note none. -/
theorem behind (first : Noted before middle jumps) (second : Noted middle after fun _ => []) :
    Noted before after jumps := by
  simpa using first.trans second

/-- In front of steps that note jumps, there may be steps that note none. -/
theorem ahead (first : Noted before middle fun _ => []) (second : Noted middle after jumps) :
    Noted before after jumps := by
  simpa using first.trans second

/-- The jumps of a loop are forgotten with it. -/
theorem closeLoop (noted : Noted { before with loops := {} :: before.loops } after jumps) :
    Noted before { after with loops := before.loops } fun _ => [] :=
  { noted with
    loops := (refl before).loops
    outside := fun _ _ => rfl }

end Noted

/-- What lowering leaves behind in any case: blocks are added, and simple ones among them are noted
at the innermost loop. -/
structure Frame (before after : Context) : Prop where
  graph : ∃ blocks, after.graph = before.graph.append blocks
  noted : ∃ jumps, Noted before after jumps ∧ ∀ jump, ∀ id ∈ jumps jump,
    before.graph.size ≤ id ∧ id < after.graph.size ∧
      ∃ next, (after.graph.block id).shape = .simple next

theorem Frame.refl (context : Context) : Frame context context where
  graph := ⟨[], by simp [Graph.append]⟩
  noted := ⟨_, .refl context, fun _ => List.forall_mem_nil _⟩

theorem Frame.trans (first : Frame before middle) (second : Frame middle after) :
    Frame before after := by
  obtain ⟨⟨blocks, isMiddle⟩, jumps, noted, simple⟩ := first
  obtain ⟨⟨others, isAfter⟩, jumps', noted', simple'⟩ := second
  have lower : before.graph.size ≤ middle.graph.size := by
    rw [isMiddle, Graph.size_append]
    exact Nat.le_add_right ..
  have upper : middle.graph.size ≤ after.graph.size := by
    rw [isAfter, Graph.size_append]
    exact Nat.le_add_right ..
  refine ⟨⟨blocks ++ others, by rw [isAfter, isMiddle, Graph.append_append]⟩, _,
    noted.trans noted', fun jump id member => ?_⟩
  rcases List.mem_append.mp member with early | late
  · obtain ⟨low, high, isSimple⟩ := simple jump id early
    refine ⟨low, Nat.lt_of_lt_of_le high upper, ?_⟩
    rwa [isAfter, Graph.block_append_of_lt _ high]
  · obtain ⟨low, high, isSimple⟩ := simple' jump id late
    exact ⟨Nat.le_trans lower low, high, isSimple⟩

/-- Blocks of code with others behind them have been added, and its jumps have been noted. -/
theorem Frame.of_blocks {code : Fragment} {next : Option Nat} {loop : JumpTargets}
    (graph : after.graph =
      before.graph.append (code.blocks before.graph.size next loop ++ others))
    (noted : Noted before after fun jump => code.jumps jump before.graph.size) :
    Frame before after := by
  refine ⟨⟨_, graph⟩, _, noted, fun jump id member => ?_⟩
  obtain ⟨low, high⟩ := code.jumps_inside jump _ id member
  refine ⟨low, ?_, ?_⟩
  · rw [graph, Graph.size_append, List.length_append, code.length_blocks]
    omega
  · rw [graph]
    exact (code.leads_block rfl low high).exists_simple (.inr ⟨jump, member⟩)

/-- A step fails for a reason that lies in the program, and leaves this behind. -/
def Refuses (before : Context) (cause : CompileError) (after : Context) : Prop :=
  cause.isDefect = false ∧ Frame before after

theorem Refuses.behind (frame : Frame before middle) (refuses : Refuses middle cause after) :
    Refuses before cause after :=
  ⟨refuses.1, frame.trans refuses.2⟩

/-- Code has been added for some expressions that pass the checks. Its last block has no successor
yet, and the loop around it is open. -/
structure Lowered (code : Fragment) (items : List Expr) (before : Context) (span : Span)
    (after : Context) : Prop where
  entry : span.entry = code.entry before.graph.size
  exit : span.exit = code.exit before.graph.size
  graph : after.graph = before.graph.append (code.blocks before.graph.size none .open)
  noted : Noted before after fun jump => code.jumps jump before.graph.size
  passes : ∀ item ∈ items, item.Passes before.home after.referenced

/-- Code has been added for a condition, with the block behind it that decides. -/
structure Decides (code : Fragment) (items : List Expr) (before : Context) (span : Span)
    (after : Context) : Prop where
  entry : span.entry = code.entry before.graph.size
  exit : span.exit = before.graph.size + code.size
  graph : after.graph = before.graph.append
    (code.blocks before.graph.size (some (before.graph.size + code.size)) .open ++
      [{ shape := .conditional none none }])
  noted : Noted before after fun jump => code.jumps jump before.graph.size
  passes : ∀ item ∈ items, item.Passes before.home after.referenced

section Pieces

variable {code code' : Fragment} {items items' : List Expr} {span next : Span}

theorem yields_simple (instrs : List Instr) (context : Context) :
    Yields (simple instrs) context context.graph.size
      { context with graph := context.graph.append [{ instrs }] } :=
  yields_addBlock.mpr ⟨rfl, by rw [Graph.append_singleton]⟩

/-- Linking the last block of code. -/
theorem yields_link {graph : Graph} {start target : Nat} (size : graph.size = start)
    (isGraph : context.graph = graph.append (code.blocks start none .open ++ others))
    (inside : target < context.graph.size) :
    Yields (setNext (code.exit start) target) context ()
      { context with graph := graph.append (code.blocks start (some target) .open ++ others) } := by
  obtain ⟨low, high⟩ := code.exit_inside start
  refine yields_setNext.mpr ⟨_, Graph.setNext_eq_ok.mpr ⟨?_, inside, ?_, ?_⟩, rfl⟩
  · rw [isGraph, Graph.size_append, List.length_append, code.length_blocks, size]
    exact Nat.lt_of_lt_of_le high (Nat.add_le_add_left (Nat.le_add_right ..) _)
  · rw [isGraph]
    exact (code.leads_block size low high).exists_simple (.inl rfl)
  · rw [isGraph, code.links_before size]

/-- Setting the targets of a block that decides. -/
theorem yields_fork {graph : Graph} {start onTrue onFalse : Nat} (size : graph.size = start)
    (isGraph : context.graph = graph.append ({ shape := .conditional none none } :: others))
    (trueInside : onTrue < context.graph.size) (falseInside : onFalse < context.graph.size) :
    Yields (setBranches start onTrue onFalse) context ()
      { context with
        graph := graph.append ({ shape := .conditional (some onTrue) (some onFalse) } :: others) } := by
  subst size
  refine yields_setBranches.mpr
    ⟨_, Graph.setBranches_eq_ok.mpr ⟨?_, trueInside, falseInside, ⟨none, none, ?_⟩, ?_⟩, rfl⟩
  · rw [isGraph, Graph.size_append, List.length_cons]
    exact Nat.lt_add_of_pos_right (Nat.succ_pos _)
  · rw [isGraph, Graph.append_cons, Graph.block_append_of_lt, Graph.block_push_size]
    rw [Graph.size_push]
    exact Nat.lt_succ_self _
  · rw [isGraph]
    exact Graph.modify_append_size ..

theorem yields_relinked {ids : List Nat} {target : Nat} (inside : target < context.graph.size)
    (simple : ∀ id ∈ ids, id < context.graph.size ∧
      ∃ next, (context.graph.block id).shape = .simple next) :
    Yields (ids.forM fun id => setNext id target) context ()
      { context with graph := context.graph.relinked ids target } := by
  induction ids generalizing context with
  | nil => exact yields_pure.mpr ⟨rfl, rfl⟩
  | cons id rest ih =>
    rw [List.forall_mem_cons] at simple
    have linked : Yields (setNext id target) context ()
        { context with graph := context.graph.linked id target } :=
      yields_setNext.mpr
        ⟨_, Graph.setNext_eq_ok.mpr ⟨simple.1.1, inside, simple.1.2, rfl⟩, rfl⟩
    refine yields_bind.mpr ⟨_, _, linked, ih ?_ fun other member => ?_⟩
    · rwa [Graph.size_linked]
    · obtain ⟨bound, next, shape⟩ := simple.2 other member
      refine ⟨by rwa [Graph.size_linked], ?_⟩
      by_cases same : other = id
      · subst same
        exact ⟨some target, by rw [Graph.linked, Graph.block_modify_self _ bound]⟩
      · exact ⟨next, by rw [Graph.linked, Graph.block_modify_of_ne _ same, shape]⟩

/-- Linking the jumps of code. -/
theorem yields_relink {graph : Graph} {start target : Nat} {next : Option Nat} {loop : JumpTargets}
    (size : graph.size = start)
    (isGraph : context.graph = graph.append (code.blocks start next loop ++ others)) (jump : Jump)
    (inside : target < context.graph.size) :
    Yields ((code.jumps jump start).forM fun id => setNext id target) context ()
      { context with
        graph := graph.append
          (code.blocks start next (Function.update loop jump (some target)) ++ others) } := by
  rw [← code.relinks_before size, ← isGraph]
  refine yields_relinked inside fun id member => ?_
  obtain ⟨low, high⟩ := code.jumps_inside jump start id member
  rw [isGraph]
  refine ⟨?_, (code.leads_block size low high).exists_simple (.inr ⟨jump, member⟩)⟩
  rw [Graph.size_append, List.length_append, code.length_blocks, size]
  exact Nat.lt_of_lt_of_le high (Nat.add_le_add_left (Nat.le_add_right ..) _)

namespace Lowered

variable (lowered : Lowered code items before span after)
include lowered

theorem frame : Frame before after :=
  .of_blocks (lowered.graph.trans (by rw [List.append_nil])) lowered.noted

theorem size : after.graph.size = before.graph.size + code.size := by
  rw [lowered.graph, code.size_append_blocks rfl]

theorem entry_inside : before.graph.size ≤ span.entry ∧ span.entry < after.graph.size := by
  rw [lowered.size, lowered.entry]
  exact code.entry_inside _

theorem holds :
    after.graph.Holds before.graph.size (code.blocks before.graph.size none .open) := by
  rw [lowered.graph]
  exact Graph.holds_append ..

/-- Where the blocks go on that have been added. -/
theorem leads {id : Nat} (low : before.graph.size ≤ id) (high : id < after.graph.size) :
    Leads before.graph.size after.graph.size span.exit
      (fun jump => code.jumps jump before.graph.size) none .open id
      (after.graph.block id).shape := by
  have blocks : after.graph =
      before.graph.append (code.blocks before.graph.size none .open ++ []) := by
    rw [List.append_nil, lowered.graph]
  rw [lowered.size] at high ⊢
  rw [lowered.exit, blocks]
  exact code.leads_block rfl low high

/-- Control stays in the code while nothing follows it. -/
theorem successors_inside {id : Nat} (low : before.graph.size ≤ id)
    (high : id < after.graph.size) :
    ∀ target ∈ after.graph.successors id,
      before.graph.size ≤ target ∧ target < after.graph.size := by
  rw [Graph.successors, Block.successors]
  split
  next => exact List.forall_mem_nil _
  next => exact (lowered.leads low high).inside

/-- The last block has no successor yet. -/
theorem waits : (after.graph.block span.exit).shape = .simple none := by
  obtain ⟨low, high⟩ := code.exit_inside before.graph.size
  rw [← lowered.exit] at low high
  generalize isShape : (after.graph.block span.exit).shape = shape
  cases isShape ▸ lowered.leads low (lowered.size ▸ high) with
  | inner notExit => exact absurd rfl notExit
  | next => rfl
  | jump _ goes => cases goes
  | fork notExit => exact absurd rfl notExit

theorem weaken (passes : ∀ ids, (∀ item ∈ items, item.Passes before.home ids) →
      ∀ item ∈ items', item.Passes before.home ids) : Lowered code items' before span after :=
  { lowered with passes := passes _ lowered.passes }

end Lowered

theorem Decides.frame (decides : Decides code items before span after) : Frame before after :=
  .of_blocks decides.graph decides.noted

theorem Decides.size (decides : Decides code items before span after) :
    after.graph.size = before.graph.size + code.size + 1 := by
  rw [decides.graph, Graph.size_append, List.length_append, code.length_blocks]
  rfl

theorem forall_passes {home home' : Home} {ids ids' : List SubroutineId} (same : home' = home)
    (more : ∀ id ∈ ids, id ∈ ids') (first : ∀ item ∈ items, item.Passes home ids)
    (second : ∀ item ∈ items', item.Passes home' ids') :
    ∀ item ∈ items ++ items', item.Passes home ids' :=
  List.forall_mem_append.mpr ⟨fun item member => (first item member).mono more, same ▸ second⟩

/-- A new block without a successor. -/
theorem lowered_simple (instrs : List Instr) (context : Context) :
    Lowered (.leaf instrs) [] context ⟨context.graph.size, context.graph.size⟩
      { context with graph := context.graph.append [{ instrs }] } where
  entry := rfl
  exit := rfl
  graph := rfl
  noted := (Noted.refl context).regraph _
  passes := List.forall_mem_nil _

/-- Two pieces of code, of which the first one gets its successor. -/
theorem Lowered.attach (first : Lowered code items before span middle)
    (second : Lowered code' items' middle next after) :
    ∃ linked, Yields (setNext span.exit next.entry) after () linked ∧
      Lowered (code.attach code') (items ++ items') before ⟨span.entry, next.exit⟩ linked := by
  have graph := second.graph
  rw [first.size, first.graph, Graph.append_append] at graph
  have inside : next.entry < after.graph.size := by
    rw [second.size, second.entry]
    exact (code'.entry_inside _).2
  rw [first.exit]
  refine ⟨_, yields_link rfl graph inside, ?_⟩
  have noted := second.noted
  rw [first.size] at noted
  exact {
    entry := first.entry
    exit := by rw [second.exit, first.size]; rfl
    graph := by rw [second.entry, first.size]; rfl
    noted := (first.noted.trans noted).regraph _
    passes := forall_passes first.noted.home second.noted.referenced first.passes second.passes }

/-- Two pieces of code, of which the second one gets the last block of the first one as its
successor. -/
theorem Lowered.attachBack (first : Lowered code items before span middle)
    (second : Lowered code' items' middle next after) :
    ∃ linked, Yields (setNext next.exit span.exit) after () linked ∧
      Lowered (code.attachBack code') (items ++ items') before ⟨next.entry, span.exit⟩ linked := by
  have graph : after.graph =
      middle.graph.append (code'.blocks middle.graph.size none .open ++ []) := by
    rw [List.append_nil, second.graph]
  have inside : span.exit < after.graph.size := by
    rw [second.size, first.size, first.exit]
    exact Nat.lt_of_lt_of_le (code.exit_inside _).2 (Nat.le_add_right ..)
  rw [second.exit]
  refine ⟨_, yields_link rfl graph inside, ?_⟩
  have noted := second.noted
  rw [first.size] at noted
  exact {
    entry := by rw [second.entry, first.size]; rfl
    exit := first.exit
    graph := by rw [List.append_nil, first.size, first.graph, Graph.append_append, first.exit]; rfl
    noted := (first.noted.trans noted).regraph _
    passes := forall_passes first.noted.home second.noted.referenced first.passes second.passes }

/-- A condition with the code behind it, whose places the decision gets. -/
theorem Decides.fork (first : Decides code items before span middle)
    (second : Lowered code' items' middle next after) {onTrue onFalse : Nat → Nat}
    (apart : ∀ start, start ≤ onTrue start ∧ onTrue start < onFalse start ∧
      onFalse start < start + code'.size) :
    ∃ forked, Yields (setBranches span.exit (onTrue middle.graph.size) (onFalse middle.graph.size))
        after () forked ∧
      Lowered (code.attach (code'.fork onTrue onFalse apart)) (items ++ items') before
        ⟨span.entry, next.exit⟩ forked := by
  have graph := second.graph
  rw [first.size, first.graph, ← Graph.append_append, Graph.append_append,
    List.singleton_append] at graph
  have range := apart middle.graph.size
  have noted := second.noted
  rw [first.size] at noted
  rw [first.exit]
  refine ⟨_, yields_fork (code.size_append_blocks rfl ..) graph (by rw [second.size]; omega)
    (by rw [second.size]; omega), ?_⟩
  exact {
    entry := first.entry
    exit := by rw [second.exit, first.size]; rfl
    graph := by rw [Graph.append_append, first.size]; rfl
    noted := (first.noted.trans noted).regraph _
    passes := forall_passes first.noted.home second.noted.referenced first.passes second.passes }

/-- The last links of a loop: the decision gets its targets, the end of the body goes back to the
condition, and the jumps get where they go. -/
theorem yields_closeLoop {graph : Graph} {start entry : Nat} (size : graph.size = start)
    (isGraph : context.graph =
      graph.append ({ shape := .conditional none none } :: code.blocks (start + 1) none .open))
    (inside : entry < start) :
    Yields (do
      let join ← simple []
      setBranches start (code.entry (start + 1)) join
      setNext (code.exit (start + 1)) entry
      (code.jumps .leave (start + 1)).forM fun block => setNext block join
      (code.jumps .again (start + 1)).forM fun block => setNext block entry
      pure ⟨entry, join⟩ : LowerM Span) context ⟨entry, context.graph.size⟩
      { context with
        graph := graph.append
          ({ shape := .conditional (some (code.entry (start + 1))) (some context.graph.size) } ::
            (code.blocks (start + 1) (some entry) (Fragment.closed context.graph.size entry) ++
              [({} : Block)])) } := by
  have whole : context.graph.size = start + 1 + code.size := by
    rw [isGraph, Graph.size_append, List.length_cons, code.length_blocks, size]
    omega
  have front : ∀ block, (graph.push block).size = start + 1 := fun block => by
    rw [Graph.size_push, size]
  have sizes : ∀ block next loop,
      ((graph.push block).append (code.blocks (start + 1) next loop ++ [({} : Block)])).size =
        start + 1 + code.size + 1 := by
    intro block next loop
    rw [Graph.size_append, front, List.length_append, code.length_blocks]
    rfl
  have bodyEntry := code.entry_inside (start + 1)
  have opened : context.graph.append [{}] = graph.append ({ shape := .conditional none none } ::
      (code.blocks (start + 1) none .open ++ [({} : Block)])) := by
    rw [isGraph, Graph.append_append, List.cons_append]
  refine yields_bind.mpr ⟨_, _, yields_simple [] context, ?_⟩
  refine yields_bind.mpr ⟨(), _, yields_fork size opened ?_ ?_, ?_⟩
  · rw [opened, Graph.append_cons, sizes]
    omega
  · rw [opened, Graph.append_cons, sizes, whole]
    exact Nat.lt_succ_self _
  refine yields_bind.mpr ⟨(), _, yields_link (front _) Graph.append_cons ?_, ?_⟩
  · simp only [Graph.append_cons, sizes]
    omega
  refine yields_bind.mpr ⟨(), _, yields_relink (front _) rfl .leave ?_, ?_⟩
  · rw [sizes, whole]
    exact Nat.lt_succ_self _
  refine yields_bind.mpr ⟨(), _, yields_relink (front _) rfl .again ?_, ?_⟩
  · rw [sizes]
    omega
  refine yields_pure.mpr ⟨rfl, ?_⟩
  simp only [Fragment.update_open, Graph.append_cons]

/-- A condition with the body of a loop behind it: the loop is closed. -/
theorem Decides.closeLoop (first : Decides code items before span middle)
    (second : Lowered code' items' { middle with loops := {} :: middle.loops } next after) :
    ∃ exits closed, after.loops = exits :: middle.loops ∧
      Yields (do
        let join ← simple []
        setBranches span.exit next.entry join
        setNext next.exit span.entry
        exits.breaks.forM fun block => setNext block join
        exits.continues.forM fun block => setNext block span.entry
        pure ⟨span.entry, join⟩ : LowerM Span) { after with loops := middle.loops }
        ⟨span.entry, after.graph.size⟩ closed ∧
      Lowered (code.whileLoop code') (items ++ items') before ⟨span.entry, after.graph.size⟩
        closed := by
  have start : { middle with loops := {} :: middle.loops }.graph.size =
      before.graph.size + code.size + 1 := first.size
  have size : after.graph.size = before.graph.size + (code.size + (code'.size + 1)) := by
    rw [second.size, start]
    omega
  have graph : after.graph = (before.graph.append
      (code.blocks before.graph.size (some (before.graph.size + code.size)) .open)).append
        ({ shape := .conditional none none } ::
          code'.blocks (before.graph.size + code.size + 1) none .open) := by
    rw [second.graph, start]
    simp only [first.graph, Graph.append_append, List.append_assoc, List.singleton_append]
  have entry := code.entry_inside before.graph.size
  have loops : after.loops = _ := second.noted.loops
  have closes := @yields_closeLoop { after with loops := middle.loops } code' _ _
    (code.entry before.graph.size) (code.size_append_blocks rfl ..) graph entry.2
  rw [first.entry, first.exit, second.entry, second.exit, start]
  refine ⟨_, _, loops, by simpa only [start, List.nil_append] using closes, ?_⟩
  exact {
    entry := rfl
    exit := size
    graph := by
      simp only [Graph.append_append, size]
      rfl
    noted := first.noted.behind (second.noted.closeLoop.regraph _)
    passes := forall_passes first.noted.home second.noted.referenced first.passes second.passes }

end Pieces

/-! ## Expressions -/

theorem Refuses.here (clean : cause.isDefect = false) : Refuses before cause before :=
  ⟨clean, .refl before⟩

theorem Frame.home (frame : Frame before after) : after.home = before.home := by
  obtain ⟨_, noted, _⟩ := frame.noted
  exact noted.home

/-- Lowering adds exactly the code of an expression, or refuses it. -/
def Lowers (main : Bool) (expr : Expr) : Prop :=
  ∀ before, before.home.isMain = main →
    Ensures expr.lower before (Lowered (expr.fragment main) [expr] before) (Refuses before)

variable {main : Bool} {base : Context} {expr condition thenBranch elseBranch body last : Expr}
  {init operands rest : List Expr} {instr : Instr} {instrs : List Instr}

/-- The same behind other steps. -/
theorem Lowers.behind (lowers : Lowers main expr) (isMain : base.home.isMain = main)
    (frame : Frame base before) :
    Ensures expr.lower before (Lowered (expr.fragment main) [expr] before) (Refuses base) :=
  (lowers before (by rw [frame.home, isMain])).mono (fun _ _ lowered => lowered)
    fun _ _ refuses => refuses.behind frame

theorem ensures_chainFrom {code : Fragment} {items : List Expr} {span : Span}
    (each : ∀ item ∈ rest, Lowers main item) (isMain : base.home.isMain = main)
    (frame : Frame base before) (done : Lowered code items before span middle) :
    Ensures (chainFrom span.exit (Expr.lowerEach rest)) middle
      (fun exit after => Lowered ((Expr.fragments main rest).foldl .attach code) (items ++ rest)
        before ⟨span.entry, exit⟩ after) (Refuses base) := by
  induction rest generalizing code items span middle with
  | nil =>
    rw [List.append_nil]
    exact ensures_pure done
  | cons item rest ih =>
    rw [List.forall_mem_cons] at each
    refine (each.1.behind isMain (frame.trans done.frame)).bind fun next later lowered => ?_
    obtain ⟨linked, yields, both⟩ := done.attach lowered
    have further := ih each.2 both
    rw [List.append_assoc, List.singleton_append] at further
    exact .step yields further

theorem ensures_chain {first : Expr} (each : ∀ item ∈ first :: rest, Lowers main item)
    (isMain : base.home.isMain = main) (frame : Frame base before) :
    Ensures (chain first.lower (Expr.lowerEach rest)) before
      (Lowered (.sequence (Expr.fragments main (first :: rest))) (first :: rest) before)
      (Refuses base) := by
  rw [List.forall_mem_cons] at each
  refine (each.1.behind isMain frame).bind fun span middle lowered => ?_
  exact (ensures_chainFrom each.2 isMain frame lowered).bind fun exit after whole =>
    ensures_pure whole

theorem ensures_fromInstr (each : ∀ operand ∈ operands, Lowers main operand)
    (isMain : before.home.isMain = main) :
    Ensures (fromInstr instr (Expr.lowerEach operands)) before
      (Lowered (.operator instr (Expr.fragments main operands)) operands before)
      (Refuses before) := by
  have block := lowered_simple [instr] before
  refine .step (yields_simple [instr] before) ?_
  cases operands with
  | nil => exact ensures_pure block
  | cons first rest =>
    refine (ensures_chain each isMain block.frame).bind fun span chained lowered => ?_
    obtain ⟨linked, yields, both⟩ := block.attachBack lowered
    exact .step yields (ensures_pure both)

theorem ensures_lowerCondition (lowers : Lowers main condition)
    (isMain : before.home.isMain = main) :
    Ensures (lowerCondition condition.lower) before
      (Decides (condition.fragment main) [condition] before) (Refuses before) := by
  refine (lowers before isMain).bind fun span middle lowered => ?_
  have added : Yields conditional middle middle.graph.size
      { middle with graph := middle.graph.append [{ shape := .conditional none none }] } :=
    yields_addBlock.mpr ⟨rfl, by rw [Graph.append_singleton]⟩
  have graph : middle.graph.append [{ shape := .conditional none none }] = before.graph.append
      ((condition.fragment main).blocks before.graph.size none .open ++
        [{ shape := .conditional none none }]) := by
    rw [lowered.graph, Graph.append_append]
  have inside : middle.graph.size <
      (middle.graph.append [{ shape := .conditional none none }]).size := by
    rw [Graph.size_append]
    exact Nat.lt_succ_self _
  refine .step added ?_
  rw [lowered.exit]
  refine .step (yields_link rfl graph inside) (ensures_pure ?_)
  exact {
    entry := lowered.entry
    exit := lowered.size
    graph := by rw [lowered.size]
    noted := lowered.noted.regraph _
    passes := lowered.passes }

/-- The version is checked in front of anything else. -/
theorem ensures_lower {step : LowerM Span} {post : Span → Context → Prop}
    (isLower : expr.lower = requireVersion expr >>= fun _ => step)
    (behind : Ensures step before post (Refuses before)) :
    Ensures expr.lower before post (Refuses before) := by
  have checks : Ensures (requireVersion expr) before (fun _ after => after = before)
      (Refuses before) := by
    refine ensures_get ?_
    split
    next => exact ensures_throw (.here rfl)
    next => exact ensures_pure rfl
  rw [isLower]
  refine checks.bind fun _ middle same => ?_
  subst same
  exact behind

theorem lowers_leaf (isLeaf : expr.leaf? = some instrs) : Lowers main expr := by
  intro before _
  have whole : expr.Admitted before.home →
      Ensures (do let block ← simple instrs; pure ⟨block, block⟩) before
        (Lowered (expr.fragment main) [expr] before) (Refuses before) := by
    intro admitted
    rw [Expr.fragment_of_leaf? isLeaf]
    refine .step (yields_simple instrs before) (ensures_pure ?_)
    exact (lowered_simple instrs before).weaken fun ids _ =>
      List.forall_mem_singleton.mpr (.leaf isLeaf admitted)
  refine ensures_lower (by rw [Expr.lower.eq_def]) ?_
  cases expr with
  | seq items =>
    cases items with
    | nil => cases isLeaf; exact whole trivial
    | cons => cases isLeaf
  | ret =>
    cases isLeaf
    refine ensures_get ?_
    split
    next => exact ensures_throw (.here rfl)
    next nothing => exact whole nothing
    next => exact ensures_throw (.here rfl)
  | int | bytes | text | field | sigArg | exit | abort | load | slotIndex | inline =>
    cases isLeaf
    exact whole trivial
  | _ => cases isLeaf

theorem clean_of_resolve {program : Program} {target : Handle}
    (fails : program.resolve target = .error cause) : cause.isDefect = false := by
  obtain ⟨_, rfl⟩ := Program.resolve_eq_error.mp fails
  rfl

theorem lt_of_resolve {program : Program} {target : Handle} {subroutine : Subroutine}
    (resolved : program.resolve target = .ok subroutine) :
    target.id < program.subroutines.size :=
  (Array.getElem?_eq_some_iff.mp (Program.resolve_eq_ok.mp resolved).1).1

theorem ensures_checkCall (target : Handle) (arguments : List Expr) (before : Context) :
    Ensures (checkCall target arguments) before
      (fun _ after => after = before ∧ (Expr.call target arguments).Admitted before.home)
      (Refuses before) := by
  have resolves : Ensures (liftM (before.program.resolve target)) before
      (fun subroutine after => after = before ∧ before.program.resolve target = .ok subroutine)
      (Refuses before) :=
    ensures_lift (fun _ isOk => ⟨rfl, isOk⟩) fun _ fails => .here (clean_of_resolve fails)
  refine ensures_get (resolves.bind fun subroutine middle known => ?_)
  obtain ⟨rfl, resolved⟩ := known
  refine ensures_guard (.here rfl) fun count => ?_
  split
  next => exact ensures_throw (.here rfl)
  next values =>
    refine ensures_pure
      ⟨rfl, ⟨_, resolved⟩, Decidable.not_not.mp count, fun argument member => ?_⟩
    simpa using List.find?_eq_none.mp values argument member

/-- Code that is added behind steps that only note subroutines. -/
theorem Lowered.ahead {code : Fragment} {items : List Expr} {span : Span}
    (noted : Noted before middle fun _ => []) (same : middle.graph = before.graph)
    (lowered : Lowered code items middle span after) : Lowered code items before span after := by
  have later := lowered.noted
  have graph := lowered.graph
  rw [same] at later graph
  exact {
    entry := same ▸ lowered.entry
    exit := same ▸ lowered.exit
    graph
    noted := noted.ahead later
    passes := noted.home ▸ lowered.passes }

theorem noted_reference {id : SubroutineId} (inside : id < before.program.subroutines.size) :
    Noted before { before with referenced := Ascending.insert id before.referenced }
      fun _ => [] :=
  { Noted.refl before with
    referenced := fun _ member => Ascending.mem_insert.mpr (.inr member)
    declared := fun other member => by
      rcases Ascending.mem_insert.mp member with rfl | old
      · exact .inr inside
      · exact .inl old }

theorem lowers_operator (isOperator : expr.operator? main = some (instr, operands))
    (each : ∀ operand ∈ operands, Lowers main operand) : Lowers main expr := by
  intro before isMain
  have passes : expr.Admitted before.home → ∀ ids,
      (∀ target arguments, expr = .call target arguments → target.id ∈ ids) →
      (∀ operand ∈ operands, operand.Passes before.home ids) →
      ∀ item ∈ [expr], item.Passes before.home ids := fun admitted ids known each =>
    List.forall_mem_singleton.mpr (.operator (isMain ▸ isOperator) admitted known each)
  have whole : (∀ target arguments, expr ≠ .call target arguments) → expr.Admitted before.home →
      Ensures (fromInstr instr (Expr.lowerEach operands)) before
        (Lowered (expr.fragment main) [expr] before) (Refuses before) := by
    intro noCall admitted
    rw [Expr.fragment_of_operator? isOperator]
    refine (ensures_fromInstr each isMain).imp fun _ _ lowered => ?_
    exact lowered.weaken fun ids => passes admitted ids
      fun target arguments isCall => absurd isCall (noCall target arguments)
  refine ensures_lower (by rw [Expr.lower.eq_def]) ?_
  cases expr with
  | binary | loadIndirect | storeIndirect | stateGet | statePut =>
    cases isOperator
    exact whole (by simp) trivial
  | unary | store =>
    cases isOperator
    simp only
    split
    next isValue => exact whole (by simp) isValue
    next => exact ensures_throw (.here rfl)
  | retValue value =>
    have isNone : before.current.isNone = main := by
      simpa [Context.home, Home.isMain] using isMain
    refine ensures_get ?_
    split
    next returns =>
      have outside : before.current = none := Option.map_eq_none_iff.mp returns
      rw [outside] at isNone
      subst isNone
      cases isOperator
      exact whole (by simp) (.inl returns)
    next ty returns =>
      obtain ⟨handle, current, _⟩ := Option.map_eq_some_iff.mp returns
      rw [current] at isNone
      subst isNone
      cases isOperator
      split
      next isValue => exact whole (by simp) (.inr ⟨⟨ty, returns⟩, isValue⟩)
      next => exact ensures_throw (.here rfl)
    next => exact ensures_throw (.here rfl)
  | call target arguments =>
    refine (ensures_checkCall target arguments before).bind fun _ middle checked => ?_
    obtain ⟨rfl, admitted⟩ := checked
    obtain ⟨subroutine, resolved⟩ := admitted.1
    have noted := noted_reference (lt_of_resolve resolved)
    have frame : Frame middle
        { middle with referenced := Ascending.insert target.id middle.referenced } :=
      ⟨⟨[], by simp [Graph.append]⟩, _, noted, fun _ => List.forall_mem_nil _⟩
    have references : Yields (reference target.id) middle ()
        { middle with referenced := Ascending.insert target.id middle.referenced } :=
      yields_modify.mpr rfl
    refine .step references ?_
    rw [Expr.fragment_of_operator? isOperator]
    cases isOperator
    have applies := @ensures_fromInstr { middle with
      referenced := Ascending.insert target.id middle.referenced } main _ (.callsub target.id)
      each isMain
    refine applies.mono (fun _ after lowered => ?_) fun _ _ refuses => refuses.behind frame
    refine { Lowered.ahead noted rfl lowered with passes := ?_ }
    refine passes admitted _ (fun other others isCall => ?_) lowered.passes
    cases isCall
    exact lowered.noted.referenced _ (Ascending.mem_insert.mpr (.inl rfl))
  | _ => cases isOperator

theorem ensures_checkItems (init : List Expr) (last : Expr) (before : Context) :
    Ensures (checkItems (init ++ [last])) before
      (fun _ after => after = before ∧ ∀ item ∈ init, item.ty.isValue = false)
      (Refuses before) := by
  induction init with
  | nil => exact ensures_pure ⟨rfl, List.forall_mem_nil _⟩
  | cons head tail ih =>
    have unfolded : checkItems (head :: tail ++ [last]) = (do
        if head.ty.isValue then throw (.invalidProgram (.strayValue head.name))
        checkItems (tail ++ [last])) := by
      cases tail <;> rfl
    rw [unfolded]
    refine ensures_guard (.here rfl) fun empty => ?_
    refine ih.imp fun _ after known => ?_
    exact ⟨known.1, List.forall_mem_cons.mpr ⟨by simpa using empty, known.2⟩⟩

theorem lowers_seq (each : ∀ item ∈ init ++ [last], Lowers main item) :
    Lowers main (.seq (init ++ [last])) := by
  intro before isMain
  refine ensures_lower (by rw [Expr.lower.eq_def]) ?_
  refine (ensures_checkItems init last before).bind fun _ middle checked => ?_
  obtain ⟨rfl, empty⟩ := checked
  have passes : ∀ ids, (∀ item ∈ init ++ [last], item.Passes middle.home ids) →
      ∀ item ∈ [Expr.seq (init ++ [last])], item.Passes middle.home ids := fun ids all =>
    List.forall_mem_singleton.mpr (.seq empty all)
  rw [Expr.fragment]
  cases items : init ++ [last] with
  | nil => simp at items
  | cons first rest =>
    rw [items] at each passes
    exact (ensures_chain each isMain (.refl middle)).imp fun _ _ lowered => lowered.weaken passes

/-- Code with a new block behind it. -/
theorem Lowered.join {code : Fragment} {items : List Expr} {span : Span}
    (lowered : Lowered code items before span after) (instrs : List Instr) :
    ∃ linked, Yields (setNext span.exit after.graph.size)
        { after with graph := after.graph.append [{ instrs }] } () linked ∧
      Lowered (code.attach (.leaf instrs)) items before ⟨span.entry, after.graph.size⟩ linked := by
  have both := lowered.attach (lowered_simple instrs after)
  rwa [List.append_nil] at both

theorem lowers_ifThen (test : Lowers main condition) (taken : Lowers main thenBranch) :
    Lowers main (.ifThen condition thenBranch) := by
  intro before isMain
  refine ensures_lower (by rw [Expr.lower.eq_def]) (ensures_guard (.here rfl) fun empty => ?_)
  refine (ensures_lowerCondition test isMain).bind fun branch decided decides => ?_
  refine (taken.behind isMain decides.frame).bind fun thenSpan thenEnd lowered => ?_
  obtain ⟨linked, links, joined⟩ := lowered.join []
  obtain ⟨forked, forks, whole⟩ := decides.fork joined
    (Fragment.branch_apart (thenBranch.fragment main))
  rw [← lowered.entry, ← lowered.size] at forks
  refine .step (yields_simple [] thenEnd) (.step links (.step forks ?_))
  refine ensures_pure (whole.weaken fun ids passes => ?_)
  simp only [List.singleton_append, List.forall_mem_cons] at passes
  exact List.forall_mem_singleton.mpr (.ifThen (by simpa using empty) passes.1 passes.2.1)

theorem ensures_checkBranches (thenBranch elseBranch : Expr) (before : Context) :
    Ensures (checkBranches thenBranch elseBranch) before
      (fun _ after => after = before ∧
        (thenBranch.terminates = false → elseBranch.terminates = false →
          thenBranch.ty.isValue = elseBranch.ty.isValue))
      (Refuses before) := by
  rw [checkBranches]
  split
  next => exact ensures_throw (.here rfl)
  next agree =>
    refine ensures_pure ⟨rfl, fun thenGoesOn elseGoesOn => ?_⟩
    simpa [thenGoesOn, elseGoesOn] using agree

theorem lowers_ifElse (test : Lowers main condition) (taken : Lowers main thenBranch)
    (other : Lowers main elseBranch) : Lowers main (.ifElse condition thenBranch elseBranch) := by
  intro before isMain
  refine ensures_lower (by rw [Expr.lower.eq_def]) ?_
  refine (ensures_checkBranches thenBranch elseBranch before).bind fun _ checked known => ?_
  obtain ⟨rfl, agree⟩ := known
  refine (ensures_lowerCondition test isMain).bind fun branch decided decides => ?_
  refine (taken.behind isMain decides.frame).bind fun thenSpan thenEnd lowered => ?_
  obtain ⟨linked, links, joined⟩ := lowered.join []
  refine .step (yields_simple [] thenEnd) (.step links ?_)
  refine (other.behind isMain (decides.frame.trans joined.frame)).bind
    fun elseSpan elseEnd alternative => ?_
  obtain ⟨relinked, relinks, both⟩ := joined.attachBack alternative
  obtain ⟨forked, forks, whole⟩ := decides.fork both
    (Fragment.branches_apart (thenBranch.fragment main) (elseBranch.fragment main))
  have elseEntry : elseSpan.entry = (elseBranch.fragment main).entry
      (decided.graph.size + ((thenBranch.fragment main).size + 1)) := by
    rw [alternative.entry, joined.size]
    rfl
  rw [← lowered.entry, ← elseEntry] at forks
  refine .step relinks (.step forks ?_)
  refine ensures_pure (whole.weaken fun ids passes => ?_)
  simp only [List.singleton_append, List.forall_mem_cons] at passes
  exact List.forall_mem_singleton.mpr (.ifElse agree passes.1 passes.2.1 passes.2.2.1)

/-- What a step inside a loop leaves behind once the loop is closed. -/
theorem Frame.closeLoop (frame : Frame { middle with loops := {} :: middle.loops } after) :
    ∃ exits, after.loops = exits :: middle.loops ∧
      Frame middle { after with loops := middle.loops } := by
  obtain ⟨graph, jumps, noted, _⟩ := frame
  exact ⟨_, noted.loops, graph, _, noted.closeLoop, fun _ => List.forall_mem_nil _⟩

/-- A loop is opened, and closed again behind whatever a step inside it comes to. -/
theorem ensures_inLoop {step : LowerM Span} {rest : LoopExits → Span → LowerM Span}
    {post inside : Span → Context → Prop} (frame : Frame base middle)
    (within : Ensures step { middle with loops := {} :: middle.loops } inside
      (Refuses { middle with loops := {} :: middle.loops }))
    (behind : ∀ span after, inside span after → ∃ exits, after.loops = exits :: middle.loops ∧
      Ensures (rest exits span) { after with loops := middle.loops } post (Refuses base)) :
    Ensures (do
      enterLoop
      let outcome ← attempt step
      let exits ← exitLoop
      let span ← outcome
      rest exits span) middle post (Refuses base) := by
  have enters : Yields enterLoop middle () { middle with loops := {} :: middle.loops } :=
    yields_modify.mpr rfl
  have exits : ∀ {context : Context} {exits : LoopExits} {loops : List LoopExits},
      context.loops = exits :: loops →
      Yields exitLoop context exits { context with loops } := by
    intro context exits loops isOpen
    refine yields_bind.mpr ⟨_, _, yields_get.mpr ⟨rfl, rfl⟩, ?_⟩
    rw [isOpen]
    rfl
  refine .step enters ?_
  rw [Ensures] at within
  rcases isOutcome : outcome step { middle with loops := {} :: middle.loops } with
    ⟨result, after⟩
  have attempts : Yields (attempt step) { middle with loops := {} :: middle.loops } result after :=
    yields_attempt.mpr isOutcome
  rw [isOutcome] at within
  refine .step attempts ?_
  cases result with
  | error cause =>
    obtain ⟨exits', isOpen, closed⟩ := within.2.closeLoop
    exact .step (exits isOpen) (.of_throws rfl ⟨within.1, frame.trans closed⟩)
  | ok span =>
    obtain ⟨exits', isOpen, ensures⟩ := behind span after within
    exact .step (exits isOpen) (.step rfl ensures)

theorem lowers_whileLoop (test : Lowers main condition) (repeated : Lowers main body) :
    Lowers main (.whileLoop condition body) := by
  intro before isMain
  refine ensures_lower (by rw [Expr.lower.eq_def]) (ensures_guard (.here rfl) fun empty => ?_)
  refine (ensures_lowerCondition test isMain).bind fun branch decided decides => ?_
  have within := repeated { decided with loops := {} :: decided.loops }
    (by rw [← isMain, ← decides.frame.home]; rfl)
  refine ensures_inLoop decides.frame within fun span after lowered => ?_
  obtain ⟨exits, closed, isOpen, closes, whole⟩ := decides.closeLoop lowered
  refine ⟨exits, isOpen, .of_yields closes (whole.weaken fun ids passes => ?_)⟩
  simp only [List.singleton_append, List.forall_mem_cons] at passes
  exact List.forall_mem_singleton.mpr (.whileLoop (by simpa using empty) passes.1 passes.2.1)

/-- A step that notes a block as a jump of the innermost loop. -/
def NotesJump (kind : Jump) (add : BlockId → LowerM Unit) : Prop :=
  ∀ block context, Ensures (add block) context
    (fun _ after => context.loops ≠ [] ∧ after = { context with
      loops := note context.loops fun jump => if jump = kind then [block] else [] })
    (fun cause after => cause.isDefect = false ∧ after = context)

theorem notesJump_addBreak : NotesJump .leave addBreak := by
  intro block context
  refine ensures_get ?_
  split
  next => exact ensures_throw ⟨rfl, rfl⟩
  next exits around isOpen => exact .of_yields rfl (by simp [isOpen, note])

theorem notesJump_addContinue : NotesJump .again addContinue := by
  intro block context
  refine ensures_get ?_
  split
  next => exact ensures_throw ⟨rfl, rfl⟩
  next exits around isOpen => exact .of_yields rfl (by simp [isOpen, note])

theorem lowers_jump {kind : Jump} {add : BlockId → LowerM Unit} (adds : NotesJump kind add)
    (isLower : expr.lower = requireVersion expr >>= fun _ => do
      let block ← simple []
      add block
      pure ⟨block, block⟩)
    (isFragment : expr.fragment main = .jump kind) (passes : ∀ home ids, expr.Passes home ids) :
    Lowers main expr := by
  intro before isMain
  have block := lowered_simple [] before
  have jumps : Ensures (add before.graph.size) { before with graph := before.graph.append [{}] }
      (fun _ after => Lowered (expr.fragment main) [expr] before
        ⟨before.graph.size, before.graph.size⟩ after) (Refuses before) := by
    refine (adds _ _).mono (fun _ after known => ?_) fun cause after known => ?_
    · obtain ⟨isOpen, rfl⟩ := known
      rw [isFragment]
      exact {
        entry := rfl
        exit := rfl
        graph := rfl
        noted := { block.noted with
          loops := rfl
          outside := fun outermost => absurd outermost isOpen }
        passes := List.forall_mem_singleton.mpr (passes _ _) }
    · obtain ⟨clean, rfl⟩ := known
      exact ⟨clean, block.frame⟩
  refine ensures_lower isLower (.step (yields_simple [] before) ?_)
  exact jumps.bind fun _ after lowered => ensures_pure lowered

/-- Lowering any expression adds exactly its code, or refuses it. -/
theorem lowers (main : Bool) (expr : Expr) : Lowers main expr :=
  Expr.Compositional.all {
    leaf := fun _ _ => lowers_leaf
    operator := fun _ _ _ => lowers_operator
    seq := fun _ _ init last =>
      lowers_seq (List.forall_mem_append.mpr ⟨init, List.forall_mem_singleton.mpr last⟩)
    ifThen := fun _ _ => lowers_ifThen
    ifElse := fun _ _ _ => lowers_ifElse
    whileLoop := fun _ _ => lowers_whileLoop
    breakLoop := lowers_jump notesJump_addBreak (by rw [Expr.lower.eq_def]) rfl fun _ _ => .breakLoop
    continueLoop :=
      lowers_jump notesJump_addContinue (by rw [Expr.lower.eq_def]) rfl fun _ _ => .continueLoop }
    expr

/-- What has been added once an expression has been lowered. -/
theorem lowered_of_yields {span : Span} (lowered : Yields expr.lower before span after) :
    Lowered (expr.fragment before.home.isMain) [expr] before span after :=
  (lowers before.home.isMain expr before rfl).of_outcome lowered

end Lowering

end ContractBackend
