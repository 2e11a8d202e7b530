import ContractBackend.Proofs.Gauge.Heights
import ContractBackend.Proofs.Graph.Tallies
import ContractBackend.Proofs.Tables

/-!
# What lowering the routines comes to

The code of a routine is that of its body, in front of which a subroutine stores its arguments, and
behind which control leaves the routine if it gets there. The graph of every routine passes its
checks, and lowering goes on until every subroutine that is referred to has a graph.
-/

namespace ContractBackend

/-- An operand names one of some subroutines, or nothing in the code. -/
def Operand.Known (ids : List SubroutineId) : Operand → Prop
  | .subroutine id => id ∈ ids
  | .label _ => False
  | _ => True

/-- An instruction does not branch, and refers to some subroutines only. -/
structure Instr.Knows (ids : List SubroutineId) (instr : Instr) : Prop where
  straight : instr.op.isBranch = false
  operands : ∀ operand ∈ instr.operands, operand.Known ids

theorem Instr.Knows.mono {ids others : List SubroutineId} {instr : Instr} (knows : instr.Knows ids)
    (more : ∀ id ∈ ids, id ∈ others) : instr.Knows others where
  straight := knows.straight
  operands operand member := by
    have known := knows.operands operand member
    cases operand with
    | subroutine id => exact more id known
    | _ => exact known

/-- Every instruction of some code has a property, wherever the code stands. -/
def Fragment.Emits (code : Fragment) (property : Instr → Prop) : Prop :=
  ∀ first next loop, ∀ block ∈ code.blocks first next loop, ∀ instr ∈ block.instrs, property instr

namespace Fragment

variable {code code' condition branch alternative body : Fragment} {property : Instr → Prop}

theorem emits_leaf {instrs : List Instr} (each : ∀ instr ∈ instrs, property instr) :
    (leaf instrs).Emits property :=
  fun _ _ _ => List.forall_mem_singleton.mpr each

theorem emits_jump (kind : Jump) : (jump kind).Emits property :=
  fun _ _ _ => List.forall_mem_singleton.mpr (List.forall_mem_nil _)

theorem Emits.attach (first : code.Emits property) (second : code'.Emits property) :
    (code.attach code').Emits property :=
  fun _ _ _ => List.forall_mem_append.mpr ⟨first _ _ _, second _ _ _⟩

theorem Emits.attachBack (first : code.Emits property) (second : code'.Emits property) :
    (code.attachBack code').Emits property :=
  fun _ _ _ => List.forall_mem_append.mpr ⟨first _ _ _, second _ _ _⟩

theorem Emits.fork (emits : code.Emits property) {onTrue onFalse : Nat → Nat}
    (apart : ∀ start, start ≤ onTrue start ∧ onTrue start < onFalse start ∧
      onFalse start < start + code.size) : (code.fork onTrue onFalse apart).Emits property :=
  fun _ _ _ => List.forall_mem_cons.mpr ⟨List.forall_mem_nil _, emits _ _ _⟩

theorem Emits.whileLoop (test : condition.Emits property) (repeated : body.Emits property) :
    (condition.whileLoop body).Emits property :=
  fun _ _ _ => List.forall_mem_append.mpr ⟨test _ _ _, List.forall_mem_cons.mpr
    ⟨List.forall_mem_nil _, List.forall_mem_append.mpr
      ⟨repeated _ _ _, List.forall_mem_singleton.mpr (List.forall_mem_nil _)⟩⟩⟩

theorem emits_foldl {main : Bool} {rest : List Expr}
    (each : ∀ item ∈ rest, (item.fragment main).Emits property) (emits : code.Emits property) :
    ((Expr.fragments main rest).foldl Fragment.attach code).Emits property := by
  induction rest generalizing code with
  | nil => exact emits
  | cons item rest ih =>
    rw [List.forall_mem_cons] at each
    exact ih each.2 (emits.attach each.1)

end Fragment

namespace Expr

variable {expr : Expr} {main : Bool}

theorem knows_of_leaf? {instrs : List Instr} (isLeaf : expr.leaf? = some instrs)
    (catalog : expr.isCatalog = true) (ids : List SubroutineId) :
    ∀ instr ∈ instrs, instr.Knows ids := by
  have plain : ∀ (op : Opcode) (operands : List Operand), op.isBranch = false →
      (∀ operand ∈ operands, operand.Known ids) → ∀ instr ∈ [(⟨op, operands⟩ : Instr)],
        instr.Knows ids := by
    rintro op operands straight known _ (_ | ⟨_, ⟨⟩⟩)
    exact ⟨straight, known⟩
  cases expr with
  | inline => cases catalog
  | field source =>
    cases isLeaf
    exact plain _ _ (by cases source <;> rfl) (by simp [Operand.Known])
  | exit =>
    cases isLeaf
    exact List.forall_mem_cons.mpr ⟨⟨rfl, by simp [Instr.int, Operand.Known]⟩,
      plain _ _ rfl (by simp)⟩
  | seq items =>
    cases items with
    | nil => cases isLeaf; exact List.forall_mem_nil _
    | cons => cases isLeaf
  | int | bytes | text | sigArg | ret | abort | load | slotIndex =>
    cases isLeaf
    exact plain _ _ rfl (by simp [Operand.Known])
  | _ => cases isLeaf

theorem knows_of_operator? {instr : Instr} {operands : List Expr}
    (isOperator : expr.operator? main = some (instr, operands)) (ids : List SubroutineId)
    (referenced : ∀ target arguments, expr = .call target arguments → target.id ∈ ids) :
    instr.Knows ids := by
  cases expr with
  | binary op | unary op => cases isOperator; exact ⟨by cases op <;> rfl, List.forall_mem_nil _⟩
  | retValue => cases isOperator; exact ⟨by cases main <;> rfl, List.forall_mem_nil _⟩
  | store => cases isOperator; exact ⟨rfl, by simp [Instr.store, Operand.Known]⟩
  | loadIndirect | storeIndirect | stateGet | statePut =>
    cases isOperator
    exact ⟨rfl, List.forall_mem_nil _⟩
  | call target arguments =>
    cases isOperator
    exact ⟨rfl, by simpa [Instr.callsub, Operand.Known] using referenced target _ rfl⟩
  | _ => cases isOperator

/-- Expressions of the catalog that pass the checks become instructions that know the
subroutines. -/
theorem Passes.knows {home : Home} {ids : List SubroutineId} (passes : expr.Passes home ids)
    (catalog : expr.isCatalog = true) :
    (expr.fragment home.isMain).Emits (Instr.Knows ids) := by
  induction passes with
  | leaf isLeaf _ =>
    rw [fragment_of_leaf? isLeaf]
    exact Fragment.emits_leaf (knows_of_leaf? isLeaf catalog ids)
  | @operator expr instr operands isOperator _ known _ each =>
    have parts := fun operand member =>
      each operand member (every_of_operator? isOperator catalog operand member)
    have block : (Fragment.leaf [instr]).Emits (Instr.Knows ids) :=
      Fragment.emits_leaf (List.forall_mem_singleton.mpr (knows_of_operator? isOperator ids known))
    rw [fragment_of_operator? isOperator]
    cases operands with
    | nil => exact block
    | cons operand rest =>
      rw [List.forall_mem_cons] at parts
      exact block.attachBack (Fragment.emits_foldl parts.2 parts.1)
  | @seq init last _ _ each =>
    rw [isCatalog, every, Bool.true_and, everyOf_eq_true] at catalog
    have parts := fun item member => each item member (catalog item member)
    rw [fragment]
    cases items : init ++ [last] with
    | nil => simp at items
    | cons item rest =>
      rw [items, List.forall_mem_cons] at parts
      exact Fragment.emits_foldl parts.2 parts.1
  | ifThen _ _ _ test taken =>
    simp only [isCatalog, every, Bool.true_and, Bool.and_eq_true] at catalog
    have join : (Fragment.leaf []).Emits (Instr.Knows ids) :=
      Fragment.emits_leaf (List.forall_mem_nil _)
    exact (test catalog.1).attach (((taken catalog.2).attach join).fork _)
  | ifElse _ _ _ _ test taken other =>
    simp only [isCatalog, every, Bool.true_and, Bool.and_eq_true] at catalog
    have join : (Fragment.leaf []).Emits (Instr.Knows ids) :=
      Fragment.emits_leaf (List.forall_mem_nil _)
    exact (test catalog.1.1).attach
      ((((taken catalog.1.2).attach join).attachBack (other catalog.2)).fork _)
  | whileLoop _ _ _ test repeated =>
    simp only [isCatalog, every, Bool.true_and, Bool.and_eq_true] at catalog
    exact (test catalog.1).whileLoop (repeated catalog.2)
  | breakLoop => exact Fragment.emits_jump .leave
  | continueLoop => exact Fragment.emits_jump .again

end Expr

namespace Lowering

variable {α : Type} {before after : Context} {code : Fragment} {items : List Expr} {span : Span}

theorem yields_beginRoutine {current : Option Handle} {result : Unit} :
    Yields (beginRoutine current) before result after ↔
      { before with graph := {}, current, loops := [] } = after := by
  rw [beginRoutine]
  exact yields_modify

theorem yields_finishRoutine {graph : Graph} :
    Yields finishRoutine before graph after ↔
      before.graph = graph ∧ { before with graph := {}, current := none } = after := by
  have unfolded : outcome finishRoutine before =
      (.ok before.graph, { before with graph := {}, current := none }) := rfl
  simp [Yields, unfolded]

/-- The graph of code that nothing stands in front of is neat. -/
theorem Lowered.neat (lowered : Lowered code items before span after)
    (empty : before.graph.size = 0) : after.graph.Neat := by
  have cases : ∀ id, after.graph.block id = {} ∨ Leads before.graph.size after.graph.size span.exit
      (fun jump => code.jumps jump before.graph.size) none .open id
      (after.graph.block id).shape := by
    intro id
    rcases Nat.lt_or_ge id after.graph.size with high | beyond
    · exact .inr (lowered.leads (empty ▸ Nat.zero_le id) high)
    · exact .inl (Graph.block_of_size_le beyond)
  refine ⟨fun id target member => ?_, fun id => ?_, fun id => ?_⟩
  · rcases cases id with isEmpty | leads
    · rw [isEmpty] at member
      cases member
    · exact (leads.inside target member).2
  · rcases cases id with isEmpty | leads
    · rw [isEmpty]
      exact List.nodup_nil
    · exact leads.apart
  · rcases cases id with isEmpty | leads
    · rw [isEmpty]
      rfl
    · exact leads.whole

theorem Lowered.every (lowered : Lowered code items before span after)
    (empty : before.graph.size = 0) {property : Instr → Prop} (emits : code.Emits property) :
    after.graph.Every property := by
  intro id
  rcases Nat.lt_or_ge id after.graph.size with high | beyond
  · have each := Graph.forall_of_eachFrom
      (eachFrom_of_forall (emits before.graph.size none .open)) id (empty ▸ Nat.zero_le id)
    rw [← lowered.graph] at each
    exact each high
  · rw [Graph.block_of_size_le beyond]
    exact List.forall_mem_nil _

end Lowering

namespace Compile

open Lowering

variable {before after : Context} {code : Fragment} {items : List Expr} {span : Span} {expr : Expr}
  {middle : Context} {id : SubroutineId}

/-! ## One routine -/

/-- A failure is not a defect of the compiler. -/
def Refused (cause : CompileError) (_ : Context) : Prop := cause.isDefect = false

/-- Code that leaves the routine behind an expression if control gets there. -/
def ended (code : Fragment) (expr : Expr) (op : Opcode) : Fragment :=
  if expr.terminates then code else code.attach (.leaf [⟨op, []⟩])

/-- The end of a routine has been added. -/
def Ends (code : Fragment) (expr : Expr) (op : Opcode) (before : Context) (entry : BlockId)
    (after : Context) : Prop :=
  ∃ exit, Lowering.Lowered (ended code expr op) [expr] before ⟨entry, exit⟩ after

theorem Ends.of_terminates (lowered : Lowering.Lowered code [expr] before span after)
    (ends : expr.terminates = true) (op : Opcode) : Ends code expr op before span.entry after :=
  ⟨span.exit, by rw [ended, if_pos ends]; exact lowered⟩

theorem ensures_append (lowered : Lowering.Lowered code [expr] before span middle)
    (goes : expr.terminates = false) (op : Opcode) :
    Ensures (append span.exit op) middle (fun _ after => Ends code expr op before span.entry after)
      Refused := by
  obtain ⟨linked, links, joined⟩ := lowered.join [⟨op, []⟩]
  have ends : Ends code expr op before span.entry linked :=
    ⟨middle.graph.size, by rw [ended, goes]; exact joined⟩
  exact .step (yields_simple _ middle) (.of_yields links ends)

theorem ensures_finishMain (lowered : Lowering.Lowered code [expr] before span middle) :
    Ensures (finishMain expr span.exit) middle
      (fun _ after => (expr.terminates = false → expr.ty.isValue = true) ∧
        Ends code expr .ret before span.entry after) Refused := by
  rw [finishMain]
  split
  next ends =>
    exact ensures_pure ⟨by simp [ends], .of_terminates lowered ends _⟩
  next goes =>
    have adds := ensures_append lowered (by simpa using goes) .ret
    split
    next isTy => exact adds.imp fun _ _ ends => ⟨fun _ => by rw [isTy]; rfl, ends⟩
    next isTy => exact adds.imp fun _ _ ends => ⟨fun _ => by rw [isTy]; rfl, ends⟩
    next => exact ensures_throw rfl
    next => exact ensures_throw rfl

theorem ensures_finishSubroutine {handle : Handle}
    (lowered : Lowering.Lowered code [expr] before span middle) :
    Ensures (finishSubroutine handle expr span.exit) middle
      (fun _ after => (expr.terminates = false → expr.ty.isValue = handle.returns.isValue) ∧
        Ends code expr .retsub before span.entry after) Refused := by
  rw [finishSubroutine]
  split
  next ends =>
    exact ensures_pure ⟨by simp [ends], .of_terminates lowered ends _⟩
  next goes =>
    split
    next => exact ensures_throw rfl
    next => exact ensures_throw rfl
    next noValue noResult =>
      refine (ensures_append lowered (by simpa using goes) .retsub).imp
        fun _ _ ends => ⟨fun _ => ?_, ends⟩
      cases returns : handle.returns <;> cases isValue : expr.ty.isValue <;>
        simp_all [Returns.isValue]

/-- A routine has been made of code for an expression. -/
def Makes (code : Fragment) (expr : Expr) (before : Context) (routine : RoutineGraph)
    (after : Context) : Prop :=
  ∃ span ended, Lowering.Lowered code [expr] before span ended ∧
    RoutineGraph.prepare ⟨ended.graph, span.entry⟩ = .ok routine ∧
    after = { ended with graph := {}, current := none }

/-- A routine is handed over and prepared. -/
theorem ensures_hand {op : Opcode} {entry : BlockId} (ends : Ends code expr op before entry middle)
    (empty : before.graph.size = 0) :
    Ensures (do
      let graph ← finishRoutine
      RoutineGraph.prepare ⟨graph, entry⟩) middle
      (Makes (ended code expr op) expr before) Refused := by
  obtain ⟨exit, lowered⟩ := ends
  obtain ⟨prepared, isOk, _⟩ := @Graph.Neat.prepare (fun _ => True) ⟨middle.graph, entry⟩
    (lowered.neat empty) lowered.entry_inside.2 fun _ _ _ => trivial
  refine .step (yields_finishRoutine.mpr ⟨rfl, rfl⟩) (.of_yields (yields_lift.mpr ⟨isOk, rfl⟩) ?_)
  exact ⟨_, middle, lowered, isOk, rfl⟩

/-- Lowering as a part of making a routine. -/
theorem ensures_part {main : Bool} {base : Context} (frame : Frame base before)
    (isMain : base.home.isMain = main) :
    Ensures expr.lower before (Lowering.Lowered (expr.fragment main) [expr] before) Refused :=
  ((lowers main expr).behind isMain frame).mono (fun _ _ lowered => lowered)
    fun _ _ refuses => refuses.1

/-- The context in which the main routine is lowered. -/
def atMain (context : Context) : Context :=
  { context with graph := {}, current := none, loops := [] }

/-- What lowering the main routine comes to. -/
theorem ensures_lowerMain (main : Expr) (before : Context) :
    Ensures (lowerMain main) before (fun routine after =>
      (main.terminates = false → main.ty.isValue = true) ∧
        Makes (ended (main.fragment true) main .ret) main (atMain before) routine after) Refused := by
  have begun : Yields (beginRoutine none) before () (atMain before) := yields_beginRoutine.mpr rfl
  refine .step begun ((ensures_part (.refl _) rfl).bind fun span grown lowered => ?_)
  refine (ensures_finishMain lowered).bind fun _ finished known => ?_
  obtain ⟨isValue, ends⟩ := known
  exact (ensures_hand ends rfl).imp fun _ _ makes => ⟨isValue, makes⟩

/-- The context in which a subroutine is lowered. -/
def atSubroutine (context : Context) (id : SubroutineId) (subroutine : Subroutine) : Context where
  program := ((Program.body id).run context.program).2
  version := context.version
  current := some subroutine.handle
  referenced := context.referenced

/-- The code of a subroutine: its arguments are stored in front of the body. -/
def subroutineCode (subroutine : Subroutine) (body : Expr) : Fragment :=
  ended ((Fragment.leaf (subroutine.params.reverse.map fun param => .store param.slot)).attach
    (body.fragment false)) body .retsub

/-- Building a body fails only where none has been given. -/
theorem clean_body {cause : CompileError} {program : Program}
    (inside : id < program.subroutines.size)
    (fails : ((Program.body id).run program).1 = .error cause) : cause.isDefect = false := by
  rw [Program.run_body] at fails
  split at fails
  next absent =>
    rw [Array.getElem?_eq_none_iff] at absent
    exact absurd inside (Nat.not_lt.mpr absent)
  next =>
    split at fails <;> cases fails
    rfl

/-- What lowering a subroutine comes to. -/
theorem ensures_lowerSubroutine {subroutine : Subroutine}
    (registered : before.program.subroutines[id]? = some subroutine) :
    Ensures (lowerSubroutine id) before (fun routine after => ∃ body,
      ((Program.body id).run before.program).1 = .ok body ∧
      (body.terminates = false → body.ty.isValue = subroutine.handle.returns.isValue) ∧
      Makes (subroutineCode subroutine body) body (atSubroutine before id subroutine) routine after)
      Refused := by
  have inside : id < before.program.subroutines.size := (Array.getElem?_eq_some_iff.mp registered).1
  have found := Program.subroutine_eq_ok.mpr registered
  have builds : Ensures (onProgram (Program.body id)) before (fun body built =>
      ((Program.body id).run before.program).1 = .ok body ∧
        built = { before with program := ((Program.body id).run before.program).2 }) Refused := by
    have isOutcome : outcome (onProgram (Program.body id)) before =
        (((Program.body id).run before.program).1,
          { before with program := ((Program.body id).run before.program).2 }) := rfl
    rw [Ensures, isOutcome]
    cases result : ((Program.body id).run before.program).1 with
    | error cause => exact clean_body inside result
    | ok body => exact ⟨rfl, rfl⟩
  refine ensures_get (.step (yields_lift.mpr ⟨found, rfl⟩) ?_)
  refine builds.bind fun body built known => ?_
  obtain ⟨isBody, rfl⟩ := known
  have begun : Yields (beginRoutine (some subroutine.handle))
      { before with program := ((Program.body id).run before.program).2 } ()
      (atSubroutine before id subroutine) := yields_beginRoutine.mpr rfl
  have stores := lowered_simple (subroutine.params.reverse.map fun param => .store param.slot)
    (atSubroutine before id subroutine)
  refine .step begun (.step (yields_simple _ _) ?_)
  refine (ensures_part stores.frame rfl).bind fun span grown lowered => ?_
  obtain ⟨linked, links, whole⟩ := stores.attach lowered
  refine .step links ((ensures_finishSubroutine whole).bind fun _ finished known => ?_)
  obtain ⟨agree, ends⟩ := known
  exact (ensures_hand ends rfl).imp fun _ _ makes => ⟨body, isBody, agree, makes⟩

/-- What is known of the graph of a routine. -/
structure Known (referenced : List SubroutineId) (routine : RoutineGraph) : Prop where
  isExact : routine.graph.Exact routine.entry
  knows : routine.graph.Every (Instr.Knows referenced)

theorem Known.mono {referenced others : List SubroutineId} {routine : RoutineGraph}
    (known : Known referenced routine) (more : ∀ id ∈ referenced, id ∈ others) :
    Known others routine :=
  ⟨known.isExact, fun id instr member => (known.knows id instr member).mono more⟩

/-- The subroutines that are referred to are declared. -/
def AllDeclared (context : Context) : Prop :=
  ∀ id ∈ context.referenced, id < context.program.subroutines.size

theorem Makes.known {routine : RoutineGraph} (makes : Makes code expr before routine after)
    (empty : before.graph.size = 0) (declared : AllDeclared before)
    (emits : expr.Passes before.home after.referenced → code.Emits (Instr.Knows after.referenced)) :
    Known after.referenced routine ∧ AllDeclared after ∧ after.program = before.program ∧
      ∀ id ∈ before.referenced, id ∈ after.referenced := by
  obtain ⟨span, ended, lowered, isOk, rfl⟩ := makes
  obtain ⟨prepared, isOk', isExact, every⟩ := @Graph.Neat.prepare _ ⟨ended.graph, span.entry⟩
    (lowered.neat empty) lowered.entry_inside.2
    (lowered.every empty (emits (lowered.passes expr (by simp))))
  rw [isOk] at isOk'
  cases isOk'
  refine ⟨⟨isExact, every⟩, fun id member => ?_, lowered.noted.program, lowered.noted.referenced⟩
  have program : ended.program = before.program := lowered.noted.program
  simp only [program]
  exact (lowered.noted.declared id member).elim (declared id) fun isDeclared => isDeclared

theorem emits_ended {ids : List SubroutineId} {op : Opcode} (emits : code.Emits (Instr.Knows ids))
    (straight : op.isBranch = false) : (ended code expr op).Emits (Instr.Knows ids) := by
  rw [ended]
  split
  next => exact emits
  next =>
    exact emits.attach (Fragment.emits_leaf
      (List.forall_mem_singleton.mpr ⟨straight, List.forall_mem_nil _⟩))

theorem clean_lowerMain {main : Expr} (catalog : main.isCatalog = true)
    (declared : AllDeclared before) :
    Ensures (lowerMain main) before (fun routine after =>
      Known after.referenced routine ∧ AllDeclared after ∧ after.program = before.program)
      Refused := by
  refine (ensures_lowerMain main before).imp fun routine after made => ?_
  obtain ⟨_, makes⟩ := made
  obtain ⟨known, declared, program, _⟩ := makes.known rfl declared fun passes =>
    emits_ended (passes.knows catalog) rfl
  exact ⟨known, declared, program⟩

theorem clean_lowerSubroutine
    (catalog : before.program.BodiesHave fun body => body.isCatalog = true)
    (declared : AllDeclared before) (inside : id < before.program.subroutines.size) :
    Ensures (lowerSubroutine id) before (fun routine after =>
      Known after.referenced routine ∧ AllDeclared after ∧
        before.program.SameDeclarations after.program ∧
        (after.program.BodiesHave fun body => body.isCatalog = true) ∧
        ∀ other ∈ before.referenced, other ∈ after.referenced) Refused := by
  have same := Program.sameDeclarations_body before.program id
  obtain ⟨isCatalog, keeps⟩ := catalog.body id
  refine (ensures_lowerSubroutine (Array.getElem?_eq_getElem inside)).imp fun routine after made => ?_
  obtain ⟨body, isBody, _, makes⟩ := made
  have still : AllDeclared (atSubroutine before id before.program.subroutines[id]) :=
    fun other member => by
      rw [atSubroutine, same.size]
      exact declared other member
  obtain ⟨known, declared, program, more⟩ := makes.known rfl still fun passes => by
    have stores : ∀ instr ∈ before.program.subroutines[id].params.reverse.map
        fun param => Instr.store param.slot, instr.Knows after.referenced := by
      intro instr member
      obtain ⟨param, _, rfl⟩ := List.mem_map.mp member
      exact ⟨rfl, by simp [Instr.store, Operand.Known]⟩
    exact emits_ended ((Fragment.emits_leaf stores).attach
      (passes.knows (isCatalog body isBody))) rfl
  exact ⟨known, declared, program ▸ same, program ▸ keeps, more⟩

/-! ## All routines -/

/-- What is known of the routines lowered so far. -/
structure Underway (context : Context) (graphs : RoutineTable RoutineGraph) : Prop where
  lowered : ∀ entry ∈ graphs, Known context.referenced entry.2
  declared : AllDeclared context
  known : ∀ id graph, (.subroutine id, graph) ∈ graphs → id < context.program.subroutines.size
  ordered : graphs.Ordered

variable {graphs result : RoutineTable RoutineGraph}

/-- A table with as many entries as there are routines has one for each of them. -/
theorem Underway.complete (underway : Underway before graphs)
    (full : before.program.subroutines.size < graphs.length) :
    ∀ id < before.program.subroutines.size, .subroutine id ∈ graphs.map Prod.fst := by
  have within : graphs.map Prod.fst ⊆
      .main :: (List.range before.program.subroutines.size).map .subroutine := by
    intro routine member
    obtain ⟨⟨routine, graph⟩, isEntry, rfl⟩ := List.mem_map.mp member
    cases routine with
    | main => simp
    | subroutine id => simpa using underway.known id graph isEntry
  have perm := (List.subperm_of_subset underway.ordered.nodup within).perm_of_length_le
    (by simpa using Nat.succ_le_of_lt full)
  intro id inside
  exact perm.mem_iff.mpr (by simpa using inside)

/-- One more subroutine. -/
theorem Underway.insert (underway : Underway before graphs) {graph : RoutineGraph}
    (inside : id < before.program.subroutines.size) (lowered : Known after.referenced graph)
    (declared : AllDeclared after) (same : before.program.SameDeclarations after.program)
    (more : ∀ other ∈ before.referenced, other ∈ after.referenced) :
    Underway after (Keyed.insert (.subroutine id) graph graphs) where
  lowered entry member := by
    rcases Keyed.mem_of_mem_insert member with rfl | old
    · exact lowered
    · exact (underway.lowered entry old).mono more
  declared := declared
  known other otherGraph member := by
    rw [same.size]
    rcases Keyed.mem_of_mem_insert member with new | old
    · cases new
      exact inside
    · exact underway.known other otherGraph old
  ordered := underway.ordered.insert graph

theorem clean_lowerReferenced {count : Nat} (underway : Underway before graphs)
    (catalog : before.program.BodiesHave fun body => body.isCatalog = true)
    (enough : before.program.subroutines.size < count + graphs.length) :
    Ensures (lowerReferenced count graphs) before (fun result after =>
      Underway after result ∧ ∀ id ∈ after.referenced, .subroutine id ∈ result.map Prod.fst)
      Refused := by
  induction count generalizing graphs before with
  | zero =>
    have full := underway.complete (by simpa using enough)
    exact ensures_pure ⟨underway, fun id member => full id (underway.declared id member)⟩
  | succ count ih =>
    refine ensures_get ?_
    split
    next complete =>
      refine ensures_pure ⟨underway, fun id member => ?_⟩
      have present := List.find?_eq_none.mp complete id member
      exact Keyed.mem_keys_iff.mpr (by simpa using present)
    next id found =>
      have missing : graphs.lookup (.subroutine id) = none := by
        simpa using List.find?_some found
      have inside := underway.declared id (List.mem_of_find?_eq_some found)
      refine (clean_lowerSubroutine catalog underway.declared inside).bind
        fun graph middle known => ?_
      obtain ⟨lowered, declared, same, keeps, more⟩ := known
      refine ih (underway.insert inside lowered declared same more) keeps ?_
      rw [same.size, Keyed.length_insert missing]
      omega

/-- Lowering a program of the catalog fails for no reason of its own. -/
theorem clean_lowerRoutines {main : Expr} (mainCatalog : main.isCatalog = true)
    (catalog : before.program.BodiesHave fun body => body.isCatalog = true)
    (declared : AllDeclared before) :
    Ensures (lowerRoutines main) before (fun result after =>
      Underway after result ∧ ∀ id ∈ after.referenced, .subroutine id ∈ result.map Prod.fst)
      Refused := by
  refine (clean_lowerMain mainCatalog declared).bind fun graph middle known => ?_
  obtain ⟨lowered, declared, program⟩ := known
  refine ensures_get ?_
  refine clean_lowerReferenced ⟨by simpa using lowered, declared, by simp,
    List.pairwise_singleton _ _⟩ (program ▸ catalog) ?_
  exact Nat.lt_succ_self _

end Compile

end ContractBackend
