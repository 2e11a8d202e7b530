import ContractBackend.Proofs.FlatCode.Cutting
import ContractBackend.Proofs.Graph.Ordering
import ContractBackend.Proofs.Gauge.Routines
import ContractBackend.Proofs.Optimize.Records
import ContractBackend.Proofs.Slots.Locals

/-!
# How compilation fails

The stages behind lowering fail for what is wrong with the program, and never because a stage
does not find what an earlier one should have left for it.
-/

namespace ContractBackend

variable {α β : Type} {flat : FlatCode} {instr : Instr} {slots : SlotAssignment} {share : Bool}
  {version : Version}

/-- A computation succeeds, or fails without a defect. -/
def Blameless (step : Except CompileError α) : Prop :=
  ∀ cause, step = .error cause → cause.isDefect = false

namespace Blameless

theorem ok (value : α) : Blameless (.ok value) := nofun

theorem of_exists {step : Except CompileError α} (succeeds : ∃ value, step = .ok value) :
    Blameless step := by
  obtain ⟨value, rfl⟩ := succeeds
  exact ok value

theorem error {cause : CompileError} (clean : cause.isDefect = false) :
    Blameless (.error cause : Except CompileError α) := by
  rintro _ ⟨⟩
  exact clean

theorem bind {first : Except CompileError α} {rest : α → Except CompileError β}
    (start : Blameless first) (behind : ∀ value, first = .ok value → Blameless (rest value)) :
    Blameless (first >>= rest) := by
  cases first with
  | error cause => exact error (start cause rfl)
  | ok value => exact behind value rfl

theorem mapM {elements : List α} {image : α → Except CompileError β}
    (each : ∀ element ∈ elements, Blameless (image element)) : Blameless (elements.mapM image) := by
  induction elements with
  | nil => exact ok _
  | cons head tail ih =>
    rw [List.mapM_cons]
    rw [List.forall_mem_cons] at each
    exact each.1.bind fun _ _ => (ih each.2).bind fun _ _ => ok _

theorem forM {elements : List α} {check : α → Except CompileError Unit}
    (each : ∀ element ∈ elements, Blameless (check element)) :
    Blameless (elements.forM check) := by
  induction elements with
  | nil => exact ok _
  | cons head tail ih =>
    rw [List.forall_mem_cons] at each
    exact each.1.bind fun _ _ => ih each.2

end Blameless

/-! ## Cells -/

namespace SlotAssignment

theorem blameless_reserve (slots : List Slot) (entries : List (Slot × Cell)) :
    Blameless (reserve slots entries) := by
  induction slots generalizing entries with
  | nil => exact .ok _
  | cons slot rest ih =>
    rw [reserve]
    split
    next => exact ih _
    next =>
      split
      next => exact .error rfl
      next => exact ih _

theorem blameless_take (count : Nat) (free : List Cell) : Blameless (take count free) := by
  rw [take]
  split
  next => exact .ok _
  next => exact .error rfl

theorem blameless_assignGroups (sharing : List (SubroutineId × List Slot))
    (groups : List SharingGroup) (free : List Cell) :
    Blameless (assignGroups sharing groups free) := by
  induction groups generalizing free with
  | nil => exact .ok _
  | cons group rest ih =>
    exact (blameless_take _ _).bind fun taken _ => (ih taken.2).bind fun _ _ => .ok _

theorem blameless_assign (usage : SlotUsage) (graph : CallGraph) (share : Bool) :
    Blameless (assign usage graph share) :=
  (blameless_reserve _ _).bind fun _ _ => (blameless_take _ _).bind fun taken _ =>
    (blameless_assignGroups _ _ taken.2).bind fun _ _ => .ok _

end SlotAssignment

/-! ## Saved slots -/

theorem Program.exists_subroutine {program : Program} {id : SubroutineId}
    (declared : id < program.subroutines.size) :
    ∃ subroutine, program.subroutine id = .ok subroutine :=
  ⟨program.subroutines[id], subroutine_eq_ok.mpr (Array.getElem?_eq_getElem declared)⟩

namespace Spill

variable {program : Program} {graph : CallGraph} {version : Version} {routine : Routine}
  {slots : List Slot}

theorem blameless_sink (depth : Nat) (fault : ProgramFault) :
    Blameless (sink depth version fault) := by
  rw [sink]
  repeat' split
  all_goals first | exact .ok _ | exact .error rfl

theorem blameless_sequence (call : Instr) (argCount : Nat) (returnsValue : Bool) :
    Blameless (sequence call slots argCount returnsValue version) := by
  refine .bind (.mapM fun slot _ => (blameless_sink _ _).bind fun _ _ => .ok _) fun saves _ => ?_
  cases returnsValue with
  | false => exact .ok _
  | true => exact (blameless_sink _ _).bind fun _ _ => .ok _

/-- The code calls declared subroutines only. -/
def CallsDeclared (program : Program) (flat : FlatCode) : Prop :=
  ∀ instr, .instr instr ∈ flat → ∀ callee, CallGraph.callee? instr = some callee →
    callee < program.subroutines.size

theorem blameless_code (calls : CallsDeclared program flat) :
    Blameless (code program graph version routine slots flat) := by
  induction flat with
  | nil => exact .ok _
  | cons item rest ih =>
    have behind := ih fun instr member => calls instr (List.mem_cons_of_mem _ member)
    rw [code]
    split
    next => exact behind.bind fun _ _ => .ok _
    next call callee found =>
      obtain ⟨rfl, called, _⟩ := reentered?_eq_some.mp found
      have declared := calls call List.mem_cons_self callee called
      exact .bind (.of_exists (Program.exists_subroutine declared)) fun _ _ =>
        (blameless_sequence _ _ _).bind fun _ _ => behind.bind fun _ _ => .ok _

theorem blameless_routines {locals : RoutineTable (List Slot)} {table : RoutineTable FlatCode}
    (calls : ∀ entry ∈ table, CallsDeclared program entry.2) :
    Blameless (routines program graph version locals table) := by
  induction table with
  | nil => exact .ok _
  | cons head rest ih =>
    rw [List.forall_mem_cons] at calls
    rw [routines_cons]
    refine .bind ?_ fun _ _ => (ih calls.2).bind fun _ _ => .ok _
    rw [ownCode]
    split
    next => exact .ok _
    next => exact blameless_code calls.1

end Spill

/-! ## Linking -/

/-- What an operand stands for is to be found. -/
def Operand.Findable (slots : SlotAssignment) (ids : List SubroutineId) : Operand → Prop
  | .slot accessed | .slotIndex accessed => ∃ cell, slots.cell? accessed = some cell
  | .subroutine id => id ∈ ids
  | _ => True

/-- What the operands of an instruction stand for is to be found. -/
def Instr.Findable (slots : SlotAssignment) (ids : List SubroutineId) (instr : Instr) : Prop :=
  ∀ operand ∈ instr.operands, operand.Findable slots ids

namespace Link

variable {program : Program} {slots : SlotAssignment} {version : Version}
  {routines : RoutineTable FlatCode} {ids : List SubroutineId}

theorem exists_labels (declared : ∀ id ∈ ids, id < program.subroutines.size) :
    ∃ named, labels program ids = .ok named := by
  obtain ⟨entries, isOk⟩ : ∃ entries, (ids.zipIdx.mapM fun entry => do
      let subroutine ← program.subroutine entry.1
      pure (entry.1, s!"{sanitize subroutine.handle.name}_{entry.2}")) = .ok entries := by
    refine Fallible.exists_mapM_eq_ok fun entry member => ?_
    obtain ⟨subroutine, found⟩ := Program.exists_subroutine
      (declared entry.1 (List.fst_mem_of_mem_zipIdx member))
    exact ⟨_, by rw [found]; rfl⟩
  exact ⟨Keyed.ofList entries, by rw [labels, isOk]; rfl⟩

variable {named : List (SubroutineId × String)}
  (labelled : ∀ id, (named.lookup id).isSome ↔ id ∈ ids)
include labelled

theorem exists_operand {operand : Operand} (findable : operand.Findable slots ids)
    (scope : String) : ∃ argument, Resolver.operand ⟨slots, named⟩ scope operand = .ok argument := by
  cases operand with
  | slot | slotIndex =>
    obtain ⟨cell, found⟩ := findable
    exact ⟨_, by simp only [Resolver.operand, found]; rfl⟩
  | subroutine id =>
    obtain ⟨name, found⟩ := Option.isSome_iff_exists.mp ((labelled id).mpr findable)
    exact ⟨_, by simp only [Resolver.operand, found]; rfl⟩
  | _ => exact ⟨_, rfl⟩

theorem exists_code (findable : ∀ instr, .instr instr ∈ flat → instr.Findable slots ids)
    (scope : String) :
    ∃ lines, Resolver.code ⟨slots, named⟩ scope flat = .ok lines := by
  refine Fallible.exists_mapM_eq_ok fun item member => ?_
  cases item with
  | label => exact ⟨_, rfl⟩
  | instr instr =>
    obtain ⟨arguments, isOk⟩ := Fallible.exists_mapM_eq_ok fun operand isOperand =>
      exists_operand labelled (findable instr member operand isOperand) scope
    exact ⟨.instr instr.op arguments, by simp only [Resolver.item, isOk]; rfl⟩

theorem exists_subroutine (findable : ∀ instr, .instr instr ∈ flat → instr.Findable slots ids)
    (name label : String) :
    ∃ lines, Resolver.subroutine ⟨slots, named⟩ name label flat = .ok lines := by
  obtain ⟨lines, isOk⟩ := exists_code labelled findable s!"{label}_"
  exact ⟨.label label (some name) :: lines, by rw [Resolver.subroutine, isOk]; rfl⟩

omit labelled in
/-- Routines whose operands stand for something can be linked. -/
theorem exists_link (main : .main ∈ routines.map Prod.fst)
    (declared : ∀ id, .subroutine id ∈ routines.map Prod.fst → id < program.subroutines.size)
    (findable : ∀ entry ∈ routines, ∀ instr, .instr instr ∈ entry.2 →
      instr.Findable slots ((subroutines routines).map Prod.fst)) :
    ∃ assembly, link program slots version routines = .ok assembly := by
  obtain ⟨named, isNamed⟩ := @exists_labels program ((subroutines routines).map Prod.fst)
    fun id member => declared id (mem_subroutines.mp member)
  obtain ⟨_, labelled⟩ := of_labels isNamed
  obtain ⟨code, isMain⟩ := Option.ne_none_iff_exists'.mp (Keyed.mem_keys_iff.mp main)
  obtain ⟨mainLines, mainOk⟩ :=
    exists_code labelled (findable _ (mem_of_lookup isMain)) "main_"
  obtain ⟨subLines, subsOk⟩ : ∃ subLines, ((subroutines routines).mapM fun entry => do
      let name := (← program.subroutine entry.1).handle.name
      Resolver.subroutine ⟨slots, named⟩ name ((named.lookup entry.1).getD "") entry.2) =
        .ok subLines := by
    refine Fallible.exists_mapM_eq_ok fun entry member => ?_
    obtain ⟨⟨routine, flat⟩, isEntry, same⟩ := List.mem_filterMap.mp member
    obtain ⟨id, isSub, rfl⟩ := Option.map_eq_some_iff.mp same
    obtain ⟨subroutine, found⟩ := Program.exists_subroutine (declared id (mem_subroutines.mp
      (List.mem_map_of_mem member)))
    obtain ⟨lines, isOk⟩ := exists_subroutine labelled (findable _ isEntry) subroutine.handle.name
      ((named.lookup id).getD "")
    exact ⟨lines, by rw [found, Fallible.ok_bind, isOk]⟩
  exact ⟨⟨version, mainLines ++ subLines.flatten⟩, by
    simp only [link, isNamed, Fallible.ok_bind, isMain, mainOk, subsOk]; rfl⟩

end Link

/-! ## Layout -/

namespace Graph

variable {gauge : Gauge α} {level : α} {property : Instr → Prop} {graph : Graph} {entry : BlockId}

theorem Workable.exists_laid (workable : graph.Workable entry gauge level property) :
    ∃ order placed, graph.order entry = .ok order ∧ graph.flatten order = .ok (graph.listing placed) ∧
      graph.Laid entry order placed := by
  obtain ⟨order, ordered⟩ := workable.isExact.exists_order
  have flowing : graph.Flowing entry := .of_safe workable.safe
  have lists : graph.Lists entry order := .of_order flowing.toValid ordered
  obtain ⟨placed, isPlaced⟩ := exists_place flowing lists
  exact ⟨order, placed, ordered, flatten_eq_ok.mpr ⟨placed, isPlaced, rfl⟩,
    ⟨flowing, lists, isPlaced⟩⟩

end Graph

/-- The code of a routine falls into stretches and refers to some subroutines only. -/
structure FlatCode.WellFormed (ids : List SubroutineId) (code : FlatCode) : Prop where
  stretches : ∃ stretches, code.stretches = .ok stretches
  known : ∀ instr, .instr instr ∈ code → ∀ id, .subroutine id ∈ instr.operands → id ∈ ids

theorem Graph.Workable.wellFormed {ids : List SubroutineId} {graph : Graph} {entry : BlockId}
    {gauge : Gauge α} {level : α}
    (workable : graph.Workable entry gauge level (Instr.Knows ids)) {order : List BlockId}
    {placed : List Placed} (laid : graph.Laid entry order placed) :
    (graph.listing placed).WellFormed ids where
  stretches := laid.connected.exists_stretches
  known instr member id isOperand := by
    obtain ⟨_, block, _, _, inBlock | ⟨branch, _, rfl⟩⟩ := mem_listing member
    · exact (workable.every block instr inBlock).operands _ isOperand
    · simp [Branch.instr, Instr.branch] at isOperand

theorem CallGraph.mem_of_callee? {id : SubroutineId} (called : callee? instr = some id) :
    .subroutine id ∈ instr.operands := by
  rw [callee?] at called
  split at called
  next =>
    obtain ⟨operand, member, isSub⟩ := List.exists_of_findSome?_eq_some called
    cases operand with
    | subroutine other =>
      cases isSub
      exact member
    | _ => cases isSub
  next => cases called

/-! ## The stages behind lowering -/

namespace Compile

open Lowering (Yields outcome)

variable {program declared : Program} {ids : List SubroutineId} {options : CompileOptions}
  {graphs : RoutineTable RoutineGraph} {flat spilled : RoutineTable FlatCode}

/-- A routine that the stages behind lowering can work with. -/
def WorkableRoutine (declared : Program) (ids : List SubroutineId)
    (entry : Routine × RoutineGraph) : Prop :=
  entry.2.graph.Workable entry.2.entry (declared.gauge .regular entry.1) none (Instr.Knows ids)

/-- Improvements keep the routines in order. -/
theorem workable_optimize (options : CompileOptions)
    (each : ∀ entry ∈ graphs, WorkableRoutine declared ids entry) :
    ∀ entry ∈ optimize options graphs, WorkableRoutine declared ids entry := by
  have duplicates : Instr.Knows ids ⟨.dup, []⟩ ∧ Instr.Knows ids ⟨.dup2, []⟩ :=
    ⟨⟨rfl, nofun⟩, ⟨rfl, nofun⟩⟩
  refine optimize_keeps ?_ ?_ each
  · exact fun entry workable =>
      Graph.Workable.dedupe workable (Dialect.complete_regular.dup _) duplicates _
  · exact fun entry pinned workable => Graph.Workable.elide workable pinned

/-- Every routine can be laid out, and what it is laid out as falls into stretches again. -/
theorem WorkableRoutine.exists_flat {entry : Routine × RoutineGraph}
    (workable : WorkableRoutine declared ids entry) :
    ∃ order code, entry.2.graph.order entry.2.entry = .ok order ∧
      entry.2.graph.flatten order = .ok code ∧ code.WellFormed ids := by
  obtain ⟨order, placed, ordered, flattened, laid⟩ := Graph.Workable.exists_laid workable
  exact ⟨order, _, ordered, flattened, Graph.Workable.wellFormed workable laid⟩

theorem WorkableRoutine.flatten {entry : Routine × RoutineGraph}
    (workable : WorkableRoutine declared ids entry) :
    ∃ code, entry.2.flatten = .ok code ∧ code.WellFormed ids := by
  obtain ⟨order, code, ordered, flattened, wellFormed⟩ := workable.exists_flat
  refine ⟨code, ?_, wellFormed⟩
  rw [RoutineGraph.flatten, ordered]
  exact flattened

theorem blameless_verifyInstr (routine : String) (instr : Instr) :
    Blameless (verifyInstr options routine instr) := by
  rw [verifyInstr]
  repeat' split
  all_goals first | exact .ok _ | exact .error rfl

theorem blameless_flatten (each : ∀ entry ∈ graphs, WorkableRoutine declared ids entry) :
    Blameless (flatten program options graphs) := by
  refine .mapM fun entry member => ?_
  obtain ⟨code, isOk, _⟩ := (each entry member).flatten
  exact .bind (.of_exists ⟨code, isOk⟩) fun _ _ =>
    .bind (.forM fun _ _ => blameless_verifyInstr _ _) fun _ _ => .ok _

/-- What is known of the routines between layout and linking. -/
structure Shipped (program : Program) (flat : RoutineTable FlatCode) : Prop where
  main : .main ∈ flat.map Prod.fst
  declared : ∀ id, .subroutine id ∈ flat.map Prod.fst → id < program.subroutines.size
  wellFormed : ∀ entry ∈ flat, entry.2.WellFormed ((Link.subroutines flat).map Prod.fst)

theorem shipped_of_flatten (main : .main ∈ graphs.map Prod.fst)
    (isDeclared : ∀ id, .subroutine id ∈ graphs.map Prod.fst → id < program.subroutines.size)
    (complete : ∀ id ∈ ids, .subroutine id ∈ graphs.map Prod.fst)
    (each : ∀ entry ∈ graphs, WorkableRoutine declared ids entry)
    (flattened : flatten program options graphs = .ok flat) : Shipped program flat := by
  have keys := keys_flatten flattened
  refine ⟨keys ▸ main, keys ▸ isDeclared, fun entry member => ?_⟩
  obtain ⟨routine, isRoutine, _, isOk⟩ :=
    Fallible.exists_related_of_mem (of_flatten flattened) member
  obtain ⟨code, isCode, wellFormed⟩ := (each routine isRoutine).flatten
  rw [← Except.ok.inj (isCode.symm.trans isOk)]
  refine ⟨wellFormed.stretches, fun instr isInstr id isOperand => ?_⟩
  rw [Link.mem_subroutines, keys]
  exact complete id (wellFormed.known instr isInstr id isOperand)

namespace Shipped

theorem callsDeclared (shipped : Shipped program flat) :
    ∀ entry ∈ flat, Spill.CallsDeclared program entry.2 := by
  intro entry member instr isInstr callee called
  exact shipped.declared callee (Link.mem_subroutines.mp ((shipped.wellFormed entry member).known
    instr isInstr callee (CallGraph.mem_of_callee? called)))

theorem blameless_check (shipped : Shipped program flat) {entry : Routine × FlatCode}
    (member : entry ∈ flat) (name : String) (checked : List Slot) :
    Blameless (SlotInit.check name entry.2 checked) := by
  obtain ⟨stretches, isOk⟩ := (shipped.wellFormed entry member).stretches
  rw [SlotInit.check]
  split
  next => exact .ok _
  next =>
    rw [isOk, Fallible.ok_bind]
    split
    next => exact .error rfl
    next => exact .ok _

theorem findable (shipped : Shipped program flat)
    (assigned : SlotAssignment.assign (.ofRoutines flat) (.ofRoutines flat) share = .ok slots)
    {entry : Routine × FlatCode} (member : entry ∈ flat) (isInstr : .instr instr ∈ entry.2) :
    instr.Findable slots ((Link.subroutines flat).map Prod.fst) := by
  have mentioned : ∀ slot ∈ instr.slots, ∃ cell, slots.cell? slot = some cell := by
    intro slot isSlot
    refine SlotAssignment.exists_cell assigned (SlotUsage.mem_all.mpr ⟨_, List.mem_map_of_mem member,
      Ascending.mem_ofList.mpr (List.mem_flatMap.mpr ⟨instr, ?_, isSlot⟩)⟩)
    exact FlatCode.mem_instrs.mpr isInstr
  intro operand isOperand
  cases operand with
  | slot accessed | slotIndex accessed =>
    exact mentioned accessed (List.mem_filterMap.mpr ⟨_, isOperand, rfl⟩)
  | subroutine id => exact (shipped.wellFormed entry member).known instr isInstr id isOperand
  | _ => trivial

/-- The operands of the instructions that save slots stand for cells, too. -/
theorem findable_of_inserted {routine : Routine}
    (assigned : SlotAssignment.assign (.ofRoutines flat) (.ofRoutines flat) share = .ok slots)
    {argCount : Nat} {returnsValue : Bool}
    (inserted : Spill.Inserted (((SlotUsage.ofRoutines flat).locals.lookup routine).getD [])
      argCount returnsValue version instr)
    (ids : List SubroutineId) : instr.Findable slots ids := by
  have saved : ∀ slot ∈ ((SlotUsage.ofRoutines flat).locals.lookup routine).getD [],
      ∃ cell, slots.cell? slot = some cell := by
    intro slot isLocal
    obtain ⟨listed, member, isSlot⟩ :=
      SlotUsage.mem_perRoutine_of_slotsOf (SlotUsage.mem_locals.mp isLocal).1
    exact SlotAssignment.exists_cell assigned (SlotUsage.mem_all.mpr ⟨_, member, isSlot⟩)
  intro operand isOperand
  cases inserted with
  | load isLocal | store isLocal =>
    rw [List.mem_singleton.mp isOperand]
    exact saved _ isLocal
  | cover =>
    rw [List.mem_singleton.mp isOperand]
    trivial
  | swap => cases isOperand

/-- Once every slot has its cell, the code can be linked. -/
theorem exists_link (shipped : Shipped program flat) {sites : Nat}
    (assigned : SlotAssignment.assign (.ofRoutines flat) (.ofRoutines flat) share = .ok slots)
    (isSpilled : Spill.routines program (.ofRoutines flat) version
      (SlotUsage.ofRoutines flat).locals flat = .ok (spilled, sites)) :
    ∃ assembly, Link.link program slots version spilled = .ok assembly := by
  obtain ⟨isSpilled, _⟩ := Spill.routines_eq_ok isSpilled
  have keys : spilled.map Prod.fst = flat.map Prod.fst := by
    rw [isSpilled, List.map_map]
    rfl
  refine Link.exists_link (keys ▸ shipped.main) (keys ▸ shipped.declared) ?_
  rw [Link.map_fst_subroutines, keys, ← Link.map_fst_subroutines]
  intro entry member instr isInstr
  rw [isSpilled] at member
  obtain ⟨old, isOld, rfl⟩ := List.mem_map.mp member
  obtain ⟨item, isItem, expanded⟩ := List.mem_flatMap.mp isInstr
  rcases Spill.mem_expand expanded with rfl | ⟨_, _, _, _, _, inserted⟩
  · exact shipped.findable assigned isOld isItem
  · exact findable_of_inserted assigned inserted _

theorem blameless_assemble (shipped : Shipped program flat) (options : CompileOptions) :
    Blameless (assemble program options flat) := by
  refine .bind (.forM fun entry member => shipped.blameless_check member _ _) fun _ _ => ?_
  refine .bind (SlotAssignment.blameless_assign _ _ _) fun slots assigned => ?_
  refine .bind (Spill.blameless_routines shipped.callsDeclared) fun spilled isSpilled => ?_
  exact .of_exists (shipped.exists_link assigned isSpilled)

end Shipped

end Compile

/-! ## Compilation -/

section Catalog

open Lowering (Yields outcome)

variable {main : Expr} {options : CompileOptions} {before : Program} {context : Context}
  {graphs : RoutineTable RoutineGraph}

/-- What lowering leaves for the stages behind it. -/
structure Handover (before : Program) (context : Context) (graphs : RoutineTable RoutineGraph) :
    Prop where
  main : .main ∈ graphs.map Prod.fst
  declared : ∀ id, .subroutine id ∈ graphs.map Prod.fst → id < context.program.subroutines.size
  complete : ∀ id ∈ context.referenced, .subroutine id ∈ graphs.map Prod.fst
  workable : ∀ entry ∈ graphs, Compile.WorkableRoutine before context.referenced entry

theorem Handover.shipped (handover : Handover before context graphs) {flat : RoutineTable FlatCode}
    (flattened : Compile.flatten context.program options (Compile.optimize options graphs) =
      .ok flat) : Compile.Shipped context.program flat := by
  have keys := Compile.keys_optimize options graphs
  exact Compile.shipped_of_flatten (keys ▸ handover.main) (keys ▸ handover.declared)
    (keys ▸ handover.complete) (Compile.workable_optimize options handover.workable) flattened

theorem Handover.blameless_backend (handover : Handover before context graphs)
    (options : CompileOptions) :
    Blameless (Compile.backend context.program options graphs) := by
  refine .bind (Compile.blameless_flatten (Compile.workable_optimize options handover.workable))
    fun flat flattened => ?_
  exact ((handover.shipped flattened).blameless_assemble options).bind fun _ _ => .ok _

variable (catalog : main.isCatalog = true)
  (bodies : before.BodiesHave fun body => body.isCatalog = true)
include catalog bodies

theorem clean_lowerRoutines (version : Version) :
    Lowering.Ensures (Compile.lowerRoutines main) { program := before, version }
      (fun graphs context => Compile.Underway context graphs ∧
        ∀ id ∈ context.referenced, .subroutine id ∈ graphs.map Prod.fst) Compile.Refused :=
  Compile.clean_lowerRoutines catalog bodies nofun

theorem handover_of_lowerRoutines
    (lowered : Yields (Compile.lowerRoutines main) { program := before, version } graphs context) :
    Handover before context graphs := by
  obtain ⟨underway, complete⟩ := (clean_lowerRoutines catalog bodies version).of_outcome lowered
  obtain ⟨routines, _⟩ := Compile.routines_of_lowerRoutines
    Dialect.complete_regular.toClosed
    (Expr.fits_regular catalog true) (by rintro _ ⟨⟩)
    (bodies.mono fun _ isCatalog => Expr.fits_regular isCatalog false) lowered
  refine ⟨(Compile.ordered_of_lowerRoutines lowered).2, fun id member => ?_, complete,
    fun entry member => ?_⟩
  · obtain ⟨⟨_, graph⟩, isEntry, rfl⟩ := List.mem_map.mp member
    exact underway.known id graph isEntry
  · have known := underway.lowered entry member
    exact ⟨routines entry member, known.isExact, known.knows⟩

/-- A program of the catalog is refused only for what is wrong with it. Each stage finds what it
needs: the graphs of all routines are valid, they can be ordered and laid out, the layout falls into
stretches again, and linking finds a cell for every slot and a label for every subroutine. -/
theorem refused_without_defect :
    (∀ cause after, (compile main options).run before = (.error cause, after) →
      cause.isDefect = false) ∧
    ∀ graphs context, Yields (Compile.lowerRoutines main)
        { program := before, version := options.version } graphs context →
      (∀ entry ∈ graphs, entry.2.graph.validate entry.2.entry = .ok ()) ∧
      (∀ entry ∈ Compile.optimize options graphs, ∃ order code stretches,
        entry.2.graph.order entry.2.entry = .ok order ∧ entry.2.graph.flatten order = .ok code ∧
          code.stretches = .ok stretches) ∧
      ∀ flat slots spilled sites,
        Compile.flatten context.program options (Compile.optimize options graphs) = .ok flat →
        SlotAssignment.assign (.ofRoutines flat) (.ofRoutines flat) options.optimize.share =
          .ok slots →
        Spill.routines context.program (.ofRoutines flat) options.version
          (SlotUsage.ofRoutines flat).locals flat = .ok (spilled, sites) →
        ∃ assembly, Link.link context.program slots options.version spilled = .ok assembly := by
  refine ⟨fun cause after fails => ?_, fun graphs context lowered => ?_⟩
  · rw [compile, Build.run_compileFrom] at fails
    split at fails
    next unsupported =>
      cases fails
      rw [CompileOptions.validate] at unsupported
      split at unsupported <;> cases unsupported
      rfl
    next =>
      have clean := clean_lowerRoutines catalog bodies options.version
      rw [Lowering.Ensures] at clean
      split at fails
      next isOutcome =>
        cases fails
        rwa [isOutcome] at clean
      next graphs context lowered =>
        obtain ⟨failed, _⟩ := Prod.mk.inj fails
        exact (handover_of_lowerRoutines catalog bodies lowered).blameless_backend options _ failed
  · have handover := handover_of_lowerRoutines catalog bodies lowered
    refine ⟨fun entry member => (handover.workable entry member).isExact.validate,
      fun entry member => ?_, fun flat slots spilled sites flattened assigned isSpilled =>
        (handover.shipped flattened).exists_link assigned isSpilled⟩
    obtain ⟨order, code, ordered, flattened, wellFormed⟩ :=
      (Compile.workable_optimize options handover.workable entry member).exists_flat
    obtain ⟨stretches, isOk⟩ := wellFormed.stretches
    exact ⟨order, code, stretches, ordered, flattened, isOk⟩

end Catalog

/-- Calls are too new for the version. -/
theorem refused_without_defect_factorial :
    factorialMain.isCatalog = true ∧
      factorialProgram.BodiesHave (fun body => body.isCatalog = true) ∧
      ∃ cause after, (compile factorialMain { version := 3 }).run factorialProgram =
        (.error cause, after) ∧ cause.isDefect = false := by
  have catalog : factorialMain.isCatalog = true := rfl
  have bodies : factorialProgram.BodiesHave fun body => body.isCatalog = true :=
    bodies_factorialProgram rfl
  have refused : ((compile factorialMain { version := 3 }).run
      factorialProgram).1.toOption.isNone := by
    decide +kernel
  refine ⟨catalog, bodies, ?_⟩
  rcases compiled : (compile factorialMain { version := 3 }).run factorialProgram with
    ⟨cause | artifact, after⟩
  · exact ⟨cause, after, rfl, (refused_without_defect catalog bodies).1 cause after compiled⟩
  · simp [compiled, Except.toOption] at refused

end ContractBackend
