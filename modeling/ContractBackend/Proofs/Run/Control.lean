import ContractBackend.Proofs.Gauge.Spilling
import ContractBackend.Proofs.Machine.Steps

/-!
# Where control goes in a run

A run of the listing of a compiled program, in terms of the code of its routines: at a safe
place of a routine, the next instruction is the one that stands there, and control goes on
within the routine, enters another one at its first line, or returns.
-/

namespace ContractBackend

open Machine (State Limits Environment Memory Flow)

namespace Opcode

variable {op : Opcode}

theorem Flows.eq_back {flow : Flow} (flows : op.Flows flow) (exits : op.isExit = true)
    (running : ∀ approved, flow ≠ .halt approved) : op = .retsub ∧ flow = .back := by
  cases op with
  | retsub => exact ⟨rfl, flows⟩
  | err => exact flows.elim
  | ret =>
    obtain ⟨approved, isHalt⟩ := flows
    exact absurd isHalt (running approved)
  | _ => cases exits

theorem Flows.of_next (flows : op.Flows .next) : op.isExit = false ∧ op ≠ .callsub ∧ op ≠ .b := by
  cases op <;> simp_all [Opcode.Flows, Opcode.isExit]

theorem Flows.isBranch (flows : op.Flows .jump) : op.isBranch = true := by
  cases op <;> first | rfl | simp [Opcode.Flows] at flows

theorem Flows.eq_callsub (flows : op.Flows .call) : op = .callsub := by
  cases op <;> first | rfl | simp [Opcode.Flows] at flows

theorem Flows.eq_retsub (flows : op.Flows .back) : op = .retsub := by
  cases op <;> first | rfl | simp [Opcode.Flows] at flows

end Opcode

namespace Instr

/-- Whether the instruction names the slot that it stores to, the subroutine that it calls or the
label that it branches to. -/
def isNamed (instr : Instr) : Bool :=
  match instr.op with
  | .store => (instr.operands.head?.bind Operand.slot?).isSome
  | .callsub => (instr.operands.head?.bind Operand.subroutine?).isSome
  | .b | .bnz | .bz => (instr.operands.head?.bind Operand.label?).isSome
  | _ => true

theorem isNamed_of_isTidy {instr : Instr} (tidy : instr.isTidy = true) : instr.isNamed = true := by
  rw [isTidy] at tidy
  rw [isNamed]
  cases op : instr.op <;> simp_all [Opcode.isBranch]

/-- A call that is named is one of a subroutine. -/
theorem exists_callee {instr : Instr} (named : instr.isNamed = true) (isCall : instr.op = .callsub) :
    ∃ id others, instr.operands = .subroutine id :: others ∧
      CallGraph.callee? instr = some id := by
  obtain ⟨op, operands⟩ := instr
  cases isCall
  match operands, named with
  | .subroutine id :: others, _ => exact ⟨id, others, rfl, rfl⟩

/-- A branch that is named is one to a label. -/
theorem exists_label {instr : Instr} (named : instr.isNamed = true)
    (branches : instr.op.isBranch = true) :
    ∃ label others, instr.operands = .label label :: others := by
  obtain ⟨op, operands⟩ := instr
  have labelled : (operands.head?.bind Operand.label?).isSome = true := by
    cases op <;> first | exact named | cases branches
  match operands, labelled with
  | .label label :: others, _ => exact ⟨label, others, rfl⟩

/-- Tidy loads and stores name their slot. -/
theorem exists_slot {instr : Instr} (tidy : instr.isTidy = true)
    (access : instr.op = .load ∨ instr.op = .store) :
    ∃ slot others, instr.operands = .slot slot :: others := by
  apply exists_slot_of_head
  rcases access with op | op <;> simpa [isTidy, op] using tidy

/-- An immediate is there once it is resolved. -/
theorem suits_of_hasImmediate {instr : Instr} {resolver : Link.Resolver} {scope : String}
    {arguments : List Argument} (has : instr.hasImmediate = true)
    (resolved : instr.operands.mapM (resolver.operand scope) = .ok arguments) :
    instr.op.suits arguments = true := by
  obtain ⟨op, operands⟩ := instr
  rw [hasImmediate] at has
  rw [Opcode.suits]
  cases operands with
  | nil => cases kind : op.immediate <;> simp_all [Opcode.Immediate.begins]
  | cons operand rest =>
    simp only [List.mapM_cons, Fallible.bind_eq_ok, Fallible.pure_eq_ok] at resolved
    obtain ⟨argument, isArgument, others, _, rfl⟩ := resolved
    cases operand with
    | slot slot | slotIndex slot =>
      simp only [Link.Resolver.operand] at isArgument
      split at isArgument <;> cases isArgument
      cases kind : op.immediate <;>
        simp_all [Opcode.Immediate.begins, Operand.isLiteral, Operand.isName]
    | subroutine id =>
      cases kind : op.immediate <;>
        simp_all [Opcode.Immediate.begins, Operand.isNumber, Operand.isLiteral, Operand.isName]
    | uint | bytes | text | name | label =>
      cases isArgument
      cases kind : op.immediate <;>
        simp_all [Opcode.Immediate.begins, Operand.isNumber, Operand.isLiteral, Operand.isName]

end Instr

/-- Jumps, calls and returns leave the memory as it is. -/
theorem Machine.memory_of_execute {limits : Limits} {env : Environment} {line : Nat}
    {arguments : List Argument} {memory after : Memory} {flow : Flow}
    (control : op = .b ∨ op = .callsub ∨ op = .retsub)
    (isOk : execute limits env ⟨op, line⟩ arguments memory = .ok (flow, after)) :
    after = memory := by
  rcases control with rfl | rfl | rfl <;> cases isOk <;> rfl

namespace Build

variable {α : Type} {main : Expr} {options : CompileOptions} {before : Program}

/-- Labels are not scoped before linking. -/
theorem unscoped_flat (build : Build main options before) {routine : Routine} {flat : FlatCode}
    (isFlat : build.flat.lookup routine = some flat) {label : Label} (member : .label label ∈ flat) :
    label.scope = "" := by
  obtain ⟨_, _, _, made⟩ :=
    Fallible.exists_related_of_mem (Compile.of_flatten build.flattened) (mem_of_lookup isFlat)
  simp only [RoutineGraph.flatten, Fallible.bind_eq_ok, Graph.flatten_eq_ok] at made
  obtain ⟨_, _, placed, _, rfl⟩ := made
  obtain ⟨position, here⟩ := List.mem_iff_getElem?.mp member
  obtain ⟨_, _, _, rfl, _⟩ := Graph.eq_startOf_of_listing_label here
  rfl

theorem unscoped (build : Build main options before) {routine : Routine}
    {code : List Link.Element} (found : build.table.lookup routine = some code) (label : Label)
    (member : .label label ∈ code.map Link.Element.item) : label.scope = "" := by
  rw [lookup_table, Option.map_eq_some_iff] at found
  obtain ⟨flat, isFlat, rfl⟩ := found
  rw [items_elements, List.mem_flatMap] at member
  obtain ⟨item, inFlat, member⟩ := member
  cases item with
  | label other =>
    obtain rfl : label = other := by simpa [Spill.expand_label] using member
    exact build.unscoped_flat isFlat inFlat
  | instr instr => exact absurd member (Spill.not_label_mem_expand instr label)

/-- The code of every routine is safe from its start, and what it may execute is named. -/
structure Certified (build : Build main options before) (gauge : Routine → Gauge α)
    (start : Routine → α) : Prop where
  named : ∀ {routine : Routine} {instr : Instr} {level next : α},
    (gauge routine).move instr level = some next → instr.isNamed = true
  safe : ∀ {routine : Routine} {code : List Link.Element},
    build.table.lookup routine = some code →
      FlatCode.Safe (gauge routine) (code.map Link.Element.item) 0 (start routine)

/-- The code of expressions that fit is safe, whatever has been improved in it and whatever
slots are saved around calls. -/
theorem certified (build : Build main options before) {dialect : Bool → Dialect} {base : Level}
    (complete : Dialect.Complete dialect)
    (tidy : ∀ main instr, (dialect main).admits instr = true → instr.isTidy = true)
    (mainFits : main.Fits true (dialect true) base)
    (fits : before.BodiesHave fun body => body.Fits false (dialect false) base)
    (counted : ∀ height, base = some height → height = 0 ∧ before.IsWellDeclared) :
    build.Certified (before.gauge dialect) fun routine => base.map (· + before.argCount routine) := by
  obtain ⟨routines, same⟩ :=
    Compile.routines_of_lowerRoutines complete.toClosed mainFits counted fits build.lowered
  have improved := routines.optimize complete.toClosed options
  refine ⟨fun moves => Instr.isNamed_of_isTidy (tidy _ _ (admits_of_move moves)),
    fun {routine code} found => ?_⟩
  rw [lookup_table, Option.map_eq_some_iff] at found
  obtain ⟨flat, isFlat, rfl⟩ := found
  have member := mem_of_lookup isFlat
  have safeFlat : flat.Safe (before.gauge dialect routine) 0
      (base.map (· + before.argCount routine)) := improved.flatten build.flattened _ member
  rw [← same.gauge] at safeFlat ⊢
  rw [items_elements]
  exact Spill.safe_flatMap (complete.saves _) (build.becomes _ member) safeFlat

/-- Control is at a safe place of a routine: at its first line or at one of its elements. -/
inductive Stands (build : Build main options before) (gauge : Routine → Gauge α)
    (routine : Routine) (line : Nat) (level : α) : Prop where
  | entry {code : List Link.Element} : build.table.lookup routine = some code →
      line = Link.firstLine build.table routine →
      FlatCode.Safe (gauge routine) (code.map Link.Element.item) 0 level →
      Stands build gauge routine line level
  | inside {code : List Link.Element} {index : Nat} : build.table.lookup routine = some code →
      line = Link.lineOf build.table routine index →
      FlatCode.Safe (gauge routine) (code.map Link.Element.item) index level →
      Stands build gauge routine line level

/-- The instruction that is fetched, in the code of a routine. -/
structure Finds (build : Build main options before) (routine : Routine) (line : Nat)
    (code : List Link.Element) (index : Nat) (instr : Instr) (arguments : List Argument) :
    Prop where
  found : build.table.lookup routine = some code
  here : (code.map Link.Element.item)[index]? = some (.instr instr)
  fetched : build.code.fetch line =
    some (Link.lineOf build.table routine index, instr.op, arguments)
  resolved : instr.operands.mapM (build.resolver.operand (build.resolver.scope routine)) =
    .ok arguments

/-- The instruction that is fetched at a safe place. -/
structure Fetches (build : Build main options before) (gauge : Routine → Gauge α)
    (routine : Routine) (line : Nat) (level : α) (code : List Link.Element) (index : Nat)
    (instr : Instr) (arguments : List Argument) : Prop
    extends build.Finds routine line code index instr arguments where
  passes : FlatCode.Passes (gauge routine) (code.map Link.Element.item)
    (FlatCode.Safe (gauge routine) (code.map Link.Element.item)) index level

variable {build : Build main options before} {gauge : Routine → Gauge α} {start : Routine → α}
  {routine : Routine} {code : List Link.Element} {line index : Nat} {level : α}

theorem lines_code (line : Nat) : build.code.lines[line]? = build.assembly.lines[line]? := by
  simp [Build.code, Machine.Code.ofLines]

/-- Labels are passed over until there is an instruction. -/
theorem exists_fetches_inside (found : build.table.lookup routine = some code)
    (safe : FlatCode.Safe (gauge routine) (code.map Link.Element.item) index level) :
    ∃ position instr arguments, build.Fetches gauge routine
      (Link.lineOf build.table routine index) level code position instr arguments := by
  generalize isCount : code.length - index = count
  induction count generalizing index with
  | zero =>
    obtain ⟨_, here⟩ := safe.exists_item
    have inside := (List.getElem?_eq_some_iff.mp here).1
    rw [List.length_map] at inside
    omega
  | succ count ih =>
    obtain ⟨_ | instr, here⟩ := safe.exists_item
    · have there := build.isListed.lineOf_label found here
      rw [← lines_code] at there
      obtain ⟨position, instr, arguments, fetches⟩ := ih (safe.label here) (by omega)
      have skipped := Machine.Code.fetch_label there
      exact ⟨position, instr, arguments, { fetches with fetched := skipped.trans fetches.fetched }⟩
    · obtain ⟨arguments, resolved, there⟩ := build.isListed.lineOf_instr found here
      rw [← lines_code] at there
      exact ⟨index, instr, arguments, ⟨found, here, Machine.Code.fetch_instr there, resolved⟩,
        safe.passes⟩

/-- At a safe place there is an instruction to be executed. -/
theorem Stands.fetch (stands : build.Stands gauge routine line level) :
    ∃ code index instr arguments,
      build.Fetches gauge routine line level code index instr arguments := by
  cases stands with
  | @inside code index found isLine safe =>
    subst isLine
    exact ⟨code, exists_fetches_inside found safe⟩
  | @entry code found isLine safe =>
    subst isLine
    obtain ⟨position, instr, arguments, fetches⟩ := exists_fetches_inside found safe
    refine ⟨code, position, instr, arguments, { fetches with fetched := ?_ }⟩
    cases routine with
    | main => exact fetches.fetched
    | subroutine id =>
      obtain ⟨label, name, _, there⟩ := build.isListed.exists_label found
      rw [← lines_code] at there
      exact (Machine.Code.fetch_label there).trans fetches.fetched

/-- A step at a safe place that does not end the run. -/
inductive Moves (build : Build main options before) (gauge : Routine → Gauge α)
    (start : Routine → α) (limits : Limits) (env : Environment) (routine : Routine) (level : α)
    (index : Nat) (instr : Instr) (arguments : List Argument) (state next : State) : Prop where
  /-- An instruction that goes on at the next line. -/
  | straight {after : α} : instr.op.isExit = false → instr.op ≠ .callsub →
      (gauge routine).move instr level = some after →
      Machine.execute limits env
        ⟨instr.op, Link.lineOf build.table routine index + 1⟩ arguments state.memory =
          .ok (.next, next.memory) →
      next.frames = state.frames → build.Stands gauge routine next.line after →
      Moves build gauge start limits env routine level index instr arguments state next
  /-- A jump to a label. -/
  | jump : instr.op = .b → next.memory = state.memory → next.frames = state.frames →
      build.Stands gauge routine next.line level →
      Moves build gauge start limits env routine level index instr arguments state next
  /-- A decision. -/
  | branch {after : α} {flow : Flow} : instr.op = .bnz ∨ instr.op = .bz →
      (gauge routine).test level = some after →
      Machine.execute limits env
        ⟨instr.op, Link.lineOf build.table routine index + 1⟩ arguments state.memory =
          .ok (flow, next.memory) →
      next.frames = state.frames → build.Stands gauge routine next.line after →
      Moves build gauge start limits env routine level index instr arguments state next
  /-- A call. -/
  | call {after : α} {id : SubroutineId} : instr.op = .callsub →
      CallGraph.callee? instr = some id → (gauge routine).move instr level = some after →
      next.memory = state.memory → next.line = Link.firstLine build.table (.subroutine id) →
      next.frames = Link.lineOf build.table routine (index + 1) :: state.frames →
      build.Stands gauge (.subroutine id) next.line (start (.subroutine id)) →
      build.Stands gauge routine (Link.lineOf build.table routine (index + 1)) after →
      Moves build gauge start limits env routine level index instr arguments state next
  /-- A return. -/
  | back : instr.op = .retsub → (gauge routine).leave instr level → next.memory = state.memory →
      state.frames = next.line :: next.frames →
      Moves build gauge start limits env routine level index instr arguments state next

section Steps

variable {limits : Limits} {env : Environment} {state next : State} {instr : Instr}
  {arguments : List Argument}

/-- A branch leads to the element with its label. -/
theorem target_of_label {label : Label} {target : Nat} (site : Machine.Site)
    (found : build.table.lookup routine = some code)
    (resolved : (Instr.branch op label).operands.mapM
      (build.resolver.operand (build.resolver.scope routine)) = .ok arguments)
    (isTarget : FlatCode.labelPosition? (code.map Link.Element.item) label = some target) :
    build.code.target site arguments = .ok (Link.lineOf build.table routine target) := by
  obtain _ | ⟨⟨⟩, ⟨⟩⟩ := Fallible.mapM_eq_ok.mp resolved
  have isFound := build.isListed.lookup_label found (build.unscoped found) isTarget
  rw [← Build.code] at isFound
  simp only [Machine.Code.target, isFound]

/-- A call leads to the first line of the subroutine, which is there. -/
theorem target_of_callee {id : SubroutineId} {others : List Operand} {scope : String}
    (operands : instr.operands = .subroutine id :: others)
    (resolved : instr.operands.mapM (build.resolver.operand scope) = .ok arguments) :
    (∀ site, build.code.target site arguments =
        .ok (Link.firstLine build.table (.subroutine id))) ∧
      ∃ code, build.table.lookup (.subroutine id) = some code := by
  rw [operands] at resolved
  obtain _ | ⟨isArgument, _⟩ := Fallible.mapM_eq_ok.mp resolved
  rw [Link.Resolver.operand] at isArgument
  split at isArgument
  next label isLabel =>
    cases isArgument
    obtain ⟨entry, member, same⟩ := List.mem_map.mp (build.isListed.present isLabel)
    obtain ⟨key, callee⟩ := entry
    cases same
    have found := lookup_of_mem build.isListed.nodup member
    have isFound := build.isListed.lookup_subroutine found isLabel
    rw [← Build.code] at isFound
    exact ⟨fun site => by simp only [Machine.Code.target, isFound], callee, found⟩
  next => cases isArgument

/-- What a step does at a safe place of a routine. -/
theorem Certified.moves (certified : build.Certified gauge start)
    (fetches : build.Fetches gauge routine state.line level code index instr arguments)
    (steps : state.step limits env build.code = .ok (.running next)) :
    build.Moves gauge start limits env routine level index instr arguments state next := by
  obtain ⟨@⟨_, _, _, flow, _, fetched, executed, goes⟩, _⟩ := State.of_step_eq_ok steps
  rw [fetches.fetched] at fetched
  cases fetched
  obtain ⟨flows, _⟩ := Machine.flows_of_execute executed
  cases fetches.passes.instr fetches.here with
  | leave exits leaves =>
    obtain ⟨isReturn, rfl⟩ := flows.eq_back exits (fun _ isHalt => by subst isHalt; cases goes)
    have same := Machine.memory_of_execute (.inr (.inr isReturn)) executed
    cases goes with
    | back frames => exact .back isReturn leaves same frames
  | move goesOn moves safe =>
    have stays := Stands.inside fetches.found rfl safe
    by_cases isCall : instr.op = .callsub
    · obtain ⟨id, others, operands, callee⟩ := Instr.exists_callee (certified.named moves) isCall
      obtain ⟨leads, entered, isEntered⟩ := target_of_callee operands fetches.resolved
      have isFlow : flow = .call := by rwa [isCall] at flows
      subst isFlow
      cases goes with
      | call _ isTarget =>
        rw [leads] at isTarget
        cases isTarget
        have same := Machine.memory_of_execute (.inr (.inl isCall)) executed
        exact .call isCall callee moves same rfl rfl
          (.entry isEntered rfl (certified.safe isEntered)) stays
    · have isFlow := flows.eq_next goesOn ((gauge routine).straight moves) isCall
      subst isFlow
      cases goes with
      | next => exact .straight goesOn isCall moves executed rfl stays
  | jump target safe =>
    have isFlow : flow = .jump := flows
    subst isFlow
    cases goes with
    | jump isTarget =>
      rw [target_of_label _ fetches.found fetches.resolved target] at isTarget
      cases isTarget
      exact .jump rfl (Machine.memory_of_execute (.inl rfl) executed) rfl
        (.inside fetches.found rfl safe)
  | branch conditional isPosition tests taken passed =>
    have isFlow : flow = .next ∨ flow = .jump := by
      rcases conditional with rfl | rfl <;> exact flows
    rcases isFlow with rfl | rfl
    · cases goes with
      | next => exact .branch conditional tests executed rfl (.inside fetches.found rfl passed)
    · cases goes with
      | jump isTarget =>
        rw [target_of_label _ fetches.found fetches.resolved isPosition] at isTarget
        cases isTarget
        exact .branch conditional tests executed rfl (.inside fetches.found rfl taken)

/-- The labels of a routine are resolved by their number: a branch leads to the label with its
number in its own routine. -/
theorem Finds.exists_target {label : Label} {others : List Operand} {site : Machine.Site}
    {target : Nat} (finds : build.Finds routine line code index instr arguments)
    (operands : instr.operands = .label label :: others)
    (isTarget : build.code.target site arguments = .ok target) :
    ∃ place, FlatCode.labelPosition? (code.map Link.Element.item) { label with scope := "" } =
      some place ∧ target = Link.lineOf build.table routine place := by
  have resolved := finds.resolved
  rw [operands] at resolved
  obtain _ | ⟨⟨⟩, _⟩ := Fallible.mapM_eq_ok.mp resolved
  simp only [Machine.Code.target] at isTarget
  split at isTarget
  next found =>
    cases isTarget
    obtain ⟨comment, there⟩ := Machine.Code.mem_labels.mp (mem_of_lookup found)
    obtain ⟨position, twin, atPosition, same, _⟩ :=
      (build.isListed.labelLine there).exists_twin build.isListed finds.found
    have isTwin : twin = { label with scope := "" } := by
      have bare := build.unscoped finds.found twin (List.mem_of_getElem? atPosition)
      obtain ⟨_, _⟩ := twin
      simp_all
    subst isTwin
    obtain ⟨place, isPlace⟩ := FlatCode.exists_labelPosition? (List.mem_of_getElem? atPosition)
    have isFound := build.isListed.lookup_label finds.found (build.unscoped finds.found) isPlace
    exact ⟨place, isPlace, Option.some.inj (found.symm.trans isFound)⟩
  next => cases isTarget

/-- What is fetched at a safe place is named. -/
theorem Certified.isNamed (certified : build.Certified gauge start)
    (fetches : build.Fetches gauge routine line level code index instr arguments) :
    instr.isNamed = true := by
  cases fetches.passes.instr fetches.here with
  | leave exits => cases op : instr.op <;> simp_all [Instr.isNamed, Opcode.isExit]
  | move _ moves => exact certified.named moves
  | jump => rfl
  | branch conditional => rcases conditional with rfl | rfl <;> rfl

/-- Where an instruction leads that does not end the run. -/
inductive Leads (build : Build main options before) (limits : Limits) (env : Environment)
    (routine : Routine) (code : List Link.Element) (index : Nat) (instr : Instr)
    (arguments : List Argument) (state next : State) : Prop where
  | straight : instr.op.isExit = false → instr.op ≠ .callsub → instr.op ≠ .b →
      Machine.execute limits env
        ⟨instr.op, Link.lineOf build.table routine index + 1⟩ arguments state.memory =
          .ok (.next, next.memory) →
      next.line = Link.lineOf build.table routine (index + 1) → next.frames = state.frames →
      Leads build limits env routine code index instr arguments state next
  | jump {label : Label} {place : Nat} : instr.op.isBranch = true → instr.label? = some label →
      FlatCode.labelPosition? (code.map Link.Element.item) { label with scope := "" } =
        some place → next.memory.scratch = state.memory.scratch →
      next.line = Link.lineOf build.table routine place → next.frames = state.frames →
      Leads build limits env routine code index instr arguments state next
  | call {id : SubroutineId} {callee : List Link.Element} : CallGraph.callee? instr = some id →
      build.table.lookup (.subroutine id) = some callee → next.memory = state.memory →
      next.line = Link.firstLine build.table (.subroutine id) →
      next.frames = Link.lineOf build.table routine (index + 1) :: state.frames →
      Leads build limits env routine code index instr arguments state next
  | back : instr.op = .retsub → next.memory = state.memory →
      state.frames = next.line :: next.frames →
      Leads build limits env routine code index instr arguments state next

theorem Finds.leads (finds : build.Finds routine state.line code index instr arguments)
    (named : instr.isNamed = true)
    (steps : state.step limits env build.code = .ok (.running next)) :
    build.Leads limits env routine code index instr arguments state next := by
  obtain ⟨@⟨_, _, _, flow, _, fetched, executed, goes⟩, _⟩ := State.of_step_eq_ok steps
  rw [finds.fetched] at fetched
  cases fetched
  obtain ⟨flows, keeps⟩ := Machine.flows_of_execute executed
  cases goes with
  | next =>
    obtain ⟨goesOn, noCall, noJump⟩ := flows.of_next
    exact .straight goesOn noCall noJump executed rfl rfl
  | jump isTarget =>
    have branches := flows.isBranch
    obtain ⟨label, others, operands⟩ := Instr.exists_label named branches
    obtain ⟨place, isPlace, rfl⟩ := finds.exists_target operands isTarget
    have quiet : instr.op ≠ .store ∧ instr.op ≠ .stores := by
      cases op : instr.op <;> simp_all [Opcode.isBranch]
    exact .jump branches (by rw [Instr.label?, operands]; rfl) isPlace
      (keeps.scratch quiet.1 quiet.2) rfl rfl
  | call _ isTarget =>
    have isCall := flows.eq_callsub
    obtain ⟨id, others, operands, callee⟩ := Instr.exists_callee named isCall
    obtain ⟨leads, entered, isEntered⟩ := target_of_callee operands finds.resolved
    rw [leads] at isTarget
    cases isTarget
    exact .call callee isEntered (Machine.memory_of_execute (.inr (.inl isCall)) executed) rfl rfl
  | back frames =>
    have isReturn := flows.eq_retsub
    exact .back isReturn (Machine.memory_of_execute (.inr (.inr isReturn)) executed) frames

/-- A step at a safe place does not fail through the fault of the listing, provided that the
instructions have their immediates and no return is executed outside of calls. -/
theorem Certified.isStray (certified : build.Certified gauge start) {fault : Machine.Fault}
    (immediates : ∀ {instr : Instr} {level next : α},
      (gauge routine).move instr level = some next → instr.hasImmediate = true)
    (returns : ∀ {instr : Instr} {level : α}, (gauge routine).leave instr level →
      instr.op = .retsub → state.frames ≠ [])
    (stands : build.Stands gauge routine state.line level)
    (fails : state.step limits env build.code = .error fault) : fault.isStray = false := by
  obtain ⟨code, index, instr, arguments, fetches⟩ := stands.fetch
  have suits : instr.op.suits arguments = true := by
    cases fetches.passes.instr fetches.here with
    | leave exits =>
      cases op : instr.op <;> simp_all [Opcode.isExit, Opcode.suits, Opcode.immediate,
        Opcode.Immediate.begins]
    | move goesOn moves safe =>
      exact Instr.suits_of_hasImmediate (immediates moves) fetches.resolved
    | jump =>
      rfl
    | branch conditional =>
      rcases conditional with rfl | rfl <;> rfl
  cases State.of_step_eq_error fetches.fetched fails with
  | steps | depth => rfl
  | execution fails => exact Machine.isStray_of_execute suits fails
  | noCall executed frames =>
    have isReturn := (Machine.flows_of_execute executed).1.eq_retsub
    have leaves := (fetches.passes.instr fetches.here).leaves (by rw [isReturn]; rfl)
    exact absurd frames (returns leaves isReturn)
  | target executed leads missing =>
    have flows := (Machine.flows_of_execute executed).1
    cases fetches.passes.instr fetches.here with
    | leave exits =>
      obtain ⟨_, rfl⟩ := flows.eq_back exits (by rcases leads with rfl | rfl <;> rintro _ ⟨⟩)
      simp at leads
    | move goesOn moves =>
      have isCall : instr.op = .callsub := by
        rcases leads with rfl | rfl
        · have branches := flows.isBranch
          simp [(gauge routine).straight moves] at branches
        · exact flows.eq_callsub
      obtain ⟨id, others, operands, _⟩ := Instr.exists_callee (certified.named moves) isCall
      rw [(target_of_callee operands fetches.resolved).1] at missing
      cases missing
    | jump target | branch _ target =>
      rw [target_of_label _ fetches.found fetches.resolved target] at missing
      cases missing

end Steps

end Build

end ContractBackend
