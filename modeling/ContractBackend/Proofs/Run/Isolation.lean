import ContractBackend.Proofs.Depths
import ContractBackend.Proofs.Run.CallChain
import ContractBackend.Proofs.Run.Positions
import ContractBackend.Proofs.Run.Convention
import ContractBackend.Proofs.Slots.Initialized

/-!
# Activations have their own slots

A private slot of a routine holds what the activation at hand has stored to it last, whatever
has been called in between. Cells are shared only among routines that are never active together,
and a call that can enter its caller again has the slots of the caller saved around it.
-/

namespace ContractBackend

open Machine (State Limits Environment Memory Value Flow)

namespace Build

variable {α : Type} {main : Expr} {options : CompileOptions} {before : Program} {slot : Slot}
  {op : Opcode}

/-! ## What an activation has stored -/

/-- Values of slots that reflect what an activation has stored to its private slots. -/
def Reflects (build : Build main options before) (values : Slot → Value) (activation : Activation) :
    Prop :=
  ∀ slot ∈ build.usage.privateSlots activation.routine, ∀ value,
    activation.stored slot = some value → values slot = value

/-- Control can come to a position with nothing stored to the private slots that an activation has
not stored to. -/
def LeavesUnset (build : Build main options before) (flat : FlatCode) (activation : Activation)
    (position : Nat) : Prop :=
  ∀ slot ∈ build.usage.privateSlots activation.routine, activation.stored slot = none →
    flat.Unset slot position

variable {build : Build main options before} {gauge : Routine → Gauge α} {start : Routine → α}
  {limits : Limits} {env : Environment} {state next : State} {routine : Routine} {level : α}
  {flat : FlatCode} {code : List Link.Element} {index position line : Nat} {instr call : Instr}
  {arguments : List Argument} {top caller : Activation} {rest : List Activation}
  {memory later : Memory} {frames : List Nat}

theorem LeavesUnset.follow {target : Nat} (unset : build.LeavesUnset flat top position)
    (here : flat[position]? = some (.instr instr)) (noStore : instr.op ≠ .store)
    (follows : flat.Follows position target) : build.LeavesUnset flat top target :=
  fun slot isPrivate none =>
    (unset slot isPrivate none).past here (by simp [Instr.storesTo, noStore]) follows

/-- Calls store nothing. -/
theorem LeavesUnset.past_call {id : SubroutineId} (unset : build.LeavesUnset flat top position)
    (here : flat[position]? = some (.instr call)) (calls : CallGraph.callee? call = some id) :
    build.LeavesUnset flat top (position + 1) := by
  have isCall := (CallGraph.callee?_eq_some.mp calls).1
  refine unset.follow here ?_ (.next here ?_ ?_) <;> rw [isCall] <;> decide

theorem mem_slotsOf (isFlat : build.flat.lookup routine = some flat)
    (here : flat[position]? = some (.instr instr)) {others : List Operand}
    (operands : instr.operands = .slot slot :: others) :
    slot ∈ build.usage.slotsOf routine := by
  refine (SlotUsage.slotsOf_ofRoutines _ _).mpr ⟨flat, isFlat, instr, ?_, ?_⟩
  · exact FlatCode.mem_instrs.mpr (List.mem_of_getElem? here)
  · simp [Instr.slots, operands, Operand.mentioned?]

/-- An instruction leaves the cells as they are, or stores to one slot of its routine. -/
inductive Writes (build : Build main options before) (routine : Routine) (memory later : Memory) :
    Prop where
  | nothing : later.scratch = memory.scratch → Writes build routine memory later
  | slot {slot : Slot} {value : Value} : slot ∈ build.usage.slotsOf routine →
      later.scratch = memory.scratch.set (build.resolver.cellOf slot) value →
      Writes build routine memory later

section Execution

variable {scope : String} {flow : Flow} (named : instr.isNamed = true)
  (resolved : instr.operands.mapM (build.resolver.operand scope) = .ok arguments)
  (executed : Machine.execute limits env ⟨instr.op, line⟩ arguments memory = .ok (flow, later))

include named resolved executed

/-- A store names its slot and puts the value on top into its cell. -/
theorem exists_stored (isStore : instr.op = .store) :
    ∃ slot others value below, instr.operands = .slot slot :: others ∧
      (∀ other, instr.storesTo other = true ↔ slot = other) ∧ memory.stack = value :: below ∧
      later.scratch = memory.scratch.set (build.resolver.cellOf slot) value := by
  obtain ⟨slot, others, operands⟩ :=
    Instr.exists_slot_of_head (by simpa [Instr.isNamed, isStore] using named)
  rw [operands] at resolved
  obtain ⟨_, rfl⟩ := Link.Resolver.arguments_of_slot resolved
  rw [isStore] at executed
  obtain ⟨value, below, isStack, _, rfl⟩ := Machine.execute_store_eq_ok.mp executed
  refine ⟨slot, others, value, below, operands, fun other => ?_, isStack, rfl⟩
  simp [Instr.storesTo, isStore, Instr.directSlot?, operands, List.findSome?_cons, Operand.slot?]

/-- What an instruction does to the cells. -/
theorem writes_of_execute (noStores : instr.op ≠ .stores)
    (mentions : ∀ slot others, instr.op = .store → instr.operands = .slot slot :: others →
      slot ∈ build.usage.slotsOf routine) : build.Writes routine memory later := by
  by_cases isStore : instr.op = .store
  · obtain ⟨slot, others, value, _, operands, _, _, isSet⟩ :=
      exists_stored named resolved executed isStore
    exact .slot (mentions slot others isStore operands) isSet
  · exact .nothing ((Machine.flows_of_execute executed).2.scratch isStore noStores)

/-- What an activation stores, its slot holds. -/
theorem Reflects.after (reflects : build.Reflects (build.resolver.valueIn memory) top)
    (isFlat : build.flat.lookup top.routine = some flat)
    (here : flat[position]? = some (.instr instr)) (noStores : instr.op ≠ .stores) :
    build.Reflects (build.resolver.valueIn later) (top.after instr memory.stack) := by
  intro slot isPrivate value stored
  by_cases isStore : instr.op = .store
  · obtain ⟨target, others, written, below, operands, storesTo, isStack, isSet⟩ :=
      exists_stored named resolved executed isStore
    have isTarget := mem_slotsOf isFlat here operands
    simp only [Activation.after, storesTo, isStack, List.head?_cons] at stored
    rw [Link.Resolver.valueIn, isSet]
    by_cases same : target = slot
    · subst same
      rw [if_pos rfl] at stored
      cases stored
      exact get_set_self _ _ _
    · rw [if_neg same] at stored
      have mentioned := (SlotUsage.mem_privateSlots.mp isPrivate).1
      have apart : build.resolver.cellOf target ≠ build.resolver.cellOf slot :=
        fun equal => same (cellOf_inj isTarget mentioned equal)
      exact (get_set_of_ne _ _ apart).trans (reflects slot isPrivate value stored)
  · have kept := (Machine.flows_of_execute executed).2.scratch isStore noStores
    have noStore : instr.storesTo slot = false := by simp [Instr.storesTo, isStore]
    simp only [Activation.after, noStore, Bool.false_eq_true, if_false] at stored
    rw [Link.Resolver.valueIn, kept]
    exact reflects slot isPrivate value stored

/-- What an activation does not store stays unset. -/
theorem LeavesUnset.after (unset : build.LeavesUnset flat top position)
    (here : flat[position]? = some (.instr instr)) (goes : instr.op.isExit = false)
    (straight : instr.op ≠ .b) :
    build.LeavesUnset flat (top.after instr memory.stack) (position + 1) := by
  intro slot isPrivate none
  have noStore : instr.storesTo slot = false ∧ top.stored slot = Option.none := by
    cases stores : instr.storesTo slot with
    | false =>
      simp only [Activation.after, stores, Bool.false_eq_true, if_false] at none
      exact ⟨rfl, none⟩
    | true =>
      -- A store that succeeds has found a value.
      have isStore : instr.op = .store := by
        simp only [Instr.storesTo, Bool.and_eq_true, decide_eq_true_eq] at stores
        exact stores.1
      obtain ⟨_, _, _, _, _, _, isStack, _⟩ := exists_stored named resolved executed isStore
      simp [Activation.after, stores, isStack] at none
  exact (unset slot isPrivate noStore.2).past here noStore.1 (.next here straight goes)

end Execution

/-! ## The activation at hand -/

/-- The values of the slots of a routine lie on the stack below the results of a call. -/
def Rescues (build : Build main options before) (routine : Routine) (handle : Handle)
    (saved : Slot → Value) (stack : List Value) : Prop :=
  ∃ results below, results.length = (if handle.returns.isValue then 1 else 0) ∧
    stack = results ++ (((build.localsOf routine).map saved).reverse ++ below)

/-- What the instruction at hand is there for. -/
inductive Serves (build : Build main options before) (limits : Limits) (env : Environment)
    (flat : FlatCode) (memory : Memory) (activation : Activation) (index position : Nat)
    (instr : Instr) : Prop where
  | standing : build.Standing activation.routine flat position instr →
      index = build.startOf activation.routine flat position →
      build.Reflects (build.resolver.valueIn memory) activation →
      Serves build limits env flat memory activation index position instr
  | saving {call : Instr} {callee : SubroutineId} {handle : Handle} {low lower done todo : List Instr}
      {earlier : Memory} :
      build.Surrounded activation.routine flat position call callee handle low lower →
      Spill.saves (build.localsOf activation.routine) low = done ++ instr :: todo →
      index = build.startOf activation.routine flat position + done.length →
      build.Reflects (build.resolver.valueIn earlier) activation →
      build.Executes limits env activation.routine done earlier memory →
      Serves build limits env flat memory activation index position instr
  | calling {callee : SubroutineId} {handle : Handle} {low lower : List Instr} {earlier : Memory} :
      build.Surrounded activation.routine flat position instr callee handle low lower →
      index = build.startOf activation.routine flat position +
        (Spill.saves (build.localsOf activation.routine) low).length →
      build.Reflects (build.resolver.valueIn earlier) activation →
      build.Executes limits env activation.routine
        (Spill.saves (build.localsOf activation.routine) low) earlier memory →
      Serves build limits env flat memory activation index position instr
  | restoring {call : Instr} {callee : SubroutineId} {handle : Handle}
      {low lower done todo : List Instr} {earlier : Memory} {saved : Slot → Value} :
      build.Surrounded activation.routine flat position call callee handle low lower →
      Spill.restores (build.localsOf activation.routine) lower = done ++ instr :: todo →
      index = build.startOf activation.routine flat position +
        ((Spill.saves (build.localsOf activation.routine) low).length + 1 + done.length) →
      build.Reflects saved activation →
      build.Rescues activation.routine handle saved earlier.stack →
      build.Executes limits env activation.routine done earlier memory →
      Serves build limits env flat memory activation index position instr

/-- Control is between two elements of the flat code, or at an instruction of the code for a
call. -/
inductive Phase (build : Build main options before) (limits : Limits) (env : Environment)
    (flat : FlatCode) (memory : Memory) (activation : Activation) (index position : Nat) :
    Prop where
  | between : index = build.startOf activation.routine flat position →
      build.Reflects (build.resolver.valueIn memory) activation →
      Phase build limits env flat memory activation index position
  | serving {instr : Instr} : build.Serves limits env flat memory activation index position instr →
      Phase build limits env flat memory activation index position

/-- Before a call, the next instruction saves a slot or is the call. -/
theorem Surrounded.exists_serves {callee : SubroutineId} {handle : Handle}
    {low lower done todo : List Instr} {earlier : Memory}
    (surrounded : build.Surrounded top.routine flat position call callee handle low lower)
    (split : Spill.saves (build.localsOf top.routine) low = done ++ todo)
    (reflects : build.Reflects (build.resolver.valueIn earlier) top)
    (executes : build.Executes limits env top.routine done earlier memory) :
    ∃ instr, build.Serves limits env flat memory top
      (build.startOf top.routine flat position + done.length) position instr := by
  cases todo with
  | nil =>
    rw [List.append_nil] at split
    subst split
    exact ⟨call, .calling surrounded rfl reflects executes⟩
  | cons first todo => exact ⟨first, .saving surrounded split rfl reflects executes⟩

/-- Only instructions of the flat code are not inserted. -/
theorem Serves.exists_element
    (serves : build.Serves limits env flat memory top index position instr) : ∃ inserted,
      (flat.flatMap (build.elements top.routine))[index]? = some ⟨.instr instr, inserted⟩ ∧
      ((inserted = false ∧ flat[position]? = some (.instr instr)) ∨
        (inserted = true ∧ ∃ argCount returnsValue version,
          Spill.Inserted (build.localsOf top.routine) argCount returnsValue version instr)) := by
  cases serves with
  | standing standing isIndex =>
    exact ⟨false, isIndex ▸ standing.getElem?, .inl ⟨rfl, standing.here⟩⟩
  | saving surrounded split isIndex =>
    exact ⟨true, isIndex ▸
      getElem?_before surrounded.here surrounded.expands (getElem?_of_split split),
      .inr ⟨rfl, _, _, _, surrounded.surrounds.inserted_of_mem_saves (by simp [split])⟩⟩
  | calling surrounded isIndex =>
    exact ⟨false, isIndex ▸ getElem?_call surrounded.here surrounded.expands,
      .inl ⟨rfl, surrounded.here⟩⟩
  | restoring surrounded split isIndex =>
    exact ⟨true, isIndex ▸
      getElem?_behind surrounded.here surrounded.expands (getElem?_of_split split),
      .inr ⟨rfl, _, _, _, surrounded.surrounds.inserted_of_mem_restores (by simp [split])⟩⟩

theorem item_of_element {place : Nat} {other : Instr} {inserted : Bool}
    (element : code[place]? = some ⟨.instr other, inserted⟩) :
    (code.map Link.Element.item)[place]? = some (.instr other) := by
  rw [List.getElem?_map, element]
  rfl

/-- What the instruction is there for that is fetched. -/
theorem Phase.exists_serves (isFlat : build.flat.lookup top.routine = some flat) {place : Nat}
    (finds : build.Finds top.routine line (flat.flatMap (build.elements top.routine)) index instr
      arguments)
    (nears : build.Nears top.routine line place) (unset : build.LeavesUnset flat top position)
    (phase : build.Phase limits env flat memory top place position) :
    ∃ position, build.LeavesUnset flat top position ∧
      build.Serves limits env flat memory top index position instr := by
  have isFetched : ∀ {place position other}, build.Nears top.routine line place →
      build.Serves limits env flat memory top place position other →
      build.Serves limits env flat memory top index position instr := by
    intro place position other nears serves
    obtain ⟨_, element, _⟩ := serves.exists_element
    obtain ⟨rfl, rfl⟩ := nears.eq_of_instr finds (item_of_element element)
    exact serves
  cases phase with
  | between isPlace reflects =>
    subst isPlace
    obtain ⟨position, other, here, unset, nears⟩ := nears.exists_instr isFlat finds unset
      fun position label here unset slot isPrivate none =>
        .step (unset slot isPrivate none) (fun instr there => by simp [here] at there) (.label here)
    refine ⟨position, unset, ?_⟩
    rcases standing_or_surrounded isFlat here with standing | ⟨callee, handle, low, lower, surrounded⟩
    · exact isFetched nears (.standing standing rfl reflects)
    · obtain ⟨_, serves⟩ := surrounded.exists_serves (List.nil_append _).symm reflects .nil
      exact isFetched nears serves
  | serving serves => exact ⟨position, unset, isFetched nears serves⟩

/-- Control is in the code of the routine of an activation. -/
inductive Resides (build : Build main options before) (limits : Limits) (env : Environment)
    (memory : Memory) (activation : Activation) (line : Nat) : Prop where
  | intro {flat : FlatCode} {place position : Nat} :
      build.flat.lookup activation.routine = some flat →
      build.Nears activation.routine line place → build.LeavesUnset flat activation position →
      build.Phase limits env flat memory activation place position →
      Resides build limits env memory activation line

theorem length_localsOf_lt (build : Build main options before) (routine : Routine) :
    (build.localsOf routine).length < UInt64.size :=
  Nat.lt_of_le_of_lt (SlotUsage.length_locals_le build.assigned) (by decide)

/-- Once all slots have been put back, they reflect what the activation has stored. -/
theorem reflects_of_restores {handle : Handle} {low lower : List Instr} {saved : Slot → Value}
    {earlier : Memory} {argCount : Nat}
    (surrounds : Spill.Surrounds (build.localsOf top.routine) argCount handle.returns.isValue
      options.version low lower)
    (reflects : build.Reflects saved top)
    (rescues : build.Rescues top.routine handle saved earlier.stack)
    (executes : build.Executes limits env top.routine
      (Spill.restores (build.localsOf top.routine) lower) earlier memory) :
    build.Reflects (build.resolver.valueIn memory) top := by
  obtain ⟨results, below, count, isStack⟩ := rescues
  obtain ⟨_, _, rfl⟩ := (Link.Resolver.executes_restores (build.length_localsOf_lt _) surrounds count
    isStack).mp executes
  intro slot isPrivate value stored
  rw [← reflects slot isPrivate value stored]
  exact get_restored (fun other isLocal => (mem_localsOf.mp isLocal).1)
    (mem_localsOf_of_private isPrivate)

theorem Resides.exists_serves
    (finds : build.Finds top.routine line code index instr arguments)
    (resides : build.Resides limits env memory top line) :
    ∃ flat position, build.flat.lookup top.routine = some flat ∧
      code = flat.flatMap (build.elements top.routine) ∧ build.LeavesUnset flat top position ∧
      build.Serves limits env flat memory top index position instr := by
  obtain ⟨isFlat, nears, unset, phase⟩ := resides
  have isCode := finds.eq_flatMap isFlat
  subst isCode
  obtain ⟨position, unset, serves⟩ := phase.exists_serves isFlat finds nears unset
  exact ⟨_, position, isFlat, rfl, unset, serves⟩

/-- A store of the routine, also one that puts a slot back, is to a slot of the routine. -/
theorem Serves.mem_slotsOf (isFlat : build.flat.lookup top.routine = some flat)
    (serves : build.Serves limits env flat memory top index position instr) {others : List Operand}
    (operands : instr.operands = .slot slot :: others) :
    slot ∈ build.usage.slotsOf top.routine := by
  obtain ⟨_, _, ⟨_, here⟩ | ⟨_, _, _, _, inserted⟩⟩ := serves.exists_element
  · exact Build.mem_slotsOf isFlat here operands
  · cases inserted with
    | load isLocal | store isLocal =>
      cases operands
      exact (mem_localsOf.mp isLocal).1
    | cover | swap => cases operands

/-- Branches stand as they are. -/
theorem Serves.standing_of_branch (branches : instr.op.isBranch = true)
    (serves : build.Serves limits env flat memory top index position instr) :
    build.Standing top.routine flat position instr ∧
      build.Reflects (build.resolver.valueIn memory) top := by
  cases serves with
  | standing standing _ reflects => exact ⟨standing, reflects⟩
  | calling surrounded =>
    rw [surrounded.op_eq] at branches
    cases branches
  | saving surrounded split =>
    cases surrounded.surrounds.inserted_of_mem_saves (by simp [split] : instr ∈ _) <;>
      cases branches
  | restoring surrounded split =>
    cases surrounded.surrounds.inserted_of_mem_restores (by simp [split] : instr ∈ _) <;>
      cases branches

/-- An instruction that goes on at the next line. -/
theorem Serves.straight {inserted : Bool} (isFlat : build.flat.lookup top.routine = some flat)
    (atIndex : (flat.flatMap (build.elements top.routine))[index]? = some ⟨.instr instr, inserted⟩)
    (named : instr.isNamed = true) (goes : instr.op.isExit = false) (noCall : instr.op ≠ .callsub)
    (noJump : instr.op ≠ .b) (noStores : instr.op ≠ .stores)
    (resolved : instr.operands.mapM
      (build.resolver.operand (build.resolver.scope top.routine)) = .ok arguments)
    (executed : Machine.execute limits env ⟨instr.op, line⟩ arguments memory = .ok (.next, later))
    (unset : build.LeavesUnset flat top position)
    (serves : build.Serves limits env flat memory top index position instr) :
    build.Resides limits env later (if inserted then top else top.after instr memory.stack)
      (Link.lineOf build.table top.routine (index + 1)) := by
  have one : build.Executes limits env top.routine [instr] memory later :=
    .cons resolved executed .nil
  cases serves with
  | standing standing isIndex reflects =>
    rw [isIndex, standing.getElem?] at atIndex
    cases atIndex
    refine .intro isFlat rfl (unset.after named resolved executed standing.here goes noJump)
      (.between ?_ (reflects.after named resolved executed isFlat standing.here noStores))
    rw [isIndex]
    exact standing.startOf_succ.symm
  | @saving _ _ _ _ _ done _ _ surrounded split isIndex reflects executes =>
    rw [isIndex, getElem?_before surrounded.here surrounded.expands (getElem?_of_split split)]
      at atIndex
    cases atIndex
    rw [if_pos rfl]
    rw [← List.singleton_append, ← List.append_assoc] at split
    have executes := Link.Resolver.executes_append.mpr ⟨_, executes, one⟩
    obtain ⟨_, serves⟩ := surrounded.exists_serves split reflects executes
    rw [List.length_append, ← Nat.add_assoc, ← isIndex] at serves
    exact .intro isFlat rfl unset (.serving serves)
  | calling surrounded => exact absurd surrounded.op_eq noCall
  | @restoring _ _ _ _ _ done todo _ _ surrounded split isIndex reflects rescues executes =>
    rw [isIndex, getElem?_behind surrounded.here surrounded.expands (getElem?_of_split split)]
      at atIndex
    cases atIndex
    rw [if_pos rfl]
    have executes := Link.Resolver.executes_append.mpr ⟨_, executes, one⟩
    cases todo with
    | nil =>
      rw [← split] at executes
      have behind := unset.past_call surrounded.here surrounded.calls
      refine .intro isFlat rfl behind
        (.between ?_ (reflects_of_restores surrounded.surrounds reflects rescues executes))
      rw [isIndex, startOf_behind surrounded.here surrounded.expands, split, List.length_append]
      rfl
    | cons first todo =>
      rw [← List.singleton_append, ← List.append_assoc] at split
      refine .intro isFlat rfl unset
        (.serving (.restoring surrounded split ?_ reflects rescues executes))
      rw [isIndex, List.length_append]
      rfl

/-- Control can come to the label that a branch names. The code of a routine with private slots has
been checked, so that the label is there as it is named. -/
theorem LeavesUnset.jump {label : Label} {target : Nat}
    (isFlat : build.flat.lookup top.routine = some flat)
    (here : flat[position]? = some (.instr instr)) (branches : instr.op.isBranch = true)
    (isLabel : instr.label? = some label)
    (isTarget : flat.labelPosition? { label with scope := "" } = some target)
    (unset : build.LeavesUnset flat top position) : build.LeavesUnset flat top target := by
  intro slot isPrivate none
  have noStore : instr.op ≠ .store := by
    intro isStore
    rw [isStore] at branches
    cases branches
  obtain ⟨other, isOther, member⟩ :=
    SlotInit.exists_label (build.initialized _ (mem_of_lookup isFlat)) isPrivate here branches
  rw [isLabel] at isOther
  cases isOther
  have bare : label = { label with scope := "" } := by
    rw [← build.unscoped_flat isFlat member]
  refine unset.follow here noStore (.jump here branches ?_) slot isPrivate none
  rw [isLabel, Option.bind_some, bare, isTarget]

/-- A branch goes to the label that it names. -/
theorem Resides.jump {label : Label} {target : Nat}
    (finds : build.Finds top.routine line code index instr arguments)
    (branches : instr.op.isBranch = true) (isLabel : instr.label? = some label)
    (isTarget : FlatCode.labelPosition? (code.map Link.Element.item) { label with scope := "" } =
      some target)
    (scratch : later.scratch = memory.scratch) (resides : build.Resides limits env memory top line) :
    build.Resides limits env later top (Link.lineOf build.table top.routine target) := by
  obtain ⟨flat, position, isFlat, rfl, unset, serves⟩ := resides.exists_serves finds
  obtain ⟨standing, reflects⟩ := serves.standing_of_branch branches
  obtain ⟨place, isPlace, rfl⟩ := exists_labelPosition? isTarget
  refine .intro isFlat rfl (unset.jump isFlat standing.here branches isLabel isPlace)
    (.between rfl fun slot isPrivate value stored => ?_)
  rw [Link.Resolver.valueIn, scratch]
  exact reflects slot isPrivate value stored

/-! ## Waiting activations -/

/-- An activation waits for a call to return. Either the call cannot enter its routine again, so
that its slots stay as they are, or their values lie below the arguments of the callee. -/
inductive Resumes (build : Build main options before) (memory : Memory) (callee caller : Activation)
    (flat : FlatCode) (position line : Nat) : Prop where
  | plain {call : Instr} {id : SubroutineId} :
      build.Standing caller.routine flat position call → CallGraph.callee? call = some id →
      callee.routine = .subroutine id →
      line = Link.lineOf build.table caller.routine
        (build.startOf caller.routine flat position + 1) →
      build.Reflects (build.resolver.valueIn memory) caller →
      Resumes build memory callee caller flat position line
  | saved {call : Instr} {id : SubroutineId} {handle : Handle} {low lower : List Instr}
      {saved : Slot → Value} {below : List Value} :
      build.Surrounded caller.routine flat position call id handle low lower →
      callee.routine = .subroutine id →
      line = Link.lineOf build.table caller.routine
        (build.startOf caller.routine flat position +
          ((Spill.saves (build.localsOf caller.routine) low).length + 1)) →
      callee.entered.drop handle.argCount =
        ((build.localsOf caller.routine).map saved).reverse ++ below →
      build.Reflects saved caller → Resumes build memory callee caller flat position line

/-- The activations that wait for a call to return, with the lines at which they go on. -/
inductive Waits (build : Build main options before) (memory : Memory) :
    Activation → List Activation → List Nat → Prop where
  | none {top : Activation} : Waits build memory top [] []
  | call {top caller : Activation} {rest : List Activation} {line position : Nat}
      {frames : List Nat} {flat : FlatCode} : build.flat.lookup caller.routine = some flat →
      build.LeavesUnset flat caller position →
      build.Resumes memory top caller flat position line →
      Waits build memory caller rest frames →
      Waits build memory top (caller :: rest) (line :: frames)

theorem Waits.congr {other : Activation} (waits : build.Waits memory top rest frames)
    (routine : other.routine = top.routine) (entered : other.entered = top.entered) :
    build.Waits memory other rest frames := by
  cases waits with
  | none => exact .none
  | call isFlat unset resumes further =>
    refine .call isFlat unset ?_ further
    cases resumes with
    | plain standing calls isCallee isLine reflects =>
      exact .plain standing calls (routine.trans isCallee) isLine reflects
    | saved surrounded isCallee isLine isBelow reflects =>
      exact .saved surrounded (routine.trans isCallee) isLine (entered ▸ isBelow) reflects

/-- Routines that are active above a call that cannot enter its caller again do not use the cells
of the caller. -/
theorem cellOf_ne {front chain : List Routine} {writer caller : Routine} {callee : SubroutineId}
    {written : Slot}
    (path : build.callGraph.IsPath (front ++ .subroutine callee :: caller :: chain))
    (single : build.callGraph.isReentry caller callee = false)
    (above : writer ∈ front ++ [.subroutine callee])
    (isWritten : written ∈ build.usage.slotsOf writer)
    (isPrivate : slot ∈ build.usage.privateSlots caller) :
    build.resolver.cellOf written ≠ build.resolver.cellOf slot := by
  intro same
  have isCaller := SlotUsage.mem_privateSlots.mp isPrivate
  have other : caller ≠ writer := fun equal =>
    path.not_mem_of_isReentry single (equal ▸ above)
  have different : slot ≠ written := fun equal =>
    other (SlotUsage.eq_of_mem_slotsOf isCaller.2.1 isCaller.1 (equal ▸ isWritten))
  obtain ⟨first, second, inFirst, inSecond, exclusive⟩ :=
    SlotAssignment.exclusive_of_same_cell build.assigned (cell?_eq_cellOf isCaller.1)
      (same ▸ cell?_eq_cellOf isWritten) different
  have isSecond := SlotUsage.mem_privateSlots.mp inSecond
  have isFirst : caller = .subroutine first :=
    SlotUsage.eq_of_mem_slotsOf isCaller.2.1 isCaller.1 (SlotUsage.mem_privateSlots.mp inFirst).1
  have isSecond : writer = .subroutine second :=
    SlotUsage.eq_of_mem_slotsOf isSecond.2.1 isWritten isSecond.1
  have hasFirst : .subroutine first ∈ front ++ .subroutine callee :: caller :: chain := by
    simp [← isFirst]
  have hasSecond : .subroutine second ∈ front ++ .subroutine callee :: caller :: chain := by
    rw [← isSecond, ← List.singleton_append, ← List.append_assoc]
    exact List.mem_append_left _ above
  have together := path.not_exclusive hasFirst hasSecond fun equal =>
    other (by rw [isFirst, isSecond, equal])
  have exclusive : build.callGraph.exclusive first second = true := exclusive
  rw [together] at exclusive
  cases exclusive

/-- What routines store that are active above waiting activations is none of the slots of these. -/
theorem Waits.writes {writer : Routine} {front : List Routine}
    (path : build.callGraph.IsPath (front ++ (top :: rest).map Activation.routine))
    (active : writer ∈ front ++ [top.routine]) (writes : build.Writes writer memory later)
    (waits : build.Waits memory top rest frames) : build.Waits later top rest frames := by
  induction waits generalizing front with
  | none => exact .none
  | @call top caller rest line position frames flat isFlat unset resumes further ih =>
    have path' : build.callGraph.IsPath
        ((front ++ [top.routine]) ++ (caller :: rest).map Activation.routine) := by
      simpa using path
    refine .call isFlat unset ?_ (ih path' (List.mem_append_left _ active))
    cases resumes with
    | saved surrounded isCallee isLine isBelow reflects =>
      exact .saved surrounded isCallee isLine isBelow reflects
    | plain standing calls isCallee isLine reflects =>
      refine .plain standing calls isCallee isLine fun slot isPrivate value stored => ?_
      rw [← reflects slot isPrivate value stored]
      cases writes with
      | nothing same => rw [Link.Resolver.valueIn, same, Link.Resolver.valueIn]
      | slot isWritten written =>
        rw [Link.Resolver.valueIn, written]
        refine get_set_of_ne _ _ ?_
        rw [isCallee] at active
        rw [List.map_cons, List.map_cons, isCallee] at path
        rcases standing.single _ calls with single | none
        · exact cellOf_ne path single active isWritten isPrivate
        · exact absurd (mem_localsOf_of_private isPrivate) (by simp [none])

theorem Waits.writes_top (path : build.callGraph.IsPath ((top :: rest).map Activation.routine))
    (writes : build.Writes top.routine memory later) (waits : build.Waits memory top rest frames) :
    build.Waits later top rest frames := by
  have whole : build.callGraph.IsPath ([] ++ (top :: rest).map Activation.routine) := path
  exact waits.writes whole (by simp) writes

/-- A call. -/
theorem Serves.resumes {id : SubroutineId} (made : before.Made)
    (calls : CallGraph.callee? instr = some id)
    (serves : build.Serves limits env flat memory top index position instr) :
    build.Resumes memory (.enter (.subroutine id) memory.stack) top flat position
      (Link.lineOf build.table top.routine (index + 1)) := by
  cases serves with
  | standing standing isIndex reflects =>
    exact .plain standing calls rfl (by rw [isIndex]) reflects
  | calling surrounded isIndex reflects executes =>
    have same := surrounded.calls
    rw [calls] at same
    cases same
    have few := made.argCount_lt (build.sameDeclarations.declared ▸ surrounded.isDeclared)
    have isBelow := executes.drop_saves few surrounded.surrounds.low
    exact .saved surrounded rfl (by rw [isIndex, Nat.add_assoc]) isBelow reflects
  | saving surrounded split =>
    have inserted := surrounded.surrounds.inserted_of_mem_saves (by simp [split] : instr ∈ _)
    rw [inserted.callee?] at calls
    cases calls
  | restoring surrounded split =>
    have inserted := surrounded.surrounds.inserted_of_mem_restores (by simp [split] : instr ∈ _)
    rw [inserted.callee?] at calls
    cases calls

/-- A return to a waiting activation. -/
theorem Resumes.resides {callee : Activation} {own : List Value}
    (isFlat : build.flat.lookup caller.routine = some flat)
    (unset : build.LeavesUnset flat caller position)
    (isStack : memory.stack = own ++ callee.below before)
    (count : own.length = before.results callee.routine)
    (resumes : build.Resumes memory callee caller flat position line) :
    build.Resides limits env memory caller line := by
  cases resumes with
  | plain standing calls isCallee isLine reflects =>
    exact .intro isFlat (congrArg build.code.fetch isLine) (unset.past_call standing.here calls)
      (.between standing.startOf_succ.symm reflects)
  | @saved _ id handle low lower saved below surrounded isCallee isLine isBelow reflects =>
    have isDeclared : before.declared id = some handle :=
      build.sameDeclarations.declared ▸ surrounded.isDeclared
    have rescues : build.Rescues caller.routine handle saved memory.stack := by
      refine ⟨own, below, ?_, ?_⟩
      · rw [count, isCallee]
        simp [Program.results, Returns.results, isDeclared]
      · have argCount : before.argCount callee.routine = handle.argCount := by
          rw [isCallee]
          simp [Program.argCount, isDeclared]
        rw [isStack, Activation.below, argCount, isBelow]
    have nears : build.Nears caller.routine line
        (build.startOf caller.routine flat position +
          ((Spill.saves (build.localsOf caller.routine) low).length + 1)) :=
      congrArg build.code.fetch isLine
    cases split : Spill.restores (build.localsOf caller.routine) lower with
    | nil =>
      have executes : build.Executes limits env caller.routine
          (Spill.restores (build.localsOf caller.routine) lower) memory memory := by
        rw [split]
        exact .nil
      refine .intro isFlat nears (unset.past_call surrounded.here surrounded.calls)
        (.between ?_ (reflects_of_restores surrounded.surrounds reflects rescues executes))
      rw [startOf_behind surrounded.here surrounded.expands, split]
      rfl
    | cons first todo =>
      exact .intro isFlat nears unset
        (.serving (.restoring surrounded (split.trans (List.nil_append _).symm) rfl reflects
          rescues .nil))

/-! ## Runs -/

/-- The activation at hand finds below its arguments what was there on entry, and returns with
nothing but its results on top of that. -/
structure KeepsBelow (build : Build main options before) (state : State) (activation : Activation) :
    Prop where
  own : ∃ own, state.memory.stack = own ++ activation.below before ∧
    ∀ line arguments, build.code.fetch state.line = some (line, .retsub, arguments) →
      own.length = before.results activation.routine

/-- The instruction at hand is one of the routine of the activation, and it names the slot that it
stores to, the subroutine that it calls or the label that it branches to. -/
def Orderly (build : Build main options before) (state : State) (activation : Activation) : Prop :=
  ∃ line op arguments instr inserted, build.code.fetch state.line = some (line, op, arguments) ∧
    build.origins[line]? = some ⟨activation.routine, some (.instr instr), inserted⟩ ∧
    instr.isNamed = true

/-- A state that a run comes to, with the activations at that time, if every activation has kept
to its routine and to its part of the stack. -/
inductive Proceeds (build : Build main options before) (limits : Limits) (env : Environment) :
    State → List Activation → Prop where
  | start : Proceeds build limits env (State.initial env) [.enter .main []]
  | step {state next : State} {top : Activation} {rest : List Activation} :
      Proceeds build limits env state (top :: rest) → build.KeepsBelow state top →
      build.Orderly state top → state.step limits env build.code = .ok (.running next) →
      Proceeds build limits env next (build.advance state next (top :: rest))

/-- What is kept of the slots of all activations. -/
structure Isolated (build : Build main options before) (limits : Limits) (env : Environment)
    (state : State) (top : Activation) (rest : List Activation) : Prop where
  resides : build.Resides limits env state.memory top state.line
  waits : build.Waits state.memory top rest state.frames
  path : build.callGraph.IsPath ((top :: rest).map Activation.routine)

theorem op_ne_stores (build : Build main options before)
    (noStores : .stores ∉ build.assembly.opcodes) {found : Nat}
    (fetched : build.code.fetch line = some (found, op, arguments)) :
    op ≠ .stores := by
  rintro rfl
  have there := (Machine.Code.of_fetch fetched).2
  rw [lines_code] at there
  exact noStores (List.mem_filterMap.mpr ⟨_, List.mem_of_getElem? there, rfl⟩)

/-- A step keeps the slots of all activations. -/
theorem Isolated.step (made : before.Made) (noStores : .stores ∉ build.assembly.opcodes)
    (orderly : build.Orderly state top) (keeps : build.KeepsBelow state top)
    (isolated : build.Isolated limits env state top rest)
    (steps : state.step limits env build.code = .ok (.running next)) :
    ∃ top' rest', build.advance state next (top :: rest) = top' :: rest' ∧
      build.Isolated limits env next top' rest' := by
  obtain ⟨_, _, _, instr, _, fetched, isOrigin, named⟩ := orderly
  obtain ⟨code, index, _, _, finds⟩ := exists_finds fetched isOrigin
  cases finds.leads named steps with
  | straight goes noCall noJump executed isLine frames =>
    obtain ⟨inserted, atIndex, advanced⟩ : ∃ inserted,
        code[index]? = some ⟨.instr instr, inserted⟩ ∧
          build.advance state next (top :: rest) = _ := advance_straight finds goes noCall
    obtain ⟨flat, position, isFlat, rfl, unset, serves⟩ := isolated.resides.exists_serves finds
    have noStores := build.op_ne_stores noStores finds.fetched
    have writes := writes_of_execute named finds.resolved executed noStores
      fun slot others _ operands => serves.mem_slotsOf isFlat operands
    have waits := isolated.waits.writes_top isolated.path writes
    refine ⟨_, _, advanced, ?_, ?_, ?_⟩
    · rw [isLine]
      exact serves.straight isFlat atIndex named goes noCall noJump noStores finds.resolved
        executed unset
    · rw [frames]
      cases inserted <;> exact waits.congr rfl rfl
    · cases inserted <;> exact isolated.path
  | jump branches isLabel isPlace scratch isLine frames =>
    refine ⟨top, rest, advance_branch finds branches, ?_, ?_, isolated.path⟩
    · rw [isLine]
      exact isolated.resides.jump finds branches isLabel isPlace scratch
    · rw [frames]
      exact isolated.waits.writes_top isolated.path (.nothing scratch)
  | @call id _ calls isCallee isMemory isLine frames =>
    obtain ⟨flat, position, isFlat, _, unset, serves⟩ := isolated.resides.exists_serves finds
    have isEntered := isCallee
    rw [lookup_table, Option.map_eq_some_iff] at isEntered
    obtain ⟨body, isBody, _⟩ := isEntered
    refine ⟨_, _, advance_call finds (CallGraph.callee?_eq_some.mp calls).1 isCallee isLine,
      ?_, ?_, ?_⟩
    · rw [isLine]
      exact .intro isBody (nears_firstLine isCallee) (fun _ _ _ => .start)
        (.between startOf_zero.symm fun _ _ _ stored => by cases stored)
    · rw [isMemory, frames]
      exact .call isFlat unset (serves.resumes made calls) isolated.waits
    · exact List.isChain_cons_cons.mpr ⟨⟨id, rfl, finds.mem_callees calls⟩, isolated.path⟩
  | back isReturn isMemory frames =>
    obtain ⟨own, isStack, count⟩ := keeps.own
    obtain ⟨_, waits, path⟩ := isolated
    rw [frames] at waits
    cases waits with
    | call isFlat unset resumes further =>
      rw [← isMemory] at isStack resumes further
      refine ⟨_, _, advance_back finds isReturn, ?_, further, (List.isChain_cons_cons.mp path).2⟩
      exact resumes.resides isFlat unset isStack (count _ _ (isReturn ▸ finds.fetched))

/-- Slots are kept apart in a whole run. -/
theorem Proceeds.isolated (made : before.Made) (noStores : .stores ∉ build.assembly.opcodes)
    {chain : List Activation} (proceeds : build.Proceeds limits env state chain) :
    ∃ top rest, chain = top :: rest ∧ build.Isolated limits env state top rest := by
  induction proceeds with
  | start =>
    obtain ⟨flat, isFlat⟩ := Option.ne_none_iff_exists'.mp (Keyed.mem_keys_iff.mp build.present)
    have first : 0 = Link.lineOf build.table .main 0 := by rw [Link.lineOf, build.firstLine_main]; rfl
    exact ⟨_, _, rfl, .intro isFlat (congrArg build.code.fetch first) (fun _ _ _ => .start)
      (.between startOf_zero.symm fun _ _ _ stored => by cases stored), .none,
      List.isChain_singleton _⟩
  | step _ keeps orderly steps ih =>
    obtain ⟨top, rest, isChain, isolated⟩ := ih
    obtain ⟨rfl, rfl⟩ := List.cons.inj isChain
    exact isolated.step made noStores orderly keeps steps

/-! ## Loads -/

/-- A load of a private slot by the activation at hand, unless it is there to save the slot,
yields what the activation has stored to the slot last. -/
def YieldsLast (build : Build main options before) (limits : Limits) (env : Environment)
    (state : State) (activation : Activation) : Prop :=
  ∀ line arguments instr slot, build.code.fetch state.line = some (line, .load, arguments) →
    build.origins[line]? = some ⟨activation.routine, some (.instr instr), false⟩ →
    instr.operands.head? = some (.slot slot) →
    slot ∈ build.usage.privateSlots activation.routine →
    ∃ value, activation.stored slot = some value ∧
      ∀ next, state.step limits env build.code = .ok (.running next) →
        next.memory.stack = value :: state.memory.stack

theorem Isolated.yieldsLast (isolated : build.Isolated limits env state top rest) :
    build.YieldsLast limits env state top := by
  intro line arguments instr slot fetched isOrigin head isPrivate
  obtain ⟨code, index, rfl, atIndex, finds⟩ := exists_finds fetched isOrigin
  obtain ⟨others, operands⟩ := List.head?_eq_some_iff.mp head
  have isOp : instr.op = .load := by
    have same := finds.fetched
    rw [fetched] at same
    exact (congrArg (fun found => found.2.1) (Option.some.inj same)).symm
  have loads : instr.loadsFrom slot = true := by
    simp [Instr.loadsFrom_iff, isOp, Instr.directSlot?, operands, List.findSome?_cons, Operand.slot?]
  obtain ⟨flat, position, isFlat, rfl, unset, serves⟩ := isolated.resides.exists_serves finds
  cases serves with
  | saving surrounded split isIndex =>
    rw [isIndex, getElem?_before surrounded.here surrounded.expands (getElem?_of_split split)]
      at atIndex
    cases atIndex
  | restoring surrounded split isIndex =>
    rw [isIndex, getElem?_behind surrounded.here surrounded.expands (getElem?_of_split split)]
      at atIndex
    cases atIndex
  | calling surrounded =>
    rw [surrounded.op_eq] at isOp
    cases isOp
  | standing standing _ reflects =>
    cases stored : top.stored slot with
    | none =>
      -- Control has come to the load with nothing stored, so that it would not be there.
      have never := SlotInit.loadsFrom_eq_false (build.initialized _ (mem_of_lookup isFlat))
        isPrivate (unset slot isPrivate stored) standing.here
      rw [loads] at never
      cases never
    | some value =>
      refine ⟨value, rfl, fun next steps => ?_⟩
      obtain ⟨⟨isFetched, executed, goes⟩, _⟩ := State.of_step_eq_ok steps
      rw [fetched] at isFetched
      cases isFetched
      have resolved := finds.resolved
      rw [operands] at resolved
      obtain ⟨_, rfl⟩ := Link.Resolver.arguments_of_slot resolved
      obtain ⟨_, rfl, rfl⟩ := Machine.execute_load_eq_ok.mp executed
      cases goes
      rw [← reflects slot isPrivate value stored]
      rfl

/-- What is executed at a safe place is in order. -/
theorem Certified.orderly (certified : build.Certified gauge start)
    (stands : build.Stands gauge top.routine state.line level) : build.Orderly state top := by
  obtain ⟨code, index, instr, arguments, fetches⟩ := stands.fetch
  obtain ⟨inserted, _, isOrigin⟩ := fetches.exists_origin
  exact ⟨_, _, _, instr, inserted, fetches.fetched, isOrigin, certified.isNamed fetches⟩

end Build

/-! ## Programs -/

/-- Whether all instructions that an expression becomes name the slots and subroutines that they
access, and code given instruction by instruction has no branches and ends as it is said to. -/
def Expr.isTidy (main : Bool) (expr : Expr) : Bool := expr.emits main Instr.isTidy && expr.isProper

theorem Expr.fits_tidy {main : Bool} {expr : Expr} (tidy : expr.isTidy main = true) :
    expr.Fits main .tidy none := by
  rw [isTidy, Bool.and_eq_true] at tidy
  exact ⟨tidy.1, tidy.2, nofun⟩

namespace Build

variable {main : Expr} {options : CompileOptions} {before : Program}

/-- Activations have their own slots. In every run in which each activation keeps to its routine
and to its part of the stack, a load of a private slot, other than those that save slots, yields
what the same activation has stored to the slot last. Tidy code keeps to its routines. -/
theorem loads_yield_last_store {artifact : Artifact} {after : Program} (made : before.Made)
    (compiled : (compile main options).run before = (.ok artifact, after))
    (noStores : .stores ∉ artifact.assembly.opcodes) :
    ∃ build : Build main options before, build.artifact = artifact ∧
      List.Forall₂ (Link.Resolves build.resolver) build.origins artifact.assembly.lines ∧
      (∀ limits env state chain, build.Proceeds limits env state chain →
        ∃ activation rest, chain = activation :: rest ∧
          build.YieldsLast limits env state activation) ∧
      (main.isTidy true = true → (before.BodiesHave fun body => body.isTidy false = true) →
        ∀ limits env state chain, build.Reaches limits env state chain →
          ∃ activation rest, chain = activation :: rest ∧ build.Orderly state activation) := by
  obtain ⟨build, rfl, _⟩ := run_compile_eq_ok.mp compiled
  refine ⟨build, rfl, build.isListed.resolved, fun limits env state chain proceeds => ?_,
    fun tidy bodies limits env state chain reaches => ?_⟩
  · obtain ⟨top, rest, rfl, isolated⟩ := proceeds.isolated made noStores
    exact ⟨top, rest, rfl, isolated.yieldsLast⟩
  · have certified := build.certified Dialect.complete_tidy (fun _ _ admitted => admitted)
      (Expr.fits_tidy tidy) (bodies.mono fun _ tidy => Expr.fits_tidy tidy) nofun
    obtain ⟨top, rest, _, rfl, kept⟩ :=
      certified.exists_kept (build.sustains_true _ _ limits env) reaches
    exact ⟨top, rest, rfl, certified.orderly kept.stands⟩

/-- Activations of disciplined code keep to their routines and to their parts of the stack. -/
theorem proceeds_of_reaches (build : Build main options before) (made : before.Made)
    (disciplined : main.disciplined = true)
    (bodies : before.BodiesHave fun body => body.disciplined = true) {limits : Limits}
    {env : Environment} {state : State} {chain : List Activation}
    (reaches : build.Reaches limits env state chain) : build.Proceeds limits env state chain := by
  have certified := build.certified_disciplined made disciplined bodies
  induction reaches with
  | start => exact .start
  | step reaches steps ih =>
    obtain ⟨top, rest, level, rfl, kept⟩ :=
      certified.exists_kept (build.sustains_owns .regular limits env) reaches
    have conforms : build.Conforms limits env _ top := conforms_of_kept kept
    obtain ⟨own, isStack, touches⟩ := conforms.own
    exact ih.step ⟨own, isStack, fun line arguments fetched =>
      (touches line _ arguments fetched).2.1 rfl⟩ (certified.orderly kept.stands) steps

theorem loads_yield_last_store_factorial :
    factorialProgram.Made ∧
      ∃ artifact after, (compile factorialMain { optimize := .all }).run factorialProgram =
          (.ok artifact, after) ∧ .stores ∉ artifact.assembly.opcodes ∧
        ∃ build : Build factorialMain { optimize := .all } factorialProgram,
          build.artifact = artifact ∧
          List.Forall₂ (Link.Resolves build.resolver) build.origins artifact.assembly.lines ∧
          ∀ limits env state chain, build.Reaches limits env state chain →
            ∃ activation rest, chain = activation :: rest ∧ build.Orderly state activation ∧
              build.YieldsLast limits env state activation := by
  have opcodes : ((compile factorialMain { optimize := .all }).run
      factorialProgram).1.toOption.any fun artifact =>
        decide (.stores ∉ artifact.assembly.opcodes) := by
    decide +kernel
  obtain ⟨artifact, after, compiled⟩ := exists_compile_factorial
  have noStores : .stores ∉ artifact.assembly.opcodes := by
    simpa [compiled, Except.toOption] using opcodes
  obtain ⟨build, isArtifact, resolved, yields, orderly⟩ :=
    loads_yield_last_store made_factorialProgram compiled noStores
  refine ⟨made_factorialProgram, artifact, after, compiled, noStores, build, isArtifact, resolved,
    fun limits env state chain reaches => ?_⟩
  obtain ⟨top, rest, rfl, yieldsLast⟩ := yields limits env state chain
    (build.proceeds_of_reaches made_factorialProgram rfl (bodies_factorialProgram rfl) reaches)
  obtain ⟨_, _, isChain, inOrder⟩ := orderly (by decide) (bodies_factorialProgram (by decide)) limits
    env state (top :: rest) reaches
  obtain ⟨rfl, rfl⟩ := List.cons.inj isChain
  exact ⟨top, rest, rfl, inOrder, yieldsLast⟩

/-! ## Cells given by number, and code that runs on -/

/-- Whether the instruction at hand loads a private slot and yields something else than what the
activation has stored to it last. -/
def forgets (build : Build main options before) (state : State) (activation : Activation) : Bool :=
  match build.code.fetch state.line, state.step {} {} build.code with
  | some (line, .load, _), .ok (.running next) =>
    match build.origins[line]? with
    | some ⟨routine, some (.instr ⟨_, .slot slot :: _⟩), false⟩ =>
        decide (routine = activation.routine ∧ slot ∈ build.usage.privateSlots routine ∧
          next.memory.stack.head? ≠ activation.stored slot)
    | _ => false
  | _, _ => false

theorem not_yieldsLast_of_forgets {build : Build main options before} {state : State}
    {activation : Activation} (forgets : build.forgets state activation = true) :
    ¬ build.YieldsLast {} {} state activation := by
  intro yields
  rw [Build.forgets] at forgets
  split at forgets
  next line arguments next fetched steps =>
    split at forgets
    next routine op slot others isOrigin =>
      obtain ⟨rfl, isPrivate, differs⟩ := of_decide_eq_true forgets
      obtain ⟨value, stored, pushed⟩ := yields line arguments _ slot fetched isOrigin rfl isPrivate
      rw [pushed next steps, stored] at differs
      exact differs rfl
    next => cases forgets
  next => cases forgets

end Build

/-- A subroutine that keeps its argument in a slot while it calls another one. -/
def keeper : Handle := ⟨1, "g", 1, .value .uint64⟩

def keptArgument : Var := ⟨⟨0, none⟩, .any⟩

/-- The other one is given instruction by instruction. -/
def keeperProgram (code : InlineCode) : Program where
  slots := (SlotSupply.draw {} none).2
  subroutines := #[⟨plain, [], .pending [] fun _ => (.inline code, [])⟩,
    ⟨keeper, [keptArgument], .pending [] fun _ =>
      (.seq [.ifThen keptArgument.load (.unary .pop (.call plain [])), keptArgument.load], [])⟩]

theorem made_keeperProgram (code : InlineCode) : (keeperProgram code).Made :=
  Program.Made.define (Program.Made.define .empty "f" 0 (.value .uint64) [] fun _ =>
    (.inline code, [])) "g" 1 (.value .uint64) [] _

/-- Code that stores to a cell given by its number. -/
def meddling : InlineCode := ⟨.uint64, 2, false, [.int 9, .immediate .store 0, .int 7]⟩

/-- Code that is said to terminate and runs on into the next routine. -/
def straying : InlineCode := ⟨.none, 2, true, [.int 0]⟩

/-- Neither leaves the slot alone: what is loaded from it is not what has been stored last. -/
theorem numbered_store_overwrites_slot : [meddling, straying].Forall fun code =>
    (keeperProgram code).Made ∧
      ∃ build : Build (.retValue (.call keeper [.int 1])) {} (keeperProgram code),
        ∃ state activation rest, build.Reaches {} {} state (activation :: rest) ∧
          ¬ build.YieldsLast {} {} state activation := by
  refine List.forall_iff_forall_mem.mpr fun code member => ⟨made_keeperProgram code, ?_⟩
  obtain ⟨count, forgets⟩ : ∃ count, (Build.make? (.retValue (.call keeper [.int 1])) {}
      (keeperProgram code)).any (Build.holdsAfter count Build.forgets) = true := by
    simp only [List.mem_cons, List.not_mem_nil, or_false] at member
    rcases member with rfl | rfl
    · exact ⟨11, by decide +kernel⟩
    · exact ⟨13, by decide +kernel⟩
  obtain ⟨build, state, activation, rest, reaches, forgets⟩ := Build.exists_reaches count forgets
  exact ⟨build, state, activation, rest, reaches, Build.not_yieldsLast_of_forgets forgets⟩

end ContractBackend
