import ContractBackend.CallGraph
import ContractBackend.Proofs.Control
import ContractBackend.Proofs.Machine.Effects
import ContractBackend.Proofs.Optimize.Rewriting

/-!
# The ideal machine

A machine that runs the flat code of routines as it is, before slots have cells and before they
are saved around calls. Every activation has a stack of its own, and slots of its own that no
other activation can touch; all other slots are shared. The machine charges the steps, and the
room on the stack, that saving slots around a call will take.

An instruction of the ideal machine depends on the values of its activation and on the slots that
it loads. With fewer values below, or with other values in slots that are not loaded, it does the
same. Plain instructions change nothing but the topmost values.
-/

namespace ContractBackend

open Machine (Limits Environment Value Effect Flow)

/-- What an instruction that accesses no slots can tell of an operand. -/
def Operand.bare? : Operand → Option Argument
  | .uint value => some (.uint value)
  | .bytes value => some (.bytes value)
  | .text value => some (.text value)
  | .name value => some (.name value)
  | .label _ | .subroutine _ => some (.label "")
  | .slot _ | .slotIndex _ => none

namespace Ideal

/-- What an activation works on. -/
structure Memory where
  /-- The values of the activation, top first. -/
  stack : List Value
  /-- The slots that have a value. -/
  slots : Slot → Option Value
  effects : Array Effect
  appState : List (List UInt8 × Value)

namespace Memory

/-- The memory without its slots. -/
def bare (memory : Memory) : Machine.Memory where
  stack := memory.stack
  scratch := Vector.replicate cellCount (.uint 0)
  effects := memory.effects
  appState := memory.appState

/-- The memory with everything but its slots replaced. -/
def take (memory : Memory) (other : Machine.Memory) : Memory where
  stack := other.stack
  slots := memory.slots
  effects := other.effects
  appState := other.appState

end Memory

/-- An instruction is executed by an activation that has a number of values below its own. -/
inductive Acts (limits : Limits) (env : Environment) (below : Nat) :
    Instr → Memory → Flow → Memory → Prop where
  | load {slot : Slot} {others : List Operand} {memory : Memory} {value : Value} :
      memory.slots slot = some value → memory.stack.length + below < limits.maxStack →
      Acts limits env below ⟨.load, .slot slot :: others⟩ memory .next
        { memory with stack := value :: memory.stack }
  | store {slot : Slot} {others : List Operand} {memory : Memory} {value : Value}
      {rest : List Value} : memory.stack = value :: rest →
      Acts limits env below ⟨.store, .slot slot :: others⟩ memory .next
        { memory with stack := rest, slots := Function.update memory.slots slot (some value) }
  | plain {instr : Instr} {arguments : List Argument} {memory : Memory} {flow : Flow}
      {after : Machine.Memory} : instr.op.accessesScratch = false →
      instr.operands.mapM Operand.bare? = some arguments →
      Machine.execute (limits.above below) env ⟨instr.op, 0⟩ arguments memory.bare =
        .ok (flow, after) →
      Acts limits env below instr memory flow (memory.take after)

/-- Code without branches and calls is executed from its start to its end. -/
inductive Runs (limits : Limits) (env : Environment) (below : Nat) :
    List Instr → Memory → Memory → Prop where
  | nil {memory : Memory} : Runs limits env below [] memory memory
  | cons {instr : Instr} {rest : List Instr} {memory middle after : Memory} :
      Acts limits env below instr memory .next middle → Runs limits env below rest middle after →
      Runs limits env below (instr :: rest) memory after

/-! ## Routines -/

/-- The routines of a program, and how they use their slots. -/
structure Setting where
  /-- The code of the routines. -/
  code : Routine → Option FlatCode
  declared : SubroutineId → Option Handle
  /-- The slots that every activation has its own of. -/
  isOwn : Slot → Bool
  /-- The slots of a routine that are saved around its calls of a subroutine. -/
  saved : Routine → SubroutineId → List Slot

/-- An activation that waits for a call to return. -/
structure Frame where
  routine : Routine
  /-- Where the call stands. -/
  position : Nat
  callee : SubroutineId
  /-- The values of the activation, without the arguments of the call. -/
  stack : List Value
  /-- The slots at the time of the call. -/
  slots : Slot → Option Value

/-- The state of a run. -/
structure State where
  routine : Routine
  position : Nat
  memory : Memory
  /-- The waiting activations, innermost first. -/
  frames : List Frame

/-- How a run ends. -/
structure Result where
  approved : Bool
  effects : Array Effect
  appState : List (List UInt8 × Value)

/-- How many steps it takes to save slots before a call: each is loaded and, if there are
arguments, moved below them. -/
def savingSteps (slots : List Slot) (handle : Handle) : Nat :=
  slots.length * if handle.argCount = 0 then 1 else 2

/-- How many steps it takes to put slots back: a result is moved below them, and each is
stored. -/
def restoringSteps (slots : List Slot) (handle : Handle) : Nat :=
  slots.length + if handle.returns.isValue && !slots.isEmpty then 1 else 0

namespace Setting

/-- How many values lie below those of the activation at hand. -/
def below (setting : Setting) : List Frame → Nat
  | [] => 0
  | frame :: frames => frame.stack.length + (setting.saved frame.routine frame.callee).length +
      setting.below frames

/-- The slots that a callee finds. -/
def entered (setting : Setting) (slots : Slot → Option Value) (slot : Slot) : Option Value :=
  if setting.isOwn slot then none else slots slot

/-- The slots that a waiting activation finds behind its call. -/
def resumed (setting : Setting) (frame : Frame) (slots : Slot → Option Value) (slot : Slot) :
    Option Value :=
  if setting.isOwn slot || slot ∈ setting.saved frame.routine frame.callee then frame.slots slot
  else slots slot

/-- The state in which every run starts. -/
def initial (setting : Setting) (env : Environment) : State where
  routine := .main
  position := 0
  memory :=
    { stack := []
      slots := fun slot => if setting.isOwn slot then none else some (.uint 0)
      effects := #[]
      appState := env.appState }
  frames := []

end Setting

/-- A step of a run, with the number of steps that it stands for. -/
inductive Step (setting : Setting) (limits : Limits) (env : Environment) :
    State → Nat → State → Prop where
  | label {routine : Routine} {position : Nat} {memory : Memory} {frames : List Frame}
      {flat : FlatCode} {label : Label} : setting.code routine = some flat →
      flat[position]? = some (.label label) →
      Step setting limits env ⟨routine, position, memory, frames⟩ 0
        ⟨routine, position + 1, memory, frames⟩
  | next {routine : Routine} {position : Nat} {memory after : Memory} {frames : List Frame}
      {flat : FlatCode} {instr : Instr} : setting.code routine = some flat →
      flat[position]? = some (.instr instr) →
      Acts limits env (setting.below frames) instr memory .next after →
      Step setting limits env ⟨routine, position, memory, frames⟩ 1
        ⟨routine, position + 1, after, frames⟩
  | jump {routine : Routine} {position target : Nat} {memory after : Memory} {frames : List Frame}
      {flat : FlatCode} {op : Opcode} {label : Label} : setting.code routine = some flat →
      flat[position]? = some (.instr (.branch op label)) →
      Acts limits env (setting.below frames) (.branch op label) memory .jump after →
      flat.labelPosition? label = some target →
      Step setting limits env ⟨routine, position, memory, frames⟩ 1
        ⟨routine, target, after, frames⟩
  | call {routine : Routine} {position : Nat} {memory : Memory} {frames : List Frame}
      {flat callee : FlatCode} {instr : Instr} {id : SubroutineId} {handle : Handle}
      {arguments rest : List Value} : setting.code routine = some flat →
      flat[position]? = some (.instr instr) → CallGraph.callee? instr = some id →
      setting.declared id = some handle → setting.code (.subroutine id) = some callee →
      memory.stack = arguments ++ rest → arguments.length = handle.argCount →
      frames.length < limits.maxCallDepth →
      memory.stack.length + (setting.saved routine id).length + setting.below frames ≤
        limits.maxStack →
      Step setting limits env ⟨routine, position, memory, frames⟩
        (savingSteps (setting.saved routine id) handle + 1)
        ⟨.subroutine id, 0, { memory with stack := arguments, slots := setting.entered memory.slots },
          ⟨routine, position, id, rest, memory.slots⟩ :: frames⟩
  | back {routine : Routine} {position : Nat} {memory : Memory} {frame : Frame}
      {frames : List Frame} {flat : FlatCode} {instr : Instr} {handle : Handle} :
      setting.code routine = some flat → flat[position]? = some (.instr instr) →
      instr.op = .retsub → setting.declared frame.callee = some handle →
      memory.stack.length = (if handle.returns.isValue then 1 else 0) →
      Step setting limits env ⟨routine, position, memory, frame :: frames⟩
        (1 + restoringSteps (setting.saved frame.routine frame.callee) handle)
        ⟨frame.routine, frame.position + 1,
          { memory with
            stack := memory.stack ++ frame.stack
            slots := setting.resumed frame memory.slots }, frames⟩

/-- A run ends after a number of steps. -/
inductive Ends (setting : Setting) (limits : Limits) (env : Environment) :
    State → Nat → Result → Prop where
  | halt {routine : Routine} {position : Nat} {memory after : Memory} {frames : List Frame}
      {flat : FlatCode} {instr : Instr} {approved : Bool} : setting.code routine = some flat →
      flat[position]? = some (.instr instr) →
      Acts limits env (setting.below frames) instr memory (.halt approved) after →
      Ends setting limits env ⟨routine, position, memory, frames⟩ 1
        ⟨approved, after.effects, after.appState⟩
  | step {state next : State} {cost count : Nat} {result : Result} :
      Step setting limits env state cost next → Ends setting limits env next count result →
      Ends setting limits env state (cost + count) result

end Ideal

end ContractBackend

namespace ContractBackend.Ideal

open Machine (Limits Environment Value Flow)

variable {limits : Limits} {env : Environment} {below fewer : Nat} {instr : Instr}
  {instrs rest : List Instr} {memory after other middle : Memory} {flow : Flow} {dead : Slot → Prop}

/-- There is room on the stack for the values of an activation. -/
def Fits (limits : Limits) (below : Nat) (memory : Memory) : Prop :=
  memory.stack.length + below ≤ limits.maxStack

/-- Memories that differ in some slots only. -/
structure Agree (dead : Slot → Prop) (left right : Memory) : Prop where
  stack : right.stack = left.stack
  slots : ∀ slot, ¬ dead slot → right.slots slot = left.slots slot
  effects : right.effects = left.effects
  appState : right.appState = left.appState

theorem Agree.refl (dead : Slot → Prop) (memory : Memory) : Agree dead memory memory :=
  ⟨rfl, fun _ _ => rfl, rfl, rfl⟩

theorem Agree.bare (agree : Agree dead memory other) : other.bare = memory.bare := by
  simp [Memory.bare, agree.stack, agree.effects, agree.appState]

theorem Fits.bare (fits : Fits limits below memory) :
    memory.bare.stack.length ≤ (limits.above below).maxStack :=
  Nat.le_sub_of_add_le fits

namespace Acts

variable (acts : Acts limits env below instr memory flow after)
include acts

theorem flows : instr.op.Flows flow := by
  cases acts with
  | load | store => exact rfl
  | plain _ _ isOk => exact (Machine.flows_of_execute isOk).1

theorem fits (fits : Fits limits below memory) : Fits limits below after := by
  cases acts with
  | load _ room =>
    rw [Fits, List.length_cons]
    omega
  | @store _ _ _ _ rest isStack =>
    rw [Fits, isStack, List.length_cons] at fits
    have less : rest.length + below ≤ limits.maxStack := by omega
    exact less
  | plain _ _ isOk =>
    have inside := Nat.le_trans (Machine.execute_within isOk).1
      (Nat.max_le.mpr ⟨Nat.le_refl _, fits.bare⟩)
    have enough : below ≤ limits.maxStack := Nat.le_of_add_left_le fits
    exact Nat.add_le_of_le_sub enough inside

/-- An instruction does the same with fewer values below, and whatever slots hold that it does not
load. -/
theorem agree (less : fewer ≤ below) (agree : Agree dead memory other)
    (unread : ∀ slot, dead slot → instr.loadsFrom slot = false) :
    ∃ after', Acts limits env fewer instr other flow after' ∧ Agree dead after after' := by
  cases acts with
  | @load slot others _ value isValue room =>
    have alive : ¬ dead slot := fun isDead => by
      simpa [Instr.loadsFrom, Instr.directSlot?, Operand.slot?, List.findSome?_cons]
        using unread slot isDead
    refine ⟨_, .load ((agree.slots slot alive).trans isValue) ?_, ?_⟩
    · rw [agree.stack]
      omega
    · exact ⟨by simp [agree.stack], agree.slots, agree.effects, agree.appState⟩
  | @store slot others _ value rest isStack =>
    refine ⟨_, .store (agree.stack.trans isStack), rfl, fun other alive => ?_, agree.effects,
      agree.appState⟩
    by_cases same : other = slot
    · subst same
      simp
    · simp [Function.update_of_ne same, agree.slots other alive]
  | plain plain isArguments isOk =>
    have more : (limits.above below).maxStack ≤ (limits.above fewer).maxStack :=
      Nat.sub_le_sub_left less _
    have isOk := Machine.execute_wider more isOk 0
    rw [← agree.bare] at isOk
    exact ⟨_, .plain plain isArguments isOk, rfl, agree.slots, rfl, rfl⟩

/-- An instruction has one outcome. -/
theorem unique {flow' : Flow} {after' : Memory}
    (acts' : Acts limits env below instr memory flow' after') : flow' = flow ∧ after' = after := by
  cases acts with
  | load isValue =>
    cases acts' with
    | load isValue' =>
      rw [isValue] at isValue'
      cases isValue'
      exact ⟨rfl, rfl⟩
    | plain plain => cases plain
  | store isStack =>
    cases acts' with
    | store isStack' =>
      rw [isStack] at isStack'
      cases isStack'
      exact ⟨rfl, rfl⟩
    | plain plain => cases plain
  | plain plain isArguments isOk =>
    cases acts' with
    | load | store => cases plain
    | plain _ isArguments' isOk' =>
      rw [isArguments] at isArguments'
      cases isArguments'
      rw [isOk] at isOk'
      cases isOk'
      exact ⟨rfl, rfl⟩

end Acts

namespace Runs

theorem append {others : List Instr} (runs : Runs limits env below instrs memory middle)
    (behind : Runs limits env below others middle after) :
    Runs limits env below (instrs ++ others) memory after := by
  induction runs with
  | nil => exact behind
  | cons acts _ ih => exact .cons acts (ih behind)

theorem of_append {others : List Instr}
    (runs : Runs limits env below (instrs ++ others) memory after) :
    ∃ middle, Runs limits env below instrs memory middle ∧
      Runs limits env below others middle after := by
  induction instrs generalizing memory with
  | nil => exact ⟨memory, .nil, runs⟩
  | cons instr rest ih =>
    cases runs with
    | cons acts runs =>
      obtain ⟨middle, first, second⟩ := ih runs
      exact ⟨middle, .cons acts first, second⟩

theorem fits (runs : Runs limits env below instrs memory after) (fits : Fits limits below memory) :
    Fits limits below after := by
  induction runs with
  | nil => exact fits
  | cons acts _ ih => exact ih (acts.fits fits)

theorem agree (runs : Runs limits env below instrs memory after) (less : fewer ≤ below)
    (agree : Agree dead memory other)
    (unread : ∀ instr ∈ instrs, ∀ slot, dead slot → instr.loadsFrom slot = false) :
    ∃ after', Runs limits env fewer instrs other after' ∧ Agree dead after after' := by
  induction runs generalizing other with
  | nil => exact ⟨other, .nil, agree⟩
  | cons acts _ ih =>
    rw [List.forall_mem_cons] at unread
    obtain ⟨middle, acts', agree⟩ := acts.agree less agree unread.1
    obtain ⟨after', runs, agree⟩ := ih agree unread.2
    exact ⟨after', .cons acts' runs, agree⟩

theorem unique {after' : Memory} (runs : Runs limits env below instrs memory after)
    (runs' : Runs limits env below instrs memory after') : after' = after := by
  induction runs with
  | nil =>
    cases runs'
    rfl
  | cons acts _ ih =>
    cases runs' with
    | cons acts' runs' =>
      obtain ⟨_, rfl⟩ := acts.unique acts'
      exact ih runs'

end Runs

/-! ## Plain instructions -/

/-- The memory with other values. -/
def Memory.on (memory : Memory) (stack : List Value) : Memory := { memory with stack }

theorem bare_on (memory : Memory) (top base : List Value) :
    (memory.on (top ++ base)).bare =
      (memory.on top).bare.onto base (Vector.replicate cellCount (.uint 0)) :=
  rfl

section Plain

variable {top base made : List Value} {effect : StackEffect}

theorem touched_of_isPlain (plain : Dedupe.isPlain instr = true)
    (known : instr.effect? = some effect) (arguments : List Argument) :
    Machine.touched instr.op arguments = effect.pops ∧
      Machine.yielded instr.op arguments = effect.pushes := by
  simp only [Dedupe.isPlain, Bool.and_eq_true, Bool.not_eq_true'] at plain
  exact Machine.touched_of_depth known fun deep => absurd deep (by simp [plain.1.2])

/-- A plain instruction changes nothing but the stack. -/
theorem Acts.eq_on (acts : Acts limits env below instr memory flow after)
    (plain : Dedupe.isPlain instr = true) (known : instr.effect? = some effect) :
    after = memory.on after.stack ∧
      after.stack.length = memory.stack.length - effect.pops + effect.pushes := by
  have quiet : instr.op.hasSideEffects = false := by
    simp only [Dedupe.isPlain, Bool.and_eq_true, Bool.not_eq_true'] at plain
    exact plain.2
  cases acts with
  | load =>
    cases known
    exact ⟨rfl, rfl⟩
  | store => cases quiet
  | @plain _ arguments _ _ after isPlain _ isOk =>
    have performs := (Machine.flows_of_execute isOk).2
    obtain ⟨made, count, isStack⟩ := performs.stack
    obtain ⟨pops, pushes⟩ := touched_of_isPlain plain known arguments
    constructor
    · simp only [Memory.take, Memory.on, Memory.mk.injEq, true_and]
      exact performs.quiet quiet
    · simp only [Memory.take]
      rw [isStack, List.length_append, List.length_drop, count, pops, pushes, Nat.add_comm]
      rfl

/-- A plain instruction does the same whatever lies below the values it works on. -/
theorem Acts.of_append (acts : Acts limits env below instr (memory.on (top ++ base)) flow after)
    (plain : Dedupe.isPlain instr = true) (known : instr.effect? = some effect)
    (enough : effect.pops ≤ top.length) :
    ∃ made, made.length = top.length - effect.pops + effect.pushes ∧
      after = memory.on (made ++ base) ∧
      Acts limits env (below + base.length) instr (memory.on top) flow (memory.on made) := by
  obtain ⟨isOn, _⟩ := acts.eq_on plain known
  suffices found : ∃ other, Acts limits env (below + base.length) instr (memory.on top) flow other ∧
      after.stack = other.stack ++ base by
    obtain ⟨other, actsTop, isStack⟩ := found
    obtain ⟨isOther, count⟩ := actsTop.eq_on plain known
    refine ⟨other.stack, count, isOn.trans ?_, isOther ▸ actsTop⟩
    rw [isStack]
    rfl
  cases acts with
  | @load slot others _ value isValue room =>
    refine ⟨(memory.on top).on (value :: top), .load isValue ?_, rfl⟩
    simp only [Memory.on, List.length_append] at room ⊢
    omega
  | store => simp [Dedupe.isPlain, Opcode.hasSideEffects] at plain
  | @plain _ arguments _ _ after isPlain isArguments isOk =>
    have alike : Machine.Exec.Alike base (Vector.replicate cellCount (.uint 0))
        (Machine.touched instr.op arguments)
        (Machine.execute ((limits.above below).above base.length) env ⟨instr.op, 0⟩ arguments)
        (Machine.execute (limits.above below) env ⟨instr.op, 0⟩ arguments) :=
      Machine.execute_alike instr.op isPlain (List.forall₂_same.mpr fun _ _ => .refl _)
    have same : (limits.above below).above base.length = limits.above (below + base.length) := by
      simp [Machine.Limits.above, Nat.sub_sub]
    have goes := alike (memory.on top).bare
      ((touched_of_isPlain plain known arguments).1 ▸ enough)
    rw [← bare_on, isOk, same] at goes
    split at goes
    next isTop =>
      cases goes
      exact ⟨_, .plain isPlain isArguments isTop, rfl⟩
    next =>
      obtain ⟨_, fails⟩ := goes
      cases fails

/-- Plain code does the same whatever lies below the values it works on. -/
theorem Runs.of_append_stack {position high : Nat}
    (runs : Runs limits env below instrs (memory.on (top ++ base)) after)
    (plain : ∀ instr ∈ instrs, Dedupe.isPlain instr = true)
    (net : StackHeight.checkFrom position instrs top.length = .ok high) :
    ∃ made, made.length = high ∧ after = memory.on (made ++ base) ∧
      Runs limits env (below + base.length) instrs (memory.on top) (memory.on made) := by
  induction instrs generalizing position top with
  | nil =>
    cases runs
    cases net
    exact ⟨top, rfl, rfl, .nil⟩
  | cons instr rest ih =>
    rw [List.forall_mem_cons] at plain
    cases runs with
    | cons acts runs =>
      obtain ⟨effect, known, enough, net⟩ := StackHeight.of_checkFrom_cons net
      obtain ⟨made, count, rfl, actsTop⟩ := acts.of_append plain.1 known enough
      rw [← count] at net
      obtain ⟨last, isLast, isAfter, runsTop⟩ := ih runs plain.2 net
      exact ⟨last, isLast, isAfter, .cons actsTop runsTop⟩

end Plain

end ContractBackend.Ideal
