import ContractBackend.Proofs.Linking
import ContractBackend.Proofs.Machine.Sequences

/-!
# Runs stay in bounds

Every run of every listing ends, and until then it keeps to the bounds of the machine: the height
of the stack, the number of calls, the lines of the listing. Values and cells that an instruction
addresses by a number are there.
-/

namespace ContractBackend.Machine

open Exec

variable {limits : Limits} {env : Environment} {lines : List Line} {state next : State}

/-! ## What is addressed by a number -/

/-- A value or a cell is addressed by a number that is in range, or the instruction fails. -/
structure InRange (limits : Limits) (env : Environment) (line : Nat) (memory : Memory) : Prop where
  dig : ∀ (depth : UInt64) (others : List Argument),
    execute limits env ⟨.dig, line⟩ (.uint depth :: others) memory =
      if inside : depth.toNat < memory.stack.length then
        (do push limits (memory.stack.get ⟨depth.toNat, inside⟩); pure Flow.next : Exec Flow) memory
      else .error (.stackUnderflow ⟨.dig, line⟩)
  uncover : ∀ (depth : UInt64) (others : List Argument),
    execute limits env ⟨.uncover, line⟩ (.uint depth :: others) memory =
      if inside : depth.toNat < memory.stack.length then
        (do push limits (memory.stack.get ⟨depth.toNat, inside⟩); pure Flow.next : Exec Flow)
          { memory with stack := memory.stack.eraseIdx depth.toNat }
      else .error (.stackUnderflow ⟨.uncover, line⟩)
  cover : ∀ (depth : UInt64) (others : List Argument),
    execute limits env ⟨.cover, line⟩ (.uint depth :: others) memory = match memory.stack with
      | [] => .error (.stackUnderflow ⟨.cover, line⟩)
      | value :: below =>
          if depth.toNat ≤ below.length then
            .ok (.next, { memory with stack := below.insertIdx depth.toNat value })
          else .error (.stackUnderflow ⟨.cover, line⟩)
  cell : ∀ index : UInt64, cell index memory =
    if inside : index.toNat < cellCount then .ok (⟨index.toNat, inside⟩, memory)
    else .error (.scratchIndex index)

theorem inRange (limits : Limits) (env : Environment) (line : Nat) (memory : Memory) :
    InRange limits env line memory := by
  constructor
  case dig | uncover =>
    intro depth others
    simp only [execute, bind_apply, depthArgument_apply]
    by_cases inside : depth.toNat < memory.stack.length
    · rw [if_pos inside, dif_pos inside]
      simp only [Fallible.ok_bind, get_apply, List.getElem?_eq_getElem inside]
      rfl
    · rw [if_neg inside, dif_neg inside]
      rfl
  case cover =>
    intro depth others
    simp only [execute, bind_apply, depthArgument_apply, pop_apply]
    cases stack : memory.stack with
    | nil => rfl
    | cons value below =>
      by_cases inside : depth.toNat ≤ below.length
      · simp [inside, Nat.lt_succ_of_le inside, stack, modify_apply, pure_apply]
      · have under : ¬ depth.toNat < (value :: below).length := mt Nat.le_of_lt_succ inside
        rw [if_neg under]
        exact (if_neg inside).symm
  case cell =>
    intro index
    rw [Exec.cell]
    split <;> rfl

/-! ## Where control goes -/

namespace Code

variable {site : Site} {arguments : List Argument}

/-- The search for an instruction passes over labels until there is one or the listing ends. -/
theorem fetch_eq (code : Code) (line : Nat) : code.fetch line = match code.lines[line]? with
    | none => none
    | some (.label _ _) => code.fetch (line + 1)
    | some (.instr op arguments) => some (line, op, arguments) := by
  split
  next none =>
    rw [fetch, Nat.sub_eq_zero_of_le (Array.getElem?_eq_none_iff.mp none)]
    rfl
  next here => exact fetch_label here
  next here => exact fetch_instr here

/-- A label stands on a line of the listing. -/
theorem lt_of_target {line : Nat} (isTarget : (ofLines lines).target site arguments = .ok line) :
    line < lines.length := by
  unfold target at isTarget
  split at isTarget
  next =>
    split at isTarget
    next found =>
      cases isTarget
      obtain ⟨_, here⟩ := mem_labels.mp (mem_of_lookup found)
      exact (List.getElem?_eq_some_iff.mp here).1
    next => cases isTarget
  next => cases isTarget

end Code

namespace State

/-- A state within the bounds of the machine and of a listing. -/
structure InBounds (limits : Limits) (lines : List Line) (state : State) : Prop where
  stack : state.memory.stack.length ≤ limits.maxStack
  cells : state.memory.scratch.toArray.size = 256
  calls : state.frames.length ≤ limits.maxCallDepth
  frames : ∀ frame ∈ state.frames, frame ≤ lines.length
  line : state.line ≤ lines.length
  steps : state.steps ≤ limits.maxSteps

theorem inBounds_initial (limits : Limits) (env : Environment) (lines : List Line) :
    (initial env).InBounds limits lines :=
  ⟨Nat.zero_le _, Vector.size_toArray _, Nat.zero_le _, List.forall_mem_nil _, Nat.zero_le _,
    Nat.zero_le _⟩

theorem InBounds.step (within : state.InBounds limits lines)
    (isOk : state.step limits env (.ofLines lines) = .ok (.running next)) :
    next.InBounds limits lines := by
  obtain ⟨@⟨line, op, arguments, _, memory, fetched, executed, goes⟩, inTime⟩ := of_step_eq_ok isOk
  have stack : memory.stack.length ≤ limits.maxStack :=
    Nat.le_trans (flows_of_execute executed).2.fits (Nat.max_le.mpr ⟨Nat.le_refl _, within.stack⟩)
  have here : (Code.ofLines lines).lines[line]? = some (.instr op arguments) :=
    (Code.of_fetch fetched).2
  have behind : line + 1 ≤ lines.length := by
    rw [Code.ofLines, List.getElem?_toArray] at here
    exact (List.getElem?_eq_some_iff.mp here).1
  have cells : memory.scratch.toArray.size = 256 := Vector.size_toArray _
  cases goes with
  | next => exact ⟨stack, cells, within.calls, within.frames, behind, inTime⟩
  | jump isTarget =>
    exact ⟨stack, cells, within.calls, within.frames,
      Nat.le_of_lt (Code.lt_of_target isTarget), inTime⟩
  | call shallow isTarget =>
    exact ⟨stack, cells, shallow, List.forall_mem_cons.mpr ⟨behind, within.frames⟩,
      Nat.le_of_lt (Code.lt_of_target isTarget), inTime⟩
  | back isFrames =>
    have calls := within.calls
    have frames := within.frames
    rw [isFrames] at calls frames
    rw [List.forall_mem_cons] at frames
    exact ⟨stack, cells, Nat.le_of_succ_le calls, frames.2, frames.1, inTime⟩

theorem InBounds.advance {count : Nat} (within : state.InBounds limits lines)
    (isOk : state.advance limits env (.ofLines lines) count = .ok (.running next)) :
    next.InBounds limits lines := by
  induction count generalizing state with
  | zero =>
    cases isOk
    exact within
  | succ count ih =>
    obtain ⟨progress, isStep, isOk⟩ := Fallible.bind_eq_ok.mp isOk
    cases progress with
    | running middle => exact ih (within.step isStep) isOk
    | ended => cases isOk

/-- A run that is granted enough steps comes to a state whose step ends it or fails. -/
theorem exists_last_step {count : Nat} {code : Code} (inTime : state.steps ≤ limits.maxSteps)
    (granted : limits.maxSteps < state.steps + count) :
    ∃ number, state.steps + number ≤ limits.maxSteps ∧
      ∃ last, state.advance limits env code number = .ok (.running last) ∧
        last.step limits env code = (state.run limits env code count).map .ended := by
  induction count generalizing state with
  | zero => exact absurd granted (Nat.not_lt.mpr inTime)
  | succ count ih =>
    rw [run]
    cases isStep : state.step limits env code with
    | error fault => exact ⟨0, inTime, state, rfl, isStep⟩
    | ok progress =>
      cases progress with
      | ended outcome => exact ⟨0, inTime, state, rfl, isStep⟩
      | running middle =>
        obtain ⟨moves, left⟩ := of_step_eq_ok isStep
        have steps := moves.steps
        obtain ⟨number, few, last, isLast, ends⟩ := @ih middle (by omega) (by omega)
        refine ⟨number + 1, by omega, last, ?_, ends⟩
        rw [State.advance, isStep]
        exact isLast

/-- A step that also looks at the height of the stack before it executes an instruction. -/
def guardedStep (limits : Limits) (env : Environment) (code : Code) (state : State) :
    Except Fault Progress :=
  if (code.fetch state.line).isSome ∧ state.steps < limits.maxSteps ∧
      limits.maxStack < state.memory.stack.length then
    .error (.stackLimitExceeded limits.maxStack)
  else state.step limits env code

def guardedRun (limits : Limits) (env : Environment) (code : Code) :
    Nat → State → Except Fault Outcome
  | 0, _ => .error (.stepLimitExceeded limits.maxSteps)
  | count + 1, state =>
      match state.guardedStep limits env code with
      | .error fault => .error fault
      | .ok (.ended outcome) => .ok outcome
      | .ok (.running next) => next.guardedRun limits env code count

/-- The stack is never found too high before an instruction: pushing looks at its height. -/
theorem guardedRun_eq (within : state.InBounds limits lines) (count : Nat) :
    state.guardedRun limits env (.ofLines lines) count =
      state.run limits env (.ofLines lines) count := by
  induction count generalizing state with
  | zero => rfl
  | succ count ih =>
    have passes : state.guardedStep limits env (.ofLines lines) =
        state.step limits env (.ofLines lines) :=
      if_neg fun high => Nat.not_lt.mpr within.stack high.2.2
    rw [guardedRun, run, passes]
    rcases isStep : state.step limits env (.ofLines lines) with fault | next | outcome
    · rfl
    · exact ih (within.step isStep)
    · rfl

end State

/-- Runs end and stay in bounds, whatever the listing, the surroundings and the bounds. A run
takes no more steps than granted until one ends it or fails. Every state that it comes to is within
the bounds of the machine, and so are the steps of an outcome. The search for the next instruction
only passes over labels, and values and cells are addressed in range. -/
theorem runs_stay_in_bounds (assembly : Assembly) (env : Environment) (limits : Limits) :
    let code := Code.ofLines assembly.lines
    (∃ count last, count ≤ limits.maxSteps ∧
      (State.initial env).advance limits env code count = .ok (.running last) ∧
        last.step limits env code = (run assembly env limits).map .ended) ∧
      (∀ count state, (State.initial env).advance limits env code count = .ok (.running state) →
        state.InBounds limits assembly.lines) ∧
      (∀ outcome, run assembly env limits = .ok outcome → outcome.steps ≤ limits.maxSteps) ∧
      (∀ line, code.fetch line = match code.lines[line]? with
        | none => none
        | some (.label _ _) => code.fetch (line + 1)
        | some (.instr op arguments) => some (line, op, arguments)) ∧
      ∀ line memory, InRange limits env line memory := by
  intro code
  refine ⟨?_, fun _ _ => (State.inBounds_initial limits env _).advance,
    fun _ isOk => (State.run_eq_ok_iff.mp isOk).2, code.fetch_eq, inRange limits env⟩
  obtain ⟨count, few, last, isLast, ends⟩ := @State.exists_last_step limits env (State.initial env)
    (limits.maxSteps + 1) code (Nat.zero_le _) (by omega)
  exact ⟨count, last, by omega, isLast, ends⟩

end ContractBackend.Machine
