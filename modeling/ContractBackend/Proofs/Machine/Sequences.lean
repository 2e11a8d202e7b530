import ContractBackend.Proofs.Machine.Steps

/-!
# Straight code

Code without jumps is executed one instruction after the other, until it is through, comes to a
return or fails. Wherever it stands in a listing, and however many steps have been taken before, it
does the same as long as no bound is exceeded.
-/

namespace ContractBackend

/-- Opcodes behind which control may go on elsewhere in the listing. -/
def Opcode.isJump (op : Opcode) : Bool := op.isBranch || op = .callsub || op = .retsub

namespace Machine

namespace Fault

/-- Whether a bound of the machine has been exceeded. -/
def isLimit : Fault → Bool
  | .callDepthExceeded _ | .stepLimitExceeded _ | .stackLimitExceeded _ => true
  | _ => false

theorem isLimit_unplaced (fault : Fault) : fault.unplaced.isLimit = fault.isLimit := by
  cases fault <;> rfl

end Fault

/-- The verdict of an instruction that ends the run. -/
def Flow.verdict? : Flow → Option Bool
  | .halt approved => some approved
  | _ => none

/-- Take as many steps as given, unless the run ends before. -/
def State.advance (limits : Limits) (env : Environment) (code : Code) :
    Nat → State → Except Fault Progress
  | 0, state => .ok (.running state)
  | count + 1, state => do
      match ← state.step limits env code with
      | .running next => next.advance limits env code count
      | .ended outcome => pure (.ended outcome)

/-- What is behind straight code: the verdict of a return, if there was one. -/
structure Passage where
  verdict : Option Bool
  memory : Memory
  steps : Nat

namespace Passage

/-- Go on behind the code, unless the run has ended. -/
def andThen (passage : Passage) (rest : Memory → Nat → Except Fault Passage) :
    Except Fault Passage :=
  match passage.verdict with
  | none => rest passage.memory passage.steps
  | some _ => .ok passage

/-- Where the run is behind the code. -/
def progress (line : Nat) (frames : List Nat) (passage : Passage) : Progress :=
  match passage.verdict with
  | none => .running ⟨passage.memory, line, frames, passage.steps⟩
  | some approved => .ended ⟨approved, passage.memory, passage.steps⟩

end Passage

namespace Straight

/-- Execute an instruction on a line, if there are steps left. -/
def execute (limits : Limits) (env : Environment) (arguments : Instr → List Argument)
    (instr : Instr) (line : Nat) (memory : Memory) (steps : Nat) : Except Fault Passage :=
  if limits.maxSteps ≤ steps then
    .error (.stepLimitExceeded limits.maxSteps)
  else do
    let (flow, after) ←
      Machine.execute limits env ⟨instr.op, line + 1⟩ (arguments instr) memory
    pure ⟨flow.verdict?, after, steps + 1⟩

/-- Execute code that begins on a line, one instruction after the other. -/
def run (limits : Limits) (env : Environment) (arguments : Instr → List Argument) :
    List Instr → Nat → Memory → Nat → Except Fault Passage
  | [], _, memory, steps => .ok ⟨none, memory, steps⟩
  | instr :: rest, line, memory, steps => do
      (← execute limits env arguments instr line memory steps).andThen
        (run limits env arguments rest (line + 1))

variable {limits : Limits} {env : Environment} {arguments : Instr → List Argument} {instr : Instr}
  {instrs front rest rest' : List Instr} {line line' steps steps' : Nat} {memory after : Memory}
  {flow : Flow} {fault : Fault} {passage : Passage}

theorem execute_eq_ok :
    execute limits env arguments instr line memory steps = .ok passage ↔
      steps < limits.maxSteps ∧ ∃ flow after,
        Machine.execute limits env ⟨instr.op, line + 1⟩ (arguments instr) memory =
          .ok (flow, after) ∧
        passage = ⟨flow.verdict?, after, steps + 1⟩ := by
  rw [execute]
  by_cases spent : limits.maxSteps ≤ steps
  · simp [spent, Nat.not_lt.mpr spent]
  · simp only [spent, if_false, Fallible.bind_eq_ok, Nat.lt_of_not_le spent, true_and]
    constructor
    · rintro ⟨⟨flow, after⟩, isOk, isPassage⟩
      exact ⟨flow, after, isOk, (Except.ok.inj isPassage).symm⟩
    · rintro ⟨flow, after, isOk, rfl⟩
      exact ⟨(flow, after), isOk, rfl⟩

theorem run_append : run limits env arguments (front ++ rest) line memory steps =
    (run limits env arguments front line memory steps >>= fun passage =>
      passage.andThen (run limits env arguments rest (line + front.length))) := by
  induction front generalizing line memory steps with
  | nil => rfl
  | cons instr front ih =>
    rw [List.cons_append, run, run]
    cases execute limits env arguments instr line memory steps with
    | error => rfl
    | ok passage =>
      obtain ⟨verdict, memory, steps⟩ := passage
      cases verdict with
      | some => rfl
      | none =>
        have place : line + (instr :: front).length = line + 1 + front.length := by
          rw [List.length_cons]
          omega
        rw [place]
        exact ih

theorem lt_of_run_eq_ok (nonempty : instrs ≠ [])
    (isOk : run limits env arguments instrs line memory steps = .ok passage) :
    steps < limits.maxSteps := by
  cases instrs with
  | nil => exact absurd rfl nonempty
  | cons instr rest =>
    rw [run, Fallible.bind_eq_ok] at isOk
    obtain ⟨_, isFirst, _⟩ := isOk
    exact (execute_eq_ok.mp isFirst).1

/-- The result is a given one, unless a bound is exceeded. -/
def Bounded (result : Except Fault Passage) (passage : Passage) : Prop :=
  result = .ok passage ∨ ∃ fault, fault.isLimit = true ∧ result = .error fault

theorem Bounded.bind {result : Except Fault Passage} {rest : Memory → Nat → Except Fault Passage}
    (first : Bounded result ⟨none, memory, steps⟩) (behind : Bounded (rest memory steps) passage) :
    Bounded (result >>= fun passage => passage.andThen rest) passage := by
  rcases first with rfl | ⟨fault, isLimit, rfl⟩
  · exact behind
  · exact .inr ⟨fault, isLimit, rfl⟩

/-- Within the bound on steps it is only for the instruction to succeed. -/
theorem bounded_execute
    (goes : Machine.execute limits env ⟨instr.op, line + 1⟩ (arguments instr) memory =
        .ok (.next, after) ∨
      Machine.execute limits env ⟨instr.op, line + 1⟩ (arguments instr) memory =
        .error (.stackLimitExceeded limits.maxStack)) (steps : Nat) :
    Bounded (execute limits env arguments instr line memory steps) ⟨none, after, steps + 1⟩ := by
  rw [execute]
  split
  next => exact .inr ⟨_, rfl, rfl⟩
  next =>
    rcases goes with isOk | full
    · rw [isOk]
      exact .inl rfl
    · rw [full]
      exact .inr ⟨_, rfl, rfl⟩

/-! ## Refinement -/

/-- The second result is as good as the first: it is the same after no more steps, or it is the
same fault. Nothing is asked for where a bound has been exceeded. -/
def Refines (before after : Except Fault Passage) : Prop :=
  match before with
  | .ok passage => ∃ steps, steps ≤ passage.steps ∧ after = .ok { passage with steps }
  | .error fault => fault.isLimit = false →
      ∃ fault', after = .error fault' ∧ fault'.unplaced = fault.unplaced

theorem Refines.refl (result : Except Fault Passage) : Refines result result := by
  cases result with
  | ok passage => exact ⟨passage.steps, Nat.le_refl _, rfl⟩
  | error fault => exact fun _ => ⟨fault, rfl, rfl⟩

theorem Refines.trans {before middle after : Except Fault Passage}
    (first : Refines before middle) (second : Refines middle after) : Refines before after := by
  cases before with
  | ok passage =>
    obtain ⟨steps, fewer, rfl⟩ := first
    obtain ⟨steps', fewer', isAfter⟩ := second
    exact ⟨steps', Nat.le_trans fewer' fewer, isAfter⟩
  | error fault =>
    intro noLimit
    obtain ⟨fault', rfl, same⟩ := first noLimit
    have noLimit' : fault'.isLimit = false := by
      rw [← Fault.isLimit_unplaced, same, Fault.isLimit_unplaced, noLimit]
    obtain ⟨fault'', isAfter, same'⟩ := second noLimit'
    exact ⟨fault'', isAfter, same'.trans same⟩

/-- What is refined behind the same code is refined. -/
theorem Refines.bind (result : Except Fault Passage)
    {rest rest' : Memory → Nat → Except Fault Passage}
    (behind : ∀ memory steps, Refines (rest memory steps) (rest' memory steps)) :
    Refines (result >>= fun passage => passage.andThen rest)
      (result >>= fun passage => passage.andThen rest') := by
  cases result with
  | error fault => exact .refl _
  | ok passage =>
    obtain ⟨verdict, memory, steps⟩ := passage
    cases verdict with
    | none => exact behind memory steps
    | some approved => exact .refl _

theorem refines_execute (fewer : steps' ≤ steps) :
    Refines (execute limits env arguments instr line memory steps)
      (execute limits env arguments instr line' memory steps') := by
  rw [execute, execute]
  by_cases spent : limits.maxSteps ≤ steps
  · rw [if_pos spent]
    intro noLimit
    cases noLimit
  · have same := execute_elsewhere limits env instr.op (line + 1) (line' + 1) (arguments instr) memory
    rw [if_neg spent, if_neg (fun spent' => spent (Nat.le_trans spent' fewer))]
    generalize Machine.execute limits env ⟨instr.op, line + 1⟩ _ _ = before at same ⊢
    generalize Machine.execute limits env ⟨instr.op, line' + 1⟩ _ _ = after at same ⊢
    cases before with
    | error fault =>
      cases after with
      | ok => cases same
      | error fault' => exact fun _ => ⟨fault', rfl, Except.error.inj same⟩
    | ok result =>
      cases after with
      | error => cases same
      | ok result' =>
        cases same
        exact ⟨steps' + 1, Nat.succ_le_succ fewer, rfl⟩

/-- Straight code does the same wherever it stands, after no more steps. -/
theorem refines_run (fewer : steps' ≤ steps) :
    Refines (run limits env arguments instrs line memory steps)
      (run limits env arguments instrs line' memory steps') := by
  induction instrs generalizing line line' memory steps steps' with
  | nil => exact ⟨steps', fewer, rfl⟩
  | cons instr rest ih =>
    have first := @refines_execute limits env arguments instr line line' _ _ memory fewer
    rw [run, run]
    cases executed : execute limits env arguments instr line memory steps with
    | error fault =>
      rw [executed] at first
      intro noLimit
      obtain ⟨fault', isFault, same⟩ := first noLimit
      exact ⟨fault', by rw [isFault]; rfl, same⟩
    | ok passage =>
      rw [executed] at first
      obtain ⟨verdict, memory, steps⟩ := passage
      obtain ⟨steps', fewer, isOk⟩ := first
      rw [isOk]
      cases verdict with
      | none => exact ih fewer
      | some approved => exact ⟨steps', fewer, rfl⟩

/-! ## Straight code in a listing -/

theorem flow_of_isJump (straight : instr.op.isJump = false)
    (isOk : Machine.execute limits env ⟨instr.op, line⟩ (arguments instr) memory = .ok (flow, after)) :
    flow = .next ∨ ∃ approved, flow = .halt approved := by
  have flows := (flows_of_execute isOk).1
  simp only [Opcode.isJump, Bool.or_eq_false_iff, decide_eq_false_iff_not] at straight
  by_cases exits : instr.op.isExit = true
  · cases op : instr.op <;> rw [op] at exits flows <;> try cases exits
    · exact flows.elim
    · exact .inr flows
    · exact absurd op straight.2
  · exact .inl (flows.eq_next (Bool.eq_false_iff.mpr exits) straight.1.1 straight.1.2)

variable {code : Code} {frames : List Nat}

/-- A step at an instruction that does not jump executes it. -/
theorem step_eq (straight : instr.op.isJump = false)
    (here : code.lines[line]? = some (.instr instr.op (arguments instr))) :
    (⟨memory, line, frames, steps⟩ : State).step limits env code =
      (execute limits env arguments instr line memory steps).map
        (Passage.progress (line + 1) frames) := by
  rw [execute, State.step, Code.fetch_instr here]
  by_cases spent : limits.maxSteps ≤ steps
  · simp only [spent, if_true]
    rfl
  · simp only [spent, if_false]
    cases executed : Machine.execute limits env ⟨instr.op, line + 1⟩ (arguments instr) memory with
    | error fault => rfl
    | ok result =>
      obtain ⟨flow, after⟩ := result
      rcases flow_of_isJump straight executed with rfl | ⟨approved, rfl⟩
      · rfl
      · rfl

/-- Going through straight code of a listing executes it. -/
theorem advance_eq (straight : ∀ instr ∈ instrs, instr.op.isJump = false)
    (located : ∀ offset instr, instrs[offset]? = some instr →
      code.lines[line + offset]? = some (.instr instr.op (arguments instr))) :
    State.advance limits env code instrs.length ⟨memory, line, frames, steps⟩ =
      (run limits env arguments instrs line memory steps).map
        (Passage.progress (line + instrs.length) frames) := by
  induction instrs generalizing line memory steps with
  | nil => rfl
  | cons instr rest ih =>
    rw [List.forall_mem_cons] at straight
    have behind : ∀ offset instr, rest[offset]? = some instr →
        code.lines[line + 1 + offset]? = some (.instr instr.op (arguments instr)) := by
      intro offset instr here
      rw [Nat.add_assoc, Nat.add_comm 1]
      exact located (offset + 1) instr here
    have here : code.lines[line]? = some (.instr instr.op (arguments instr)) :=
      located 0 instr rfl
    rw [List.length_cons, State.advance, run, step_eq straight.1 here]
    cases execute limits env arguments instr line memory steps with
    | error => rfl
    | ok passage =>
      obtain ⟨verdict, memory, steps⟩ := passage
      cases verdict with
      | some approved => rfl
      | none =>
        rw [Nat.add_comm rest.length, ← Nat.add_assoc]
        exact ih straight.2 behind

end Straight

/-- A piece of code goes on at a line, or ends the run, and another one does the same in no more
steps and goes on at a line of its own. If the first one fails, and not for a bound, the other one
fails for the same reason. -/
structure Improves (line line' : Nat) (before after : Except Fault Progress) : Prop where
  goes : ∀ state, before = .ok (.running state) → state.line = line ∧
    ∃ steps, steps ≤ state.steps ∧ after = .ok (.running { state with line := line', steps })
  ends : ∀ outcome, before = .ok (.ended outcome) →
    ∃ steps, steps ≤ outcome.steps ∧ after = .ok (.ended { outcome with steps })
  fails : ∀ fault, before = .error fault → fault.isLimit = false →
    ∃ fault', after = .error fault' ∧ fault'.unplaced = fault.unplaced

theorem Straight.Refines.improves {before after : Except Fault Passage}
    (refines : Refines before after) (line line' : Nat) (frames : List Nat) :
    Improves line line' (before.map (Passage.progress line frames))
      (after.map (Passage.progress line' frames)) := by
  cases before with
  | error fault =>
    refine ⟨fun _ => by rintro ⟨⟩, fun _ => by rintro ⟨⟩, ?_⟩
    rintro _ ⟨⟩ noLimit
    obtain ⟨fault', rfl, same⟩ := refines noLimit
    exact ⟨fault', rfl, same⟩
  | ok passage =>
    obtain ⟨verdict, memory, steps⟩ := passage
    obtain ⟨steps', fewer, rfl⟩ := refines
    cases verdict with
    | none =>
      refine ⟨?_, fun _ => by rintro ⟨⟩, fun _ => by rintro ⟨⟩⟩
      rintro _ ⟨⟩
      exact ⟨rfl, steps', fewer, rfl⟩
    | some approved =>
      refine ⟨fun _ => by rintro ⟨⟩, ?_, fun _ => by rintro ⟨⟩⟩
      rintro _ ⟨⟩
      exact ⟨steps', fewer, rfl⟩

end Machine

end ContractBackend
