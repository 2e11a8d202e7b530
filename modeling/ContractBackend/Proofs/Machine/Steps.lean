import ContractBackend.Machine.Run
import ContractBackend.Proofs.Machine.Effects

/-!
# Steps of a run

What a step of a run does, and how it can fail, in terms of the instruction that is fetched.

A run goes from state to state until it ends. The bound on the number of steps is kept apart: a
run that ends in time is one that ends after few enough steps.
-/

namespace ContractBackend.Machine

namespace Code

variable {code : Code} {line : Nat} {arguments : List Argument}

theorem fetch_instr {op : Opcode} (here : code.lines[line]? = some (.instr op arguments)) :
    code.fetch line = some (line, op, arguments) := by
  obtain ⟨inside, _⟩ := Array.getElem?_eq_some_iff.mp here
  obtain ⟨count, isCount⟩ : ∃ count, code.lines.size - line = count + 1 :=
    ⟨code.lines.size - line - 1, by omega⟩
  simp [fetch, isCount, fetchWithin, here]

/-- Labels are passed over. -/
theorem fetch_label {name : String} {comment : Option String}
    (here : code.lines[line]? = some (.label name comment)) :
    code.fetch line = code.fetch (line + 1) := by
  obtain ⟨inside, _⟩ := Array.getElem?_eq_some_iff.mp here
  obtain ⟨count, isCount⟩ : ∃ count, code.lines.size - line = count + 1 :=
    ⟨code.lines.size - line - 1, by omega⟩
  have rest : code.lines.size - (line + 1) = count := by omega
  simp [fetch, isCount, rest, fetchWithin, here]

/-- An instruction is searched for downwards. -/
theorem of_fetch {found : Nat} {op : Opcode}
    (fetched : code.fetch line = some (found, op, arguments)) :
    line ≤ found ∧ code.lines[found]? = some (.instr op arguments) := by
  rw [fetch] at fetched
  generalize code.lines.size - line = count at fetched
  induction count generalizing line with
  | zero => cases fetched
  | succ count ih =>
    rw [fetchWithin] at fetched
    split at fetched
    next => cases fetched
    next => exact (ih fetched).imp_left Nat.le_of_succ_le
    next here =>
      cases fetched
      exact ⟨Nat.le_refl _, here⟩

end Code

namespace State

variable {limits : Limits} {env : Environment} {code : Code} {state : State} {outcome : Outcome}
  {fault : Fault}

/-- Where control goes on behind an instruction. -/
inductive Goes (limits : Limits) (code : Code) (state : State) (line : Nat) (op : Opcode)
    (arguments : List Argument) (memory : Memory) : Flow → State → Prop where
  | next : Goes limits code state line op arguments memory .next
      ⟨memory, line + 1, state.frames, state.steps + 1⟩
  | jump {target : Nat} : code.target ⟨op, line + 1⟩ arguments = .ok target →
      Goes limits code state line op arguments memory .jump
        ⟨memory, target, state.frames, state.steps + 1⟩
  | call {target : Nat} : state.frames.length < limits.maxCallDepth →
      code.target ⟨op, line + 1⟩ arguments = .ok target →
      Goes limits code state line op arguments memory .call
        ⟨memory, target, (line + 1) :: state.frames, state.steps + 1⟩
  | back {target : Nat} {frames : List Nat} : state.frames = target :: frames →
      Goes limits code state line op arguments memory .back
        ⟨memory, target, frames, state.steps + 1⟩

/-- A step that does not end the run, if there are steps left. -/
inductive Moves (limits : Limits) (env : Environment) (code : Code) (state next : State) :
    Prop where
  | intro {line : Nat} {op : Opcode} {arguments : List Argument} {flow : Flow} {memory : Memory} :
      code.fetch state.line = some (line, op, arguments) →
      execute limits env ⟨op, line + 1⟩ arguments state.memory = .ok (flow, memory) →
      Goes limits code state line op arguments memory flow next →
      Moves limits env code state next

/-- The run ends, by an instruction or behind the last line. -/
inductive Stops (limits : Limits) (env : Environment) (code : Code) (state : State) :
    Outcome → Prop where
  | halt {line : Nat} {op : Opcode} {arguments : List Argument} {approved : Bool}
      {memory : Memory} : code.fetch state.line = some (line, op, arguments) →
      execute limits env ⟨op, line + 1⟩ arguments state.memory = .ok (.halt approved, memory) →
      Stops limits env code state ⟨approved, memory, state.steps + 1⟩
  | finish {outcome : Outcome} : code.fetch state.line = none → state.finish = .ok outcome →
      Stops limits env code state outcome

theorem steps_of_finish (finishes : state.finish = .ok outcome) : outcome.steps = state.steps := by
  rw [finish] at finishes
  split at finishes
  next =>
    cases finishes
    rfl
  next => cases finishes

/-- What a step does that does not fail. -/
theorem of_step_eq_ok {progress : Progress} (isOk : state.step limits env code = .ok progress) :
    match progress with
    | .running next => Moves limits env code state next ∧ state.steps < limits.maxSteps
    | .ended outcome => Stops limits env code state outcome ∧
        (state.steps ≤ limits.maxSteps → outcome.steps ≤ limits.maxSteps) := by
  rw [step] at isOk
  split at isOk
  next none =>
    obtain ⟨outcome, finishes, rfl⟩ := Fallible.map_eq_ok.mp isOk
    exact ⟨.finish none finishes, fun inTime => (steps_of_finish finishes).symm ▸ inTime⟩
  next line op arguments fetched =>
    by_cases spent : limits.maxSteps ≤ state.steps
    · rw [if_pos spent] at isOk
      cases isOk
    · have inTime := Nat.lt_of_not_le spent
      simp only [spent, if_false, Fallible.bind_eq_ok] at isOk
      obtain ⟨⟨flow, memory⟩, executed, isOk⟩ := isOk
      cases flow with
      | next =>
        cases isOk
        exact ⟨.intro fetched executed .next, inTime⟩
      | jump =>
        simp only [Fallible.bind_eq_ok] at isOk
        obtain ⟨target, isTarget, isOk⟩ := isOk
        cases isOk
        exact ⟨.intro fetched executed (.jump isTarget), inTime⟩
      | call =>
        by_cases deep : limits.maxCallDepth ≤ state.frames.length
        · rw [if_pos deep] at isOk
          cases isOk
        · simp only [deep, if_false, Fallible.bind_eq_ok] at isOk
          obtain ⟨target, isTarget, isOk⟩ := isOk
          cases isOk
          exact ⟨.intro fetched executed (.call (Nat.lt_of_not_le deep) isTarget), inTime⟩
      | back =>
        simp only at isOk
        split at isOk
        next => cases isOk
        next frames =>
          cases isOk
          exact ⟨.intro fetched executed (.back frames), inTime⟩
      | halt =>
        cases isOk
        exact ⟨.halt fetched executed, fun _ => inTime⟩

/-- How a step fails that has fetched an instruction. -/
inductive Fails (limits : Limits) (env : Environment) (code : Code) (state : State) (line : Nat)
    (op : Opcode) (arguments : List Argument) : Fault → Prop where
  | steps : Fails limits env code state line op arguments (.stepLimitExceeded limits.maxSteps)
  | execution {fault : Fault} :
      execute limits env ⟨op, line + 1⟩ arguments state.memory = .error fault →
      Fails limits env code state line op arguments fault
  | target {fault : Fault} {flow : Flow} {memory : Memory} :
      execute limits env ⟨op, line + 1⟩ arguments state.memory = .ok (flow, memory) →
      flow = .jump ∨ flow = .call → code.target ⟨op, line + 1⟩ arguments = .error fault →
      Fails limits env code state line op arguments fault
  | depth : Fails limits env code state line op arguments (.callDepthExceeded limits.maxCallDepth)
  | noCall {memory : Memory} :
      execute limits env ⟨op, line + 1⟩ arguments state.memory = .ok (.back, memory) →
      state.frames = [] → Fails limits env code state line op arguments (.noActiveCall (line + 1))

theorem of_step_eq_error {line : Nat} {op : Opcode}
    (fetched : code.fetch state.line = some (line, op, arguments))
    (fails : state.step limits env code = .error fault) :
    Fails limits env code state line op arguments fault := by
  simp only [step, fetched] at fails
  by_cases spent : limits.maxSteps ≤ state.steps
  · rw [if_pos spent] at fails
    cases fails
    exact .steps
  · rw [if_neg spent] at fails
    cases executed : execute limits env ⟨op, line + 1⟩ arguments state.memory with
    | error other =>
      simp only [executed] at fails
      cases fails
      exact .execution executed
    | ok result =>
      obtain ⟨flow, memory⟩ := result
      simp only [executed, Fallible.ok_bind] at fails
      cases flow with
      | next | halt => cases fails
      | jump =>
        cases isTarget : code.target ⟨op, line + 1⟩ arguments with
        | ok => simp [isTarget] at fails
        | error other =>
          simp only [isTarget] at fails
          cases fails
          exact .target executed (.inl rfl) isTarget
      | call =>
        by_cases deep : limits.maxCallDepth ≤ state.frames.length
        · rw [if_pos deep] at fails
          cases fails
          exact .depth
        · rw [if_neg deep] at fails
          cases isTarget : code.target ⟨op, line + 1⟩ arguments with
          | ok => simp [isTarget] at fails
          | error other =>
            simp only [isTarget] at fails
            cases fails
            exact .target executed (.inr rfl) isTarget
      | back =>
        cases frames : state.frames with
        | cons =>
          simp only [frames] at fails
          cases fails
        | nil =>
          simp only [frames] at fails
          cases fails
          exact .noCall executed frames

/-- A run that fails has come to a state whose step fails, or it has run out of steps. -/
theorem exists_step_eq_error {kept : State → Prop}
    (keeps : ∀ state next, kept state → state.step limits env code = .ok (.running next) → kept next)
    {count : Nat} (holds : kept state) (fails : state.run limits env code count = .error fault) :
    fault = .stepLimitExceeded limits.maxSteps ∨
      ∃ state, kept state ∧ state.step limits env code = .error fault := by
  induction count generalizing state with
  | zero =>
    cases fails
    exact .inl rfl
  | succ count ih =>
    rw [run] at fails
    split at fails
    next stops =>
      cases fails
      exact .inr ⟨state, holds, stops⟩
    next => cases fails
    next next moves => exact ih (keeps state next holds moves) fails

end State

end ContractBackend.Machine

namespace ContractBackend.Machine.State

variable {limits : Limits} {env : Environment} {code : Code} {state next last : State}
  {outcome : Outcome} {arguments : List Argument} {line count : Nat}

/-- A number of steps lead from a state to another one. -/
inductive Travels (limits : Limits) (env : Environment) (code : Code) :
    State → Nat → State → Prop where
  | refl {state : State} : Travels limits env code state 0 state
  | head {state next last : State} {count : Nat} : Moves limits env code state next →
      Travels limits env code next count last → Travels limits env code state (count + 1) last

/-- A run goes from state to state until it ends. -/
def Ends (limits : Limits) (env : Environment) (code : Code) (state : State) (outcome : Outcome) :
    Prop :=
  ∃ count last, Travels limits env code state count last ∧ Stops limits env code last outcome

/-- A call leads to its target. -/
theorem Moves.call {target : Nat}
    (fetched : code.fetch state.line = some (line, .callsub, arguments))
    (shallow : state.frames.length < limits.maxCallDepth)
    (isTarget : code.target ⟨.callsub, line + 1⟩ arguments = .ok target) :
    Moves limits env code state
      ⟨state.memory, target, (line + 1) :: state.frames, state.steps + 1⟩ :=
  .intro fetched rfl (.call shallow isTarget)

/-- A return leads to where the last call has noted. -/
theorem Moves.back {target : Nat} {frames : List Nat}
    (fetched : code.fetch state.line = some (line, .retsub, arguments))
    (isTop : state.frames = target :: frames) :
    Moves limits env code state ⟨state.memory, target, frames, state.steps + 1⟩ :=
  .intro fetched rfl (.back isTop)

theorem Moves.unique {other : State} (moves : Moves limits env code state next)
    (moves' : Moves limits env code state other) : other = next := by
  obtain ⟨fetched, executed, goes⟩ := moves
  obtain ⟨fetched', executed', goes'⟩ := moves'
  rw [fetched] at fetched'
  cases fetched'
  rw [executed] at executed'
  cases executed'
  cases goes with
  | next =>
    cases goes'
    rfl
  | jump isTarget =>
    cases goes' with
    | jump isTarget' =>
      rw [isTarget] at isTarget'
      cases isTarget'
      rfl
  | call _ isTarget =>
    cases goes' with
    | call _ isTarget' =>
      rw [isTarget] at isTarget'
      cases isTarget'
      rfl
  | back frames =>
    cases goes' with
    | back frames' =>
      rw [frames] at frames'
      cases frames'
      rfl

theorem Moves.not_stops (moves : Moves limits env code state next)
    (stops : Stops limits env code state outcome) : False := by
  obtain ⟨fetched, executed, goes⟩ := moves
  cases stops with
  | finish none =>
    rw [fetched] at none
    cases none
  | halt fetched' executed' =>
    rw [fetched] at fetched'
    cases fetched'
    rw [executed] at executed'
    cases executed'
    cases goes

theorem Moves.steps (moves : Moves limits env code state next) : next.steps = state.steps + 1 := by
  obtain ⟨_, _, goes⟩ := moves
  cases goes <;> rfl

namespace Travels

variable {middle : State} {count more : Nat}

theorem trans (first : Travels limits env code state count middle)
    (second : Travels limits env code middle more last) :
    Travels limits env code state (count + more) last := by
  induction first with
  | refl => rwa [Nat.zero_add]
  | head moves _ ih =>
    rw [Nat.add_right_comm]
    exact .head moves (ih second)

theorem single (moves : Moves limits env code state next) : Travels limits env code state 1 next :=
  .head moves .refl

theorem steps (travels : Travels limits env code state count last) :
    last.steps = state.steps + count := by
  induction travels with
  | refl => rfl
  | head moves _ ih =>
    rw [ih, moves.steps]
    omega

/-- A run that ends goes through every state that it leads to. -/
theorem exists_rest (travels : Travels limits env code state count middle)
    (whole : Travels limits env code state more last)
    (stops : Stops limits env code last outcome) :
    ∃ rest, more = count + rest ∧ Travels limits env code middle rest last := by
  induction travels generalizing more with
  | refl => exact ⟨more, (Nat.zero_add _).symm, whole⟩
  | head moves _ ih =>
    cases whole with
    | refl => exact (moves.not_stops stops).elim
    | head moves' whole =>
      cases moves.unique moves'
      obtain ⟨rest, rfl, behind⟩ := ih whole
      exact ⟨rest, Nat.add_right_comm _ _ _, behind⟩

end Travels

theorem Ends.of_travels {middle : State} (travels : Travels limits env code state count middle)
    (ends : Ends limits env code middle outcome) : Ends limits env code state outcome := by
  obtain ⟨rest, last, behind, stops⟩ := ends
  exact ⟨count + rest, last, travels.trans behind, stops⟩

/-- A run that ends does so behind every state that it leads to. -/
theorem Travels.ends {middle : State} (travels : Travels limits env code state count middle)
    (ends : Ends limits env code state outcome) : Ends limits env code middle outcome := by
  obtain ⟨_, last, whole, stops⟩ := ends
  obtain ⟨rest, _, behind⟩ := travels.exists_rest whole stops
  exact ⟨rest, last, behind, stops⟩

/-- A run that ends executes the instruction that it fetches, and stops there or goes on. -/
theorem Ends.exists_execute {op : Opcode} (ends : Ends limits env code state outcome)
    (fetched : code.fetch state.line = some (line, op, arguments)) :
    ∃ flow memory, execute limits env ⟨op, line + 1⟩ arguments state.memory = .ok (flow, memory) ∧
      ((∃ approved, flow = .halt approved) ∨
        ∃ next, Goes limits code state line op arguments memory flow next) := by
  obtain ⟨_, _, travels, stops⟩ := ends
  cases travels with
  | refl =>
    cases stops with
    | finish none =>
      rw [fetched] at none
      cases none
    | halt fetched' executed =>
      rw [fetched] at fetched'
      cases fetched'
      exact ⟨_, _, executed, .inl ⟨_, rfl⟩⟩
  | head moves =>
    obtain ⟨fetched', executed, goes⟩ := moves
    rw [fetched] at fetched'
    cases fetched'
    exact ⟨_, _, executed, .inr ⟨_, goes⟩⟩

theorem Stops.unique {other : Outcome} (stops : Stops limits env code state outcome)
    (stops' : Stops limits env code state other) : other = outcome := by
  cases stops with
  | halt fetched executed =>
    cases stops' with
    | halt fetched' executed' =>
      rw [fetched] at fetched'
      cases fetched'
      rw [executed] at executed'
      cases executed'
      rfl
    | finish none =>
      rw [fetched] at none
      cases none
  | finish none finishes =>
    cases stops' with
    | halt fetched =>
      rw [none] at fetched
      cases fetched
    | finish _ finishes' => exact Except.ok.inj (finishes'.symm.trans finishes)

/-- A run ends in one way. -/
theorem Ends.unique {other : Outcome} (ends : Ends limits env code state outcome)
    (ends' : Ends limits env code state other) : other = outcome := by
  obtain ⟨_, last, travels, stops⟩ := ends
  obtain ⟨_, last', travels', stops'⟩ := ends'
  obtain ⟨_, _, behind⟩ := travels.exists_rest travels' stops'
  cases behind with
  | refl => exact stops.unique stops'
  | head moves => exact (moves.not_stops stops).elim

theorem step_of_moves (moves : Moves limits env code state next)
    (inTime : state.steps < limits.maxSteps) :
    state.step limits env code = .ok (.running next) := by
  obtain ⟨fetched, executed, goes⟩ := moves
  simp only [step, fetched, Nat.not_le.mpr inTime, if_false, executed, Fallible.ok_bind]
  cases goes with
  | next => rfl
  | jump isTarget => simp only [isTarget, Fallible.ok_bind]; rfl
  | call shallow isTarget =>
    simp only [Nat.not_le.mpr shallow, if_false, isTarget, Fallible.ok_bind]
    rfl
  | back frames => simp only [frames]; rfl

theorem Stops.steps_le (stops : Stops limits env code state outcome) :
    state.steps ≤ outcome.steps := by
  cases stops with
  | halt => exact Nat.le_succ _
  | finish _ finishes => exact Nat.le_of_eq (steps_of_finish finishes).symm

theorem step_of_stops (stops : Stops limits env code state outcome)
    (inTime : outcome.steps ≤ limits.maxSteps) :
    state.step limits env code = .ok (.ended outcome) := by
  cases stops with
  | halt fetched executed =>
    have left : ¬ limits.maxSteps ≤ state.steps := Nat.not_le.mpr inTime
    simp only [step, fetched, left, if_false, executed, Fallible.ok_bind]
    rfl
  | finish none finishes =>
    simp only [step, none, finishes]
    rfl

/-- A run that ends goes from state to state until it does. -/
theorem ends_of_run (inTime : state.steps ≤ limits.maxSteps)
    (isOk : state.run limits env code count = .ok outcome) :
    Ends limits env code state outcome ∧ outcome.steps ≤ limits.maxSteps := by
  induction count generalizing state with
  | zero => cases isOk
  | succ count ih =>
    rw [run] at isOk
    split at isOk
    next => cases isOk
    next ended =>
      cases isOk
      obtain ⟨stops, bound⟩ := of_step_eq_ok ended
      exact ⟨⟨0, state, .refl, stops⟩, bound inTime⟩
    next next running =>
      obtain ⟨moves, less⟩ := of_step_eq_ok running
      obtain ⟨ends, bound⟩ := ih (by rw [moves.steps]; exact less) isOk
      exact ⟨.of_travels (.single moves) ends, bound⟩

/-- A run that comes to its end within the bound ends there. -/
theorem run_of_travels {number : Nat} (travels : Travels limits env code state number last)
    (stops : Stops limits env code last outcome) (inTime : outcome.steps ≤ limits.maxSteps)
    (enough : number < count) : state.run limits env code count = .ok outcome := by
  induction travels generalizing count with
  | refl =>
    obtain ⟨count, rfl⟩ := Nat.exists_eq_succ_of_ne_zero (Nat.ne_of_gt enough)
    rw [run, step_of_stops stops inTime]
  | @head state _ last number moves travels ih =>
    obtain ⟨count, rfl⟩ := Nat.exists_eq_succ_of_ne_zero (Nat.ne_zero_of_lt enough)
    have less : state.steps < limits.maxSteps :=
      calc state.steps < last.steps := by
            rw [travels.steps, moves.steps]
            omega
        _ ≤ outcome.steps := stops.steps_le
        _ ≤ limits.maxSteps := inTime
    rw [run, step_of_moves moves less]
    exact ih stops (Nat.lt_of_succ_lt_succ enough)

/-- A listing runs to an outcome exactly if going from state to state ends there in time. -/
theorem run_eq_ok_iff {assembly : Assembly} :
    Machine.run assembly env limits = .ok outcome ↔
      Ends limits env (Code.ofLines assembly.lines) (initial env) outcome ∧
        outcome.steps ≤ limits.maxSteps := by
  constructor
  · intro isOk
    exact ends_of_run (Nat.zero_le _) isOk
  · rintro ⟨⟨count, last, travels, stops⟩, inTime⟩
    have steps : last.steps = count := travels.steps.trans (Nat.zero_add count)
    refine run_of_travels travels stops inTime (Nat.lt_succ_of_le ?_)
    calc count = last.steps := steps.symm
      _ ≤ outcome.steps := stops.steps_le
      _ ≤ limits.maxSteps := inTime

end ContractBackend.Machine.State
