import ContractBackend.Machine.Exec

/-!
# Runs

A run of a listing: fetching instructions, following branches and calls, and the bounds on steps,
calls and stack.
-/

namespace ContractBackend.Machine

/-- A listing made ready to run. -/
structure Code where
  lines : Array Line
  /-- The line of each label. Of two lines with one label the later comes first. -/
  labels : List (String × Nat)
  deriving DecidableEq, Inhabited

namespace Code

def ofLines (lines : List Line) : Code where
  lines := lines.toArray
  labels := (lines.zipIdx.filterMap fun entry =>
    entry.1.label?.map fun name => (name, entry.2)).reverse

/-- The first instruction at or behind a line, searched for on as many lines as given. -/
def fetchWithin (code : Code) : Nat → Nat → Option (Nat × Opcode × List Argument)
  | 0, _ => none
  | count + 1, line =>
      match code.lines[line]? with
      | none => none
      | some (.label _ _) => code.fetchWithin count (line + 1)
      | some (.instr op arguments) => some (line, op, arguments)

/-- The first instruction at or behind a line. -/
def fetch (code : Code) (line : Nat) : Option (Nat × Opcode × List Argument) :=
  code.fetchWithin (code.lines.size - line) line

/-- The line that an instruction refers to by its label. -/
def target (code : Code) (site : Site) : List Argument → Except Fault Nat
  | .label name :: _ =>
      match code.labels.lookup name with
      | some line => .ok line
      | none => .error (.unknownLabel name)
  | _ => .error (.badImmediate site)

end Code

/-- The state of a run between two instructions. -/
structure State where
  memory : Memory
  /-- The line at which control goes on. -/
  line : Nat := 0
  /-- The lines to come back to, innermost call first. -/
  frames : List Nat := []
  steps : Nat := 0
  deriving DecidableEq, Inhabited

structure Outcome where
  approved : Bool
  /-- The memory at the end, without the value that decided. -/
  memory : Memory
  steps : Nat
  deriving DecidableEq, Inhabited

/-- What a step leads to. -/
inductive Progress where
  | running (state : State)
  | ended (outcome : Outcome)
  deriving DecidableEq, Inhabited

namespace State

def initial (env : Environment) : State where
  memory :=
    { stack := []
      scratch := Vector.replicate cellCount (.uint 0)
      effects := #[]
      appState := env.appState }

/-- Running past the last line: the one value on the stack decides. -/
def finish (state : State) : Except Fault Outcome :=
  match state.memory.stack with
  | [.uint value] =>
      .ok { approved := value ≠ 0, memory := { state.memory with stack := [] },
            steps := state.steps }
  | stack => .error (.badFinalStack stack.length)

def step (limits : Limits) (env : Environment) (code : Code) (state : State) :
    Except Fault Progress :=
  match code.fetch state.line with
  | none => Progress.ended <$> state.finish
  | some (line, op, arguments) => do
      let site : Site := ⟨op, line + 1⟩
      if limits.maxSteps ≤ state.steps then
        throw (.stepLimitExceeded limits.maxSteps)
      let (flow, memory) ← execute limits env site arguments state.memory
      let next : State :=
        { memory, line := line + 1, frames := state.frames, steps := state.steps + 1 }
      match flow with
      | .next => pure (.running next)
      | .jump =>
          let target ← code.target site arguments
          pure (.running { next with line := target })
      | .call =>
          if limits.maxCallDepth ≤ state.frames.length then
            throw (.callDepthExceeded limits.maxCallDepth)
          let target ← code.target site arguments
          pure (.running { next with line := target, frames := next.line :: state.frames })
      | .back =>
          match state.frames with
          | [] => throw (.noActiveCall site.line)
          | line :: frames => pure (.running { next with line, frames })
      | .halt approved => pure (.ended { approved, memory, steps := next.steps })

/-- Execute instructions until the run ends, at most as many as given. -/
def run (limits : Limits) (env : Environment) (code : Code) :
    Nat → State → Except Fault Outcome
  | 0, _ => .error (.stepLimitExceeded limits.maxSteps)
  | count + 1, state =>
      match state.step limits env code with
      | .error fault => .error fault
      | .ok (.ended outcome) => .ok outcome
      | .ok (.running next) => next.run limits env code count

end State

/-- Run a listing. One step more than the bound is granted, for the step that ends the run or
finds the bound reached. -/
def run (assembly : Assembly) (env : Environment) (limits : Limits := {}) :
    Except Fault Outcome :=
  (State.initial env).run limits env (Code.ofLines assembly.lines) (limits.maxSteps + 1)

end ContractBackend.Machine
