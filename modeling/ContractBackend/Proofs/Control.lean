import ContractBackend.FlatCode.Basic
import ContractBackend.Graph.Basic
import ContractBackend.Machine.Exec

/-!
# Runs of one routine

Two ways to run the code of a routine: walking through its block graph, and
stepping through its flat code. Both leave open what the instructions other than
branches do, and both note every such instruction with the memory it finds, so
that the runs can be compared.
-/

namespace ContractBackend

open Machine (Memory Fault Flow)

/-- What the instructions of a routine do, branches aside. -/
abbrev Action := Instr → Memory → Except Fault (Flow × Memory)

/-- An instruction that is executed, with the memory it finds. -/
structure Event where
  instr : Instr
  memory : Memory

/-- How a run of a routine ends. -/
inductive Ending where
  /-- An instruction leaves the routine. -/
  | left (flow : Flow) (memory : Memory)
  /-- An instruction fails on the given memory. -/
  | failed (fault : Fault) (memory : Memory)
  /-- There is no integer on top of the stack to decide a branch. -/
  | undecided (memory : Memory)
  /-- Nothing says where control goes on. -/
  | lost (memory : Memory)

/-- What one step of a run leads to. -/
inductive Progress (σ : Type) where
  | moved (events : List Event) (next : σ)
  | ended (events : List Event) (ending : Ending)

namespace Progress

variable {σ : Type} {events : List Event} {step : σ → Progress σ} {state last : σ}
  {ending : Ending} {count : Nat}

/-- Several steps, with everything executed on the way. -/
inductive Runs (step : σ → Progress σ) : σ → List Event → σ → Prop where
  | refl (state : σ) : Runs step state [] state
  | step {state next last : σ} {events more : List Event} :
      step state = .moved events next → Runs step next more last →
      Runs step state (events ++ more) last

/-- A run to its end, with everything executed on the way. -/
def Ends (step : σ → Progress σ) (state : σ) (events : List Event) (ending : Ending) :
    Prop :=
  ∃ before last now, Runs step state before last ∧
    step last = .ended now ending ∧ events = before ++ now

namespace Runs

variable {step : σ → Progress σ}

theorem single {next : σ} (moved : step state = .moved events next) :
    Runs step state events next := by
  have run := Runs.step moved (.refl next)
  rwa [List.append_nil] at run

theorem trans {middle : σ} {more : List Event} (first : Runs step state events middle)
    (second : Runs step middle more last) :
    Runs step state (events ++ more) last := by
  induction first with
  | refl => exact second
  | step moved _ ih =>
    rw [List.append_assoc]
    exact .step moved (ih second)

theorem ends {more : List Event} (run : Runs step state events last)
    (rest : Ends step last more ending) :
    Ends step state (events ++ more) ending := by
  obtain ⟨before, final, now, tail, stop, rfl⟩ := rest
  exact ⟨events ++ before, final, now, run.trans tail, stop, by simp⟩

end Runs

theorem Ends.single (stop : step state = .ended events ending) :
    Ends step state events ending :=
  ⟨[], state, events, .refl state, stop, rfl⟩

/-- There is a run of a given number of steps. -/
inductive Lasts (step : σ → Progress σ) : Nat → σ → Prop where
  | zero (state : σ) : Lasts step 0 state
  | succ {count : Nat} {state next : σ} {events : List Event} :
      step state = .moved events next → Lasts step count next → Lasts step (count + 1) state

theorem Lasts.pred (lasts : Lasts step (count + 1) state) :
    Lasts step count state := by
  induction count generalizing state with
  | zero => exact .zero state
  | succ count ih =>
    cases lasts with
    | succ moved rest => exact .succ moved (ih rest)

theorem Lasts.mono {bound : Nat} (lasts : Lasts step bound state) (fewer : count ≤ bound) :
    Lasts step count state := by
  induction fewer with
  | refl => exact lasts
  | step _ ih => exact ih lasts.pred

theorem Runs.lasts (run : Runs step state events last) (lasts : Lasts step count last) :
    Lasts step count state := by
  induction run with
  | refl => exact lasts
  | step moved _ ih => exact (Lasts.succ moved (ih lasts)).pred

/-- A run that comes to an end does not last. -/
theorem Ends.exists_not_lasts (finish : Ends step state events ending) :
    ∃ count, ¬ Lasts step count state := by
  obtain ⟨before, last, now, run, stop, -⟩ := finish
  induction run with
  | refl =>
    refine ⟨1, fun lasts => ?_⟩
    cases lasts with
    | succ moved _ => simp [stop] at moved
  | step moved _ ih =>
    obtain ⟨count, fails⟩ := ih stop
    refine ⟨count + 1, fun lasts => ?_⟩
    cases lasts with
    | succ movedAlso rest =>
      rw [moved] at movedAlso
      cases movedAlso
      exact fails rest

/-- There is only one way to end. -/
theorem Ends.unique {others : List Event} {other : Ending} (first : Ends step state events ending)
    (second : Ends step state others other) :
    ending = other := by
  obtain ⟨before, last, now, run, stop, -⟩ := first
  induction run generalizing others with
  | refl =>
    obtain ⟨_, _, _, otherRun, otherStop, _⟩ := second
    cases otherRun with
    | refl =>
      rw [stop] at otherStop
      cases otherStop
      rfl
    | step moved _ => simp [stop] at moved
  | step moved _ ih =>
    obtain ⟨_, final, finalEvents, otherRun, otherStop, _⟩ := second
    cases otherRun with
    | refl => simp [otherStop] at moved
    | step otherMoved rest =>
      rw [moved] at otherMoved
      cases otherMoved
      exact ih ⟨_, _, _, rest, otherStop, rfl⟩ stop

/-- One machine does at least what another does: each of its steps is matched by
several steps of the other that execute the same instructions. -/
structure Simulates {σ τ : Type} (step : σ → Progress σ) (other : τ → Progress τ)
    (related : σ → τ → Prop) : Prop where
  moved : ∀ {state next : σ} {image : τ} {events : List Event},
    related state image → step state = .moved events next →
      ∃ target, Runs other image events target ∧ related next target
  ended : ∀ {state : σ} {image : τ} {events : List Event} {ending : Ending},
    related state image → step state = .ended events ending →
      Ends other image events ending

namespace Simulates

variable {τ : Type} {step : σ → Progress σ} {other : τ → Progress τ} {related : σ → τ → Prop}

theorem runs (simulates : Simulates step other related) {image : τ} (start : related state image)
    (run : Runs step state events last) :
    ∃ target, Runs other image events target ∧ related last target := by
  induction run generalizing image with
  | refl => exact ⟨image, .refl image, start⟩
  | step moved _ ih =>
    obtain ⟨middle, first, middleRelated⟩ := simulates.moved start moved
    obtain ⟨target, rest, lastRelated⟩ := ih middleRelated
    exact ⟨target, first.trans rest, lastRelated⟩

theorem ends (simulates : Simulates step other related) {image : τ} (start : related state image)
    (finish : Ends step state events ending) :
    Ends other image events ending := by
  obtain ⟨before, last, now, run, stop, rfl⟩ := finish
  obtain ⟨target, targetRun, lastRelated⟩ := simulates.runs start run
  exact targetRun.ends (simulates.ended lastRelated stop)

end Simulates

/-- Two machines come to the same step, and behind it to states that are known. Either may take
silent steps on the way. -/
inductive Meets {σ τ : Type} (step : σ → Progress σ) (other : τ → Progress τ)
    (known : σ → τ → Prop) : σ → τ → Prop where
  | left {state next : σ} {image : τ} :
      step state = .moved [] next → Meets step other known next image →
      Meets step other known state image
  | right {state : σ} {image target : τ} :
      other image = .moved [] target → Meets step other known state target →
      Meets step other known state image
  | moved {state next : σ} {image target : τ} {events : List Event} :
      step state = .moved events next → other image = .moved events target →
      known next target → Meets step other known state image
  | ended {state : σ} {image : τ} {events : List Event} {ending : Ending} :
      step state = .ended events ending → other image = .ended events ending →
      Meets step other known state image

namespace Meets

variable {τ : Type} {step : σ → Progress σ} {other : τ → Progress τ} {known : σ → τ → Prop}
  {state : σ} {image : τ}

theorem symm (meets : Meets step other known state image) :
    Meets other step (fun image state => known state image) image state := by
  induction meets with
  | left moved _ ih => exact .right moved ih
  | right moved _ ih => exact .left moved ih
  | moved moved also isKnown => exact .moved also moved isKnown
  | ended ended also => exact .ended also ended

/-- Machines that meet again and again simulate each other. -/
theorem simulates (closed : ∀ {state image}, known state image → Meets step other known state image) :
    Simulates step other (Meets step other known) := by
  constructor
  · intro state next image events meets taken
    induction meets with
    | left moved rest _ =>
      rw [moved] at taken
      cases taken
      exact ⟨_, .refl _, rest⟩
    | right moved _ ih =>
      obtain ⟨target, run, related⟩ := ih taken
      exact ⟨target, .step moved run, related⟩
    | moved moved also isKnown =>
      rw [moved] at taken
      cases taken
      exact ⟨_, .single also, closed isKnown⟩
    | ended ended _ =>
      rw [ended] at taken
      cases taken
  · intro state image events ending meets stops
    induction meets with
    | left moved _ _ =>
      rw [moved] at stops
      cases stops
    | right moved _ ih => exact (Runs.single moved).ends (ih stops)
    | moved moved _ _ =>
      rw [moved] at stops
      cases stops
    | ended ended also =>
      rw [ended] at stops
      cases stops
      exact .single also

end Meets

end Progress

namespace Action

/-- Execute an instruction that is no branch. Instructions that leave the routine
end the run. -/
def perform {σ : Type} (act : Action) (instr : Instr) (memory : Memory)
    (next : Memory → σ) : Progress σ :=
  match act instr memory with
  | .error fault => .ended [⟨instr, memory⟩] (.failed fault memory)
  | .ok (flow, after) =>
      if flow = .next ∧ instr.op.isExit = false then .moved [⟨instr, memory⟩] (next after)
      else .ended [⟨instr, memory⟩] (.left flow after)

end Action

namespace Graph

/-- A place on a walk through a graph: the block, what is left of its instructions,
and the memory. -/
structure Place where
  block : BlockId
  rest : List Instr
  memory : Memory

def enter (graph : Graph) (id : BlockId) (memory : Memory) : Place :=
  ⟨id, (graph.block id).instrs, memory⟩

/-- The integer on top of the stack as a truth value, and the memory without it. -/
def condition? (memory : Memory) : Option (Bool × Memory) :=
  match memory.stack with
  | .uint value :: rest => some (value ≠ 0, { memory with stack := rest })
  | _ => none

/-- One step of a walk: the next instruction of the block, or the way on to the next
block. A conditional block takes a value off the stack and goes on at its first
target if the value is not zero, at the second one otherwise. -/
def walk (act : Action) (graph : Graph) (place : Place) : Progress Place :=
  match place.rest with
  | instr :: rest => act.perform instr place.memory fun memory => ⟨place.block, rest, memory⟩
  | [] =>
      match (graph.block place.block).shape with
      | .simple (some next) => .moved [] (graph.enter next place.memory)
      | .conditional (some onTrue) (some onFalse) =>
          match condition? place.memory with
          | some (holds, memory) =>
              .moved [] (graph.enter (if holds then onTrue else onFalse) memory)
          | none => .ended [] (.undecided place.memory)
      | _ => .ended [] (.lost place.memory)

end Graph

namespace FlatCode

structure Point where
  position : Nat
  memory : Memory

/-- The position of a label; the last one if the label stands in several places. -/
def labelPosition? (code : FlatCode) (label : Label) : Option Nat :=
  (code.zipIdx.reverse.find? fun entry => entry.1 = .label label).map Prod.snd

/-- Follow a branch: the machine decides whether it is taken. -/
def branch (code : FlatCode) (instr : Instr) (point : Point) : Progress Point :=
  match Machine.execute {} {} ⟨instr.op, 0⟩ [] point.memory with
  | .error _ => .ended [] (.undecided point.memory)
  | .ok (.jump, memory) =>
      match instr.label?.bind code.labelPosition? with
      | some target => .moved [] ⟨target, memory⟩
      | none => .ended [] (.lost memory)
  | .ok (_, memory) => .moved [] ⟨point.position + 1, memory⟩

/-- One step through flat code: pass over a label, follow a branch, or execute any
other instruction. -/
def step (act : Action) (code : FlatCode) (point : Point) : Progress Point :=
  match code[point.position]? with
  | none => .ended [] (.lost point.memory)
  | some (.label _) => .moved [] ⟨point.position + 1, point.memory⟩
  | some (.instr instr) =>
      if instr.op.isBranch then code.branch instr point
      else act.perform instr point.memory fun memory => ⟨point.position + 1, memory⟩

end FlatCode

end ContractBackend
