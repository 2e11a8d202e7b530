import ContractBackend.Proofs.Control

/-!
# Gauges

A gauge says what is known of a routine at each place of its code, such as the height of
its part of the stack, and which instructions may be executed there. Code is safe if
control, wherever it can come to, finds an instruction that may be executed.
-/

namespace ContractBackend

/-- What is known of a routine at a place of its code, and what may be executed there. -/
structure Gauge (α : Type) where
  /-- What an instruction that goes on makes of it, if the instruction may be executed. -/
  move : Instr → α → Option α
  /-- Whether an instruction that leaves the routine may be executed. -/
  leave : Instr → α → Prop
  /-- What taking a value off the stack for a decision makes of it. -/
  test : α → Option α
  straight : ∀ {instr : Instr} {level next : α}, move instr level = some next →
    instr.op.isBranch = false

namespace Gauge

variable {α : Type} (gauge : Gauge α)

/-- Straight code may be executed, and control leaves the routine at its end or goes on behind
it with something that holds there. -/
def Through : List Instr → α → (α → Prop) → Prop
  | [], level, behind => behind level
  | instr :: rest, level, behind =>
      if instr.op.isExit then gauge.leave instr level ∧ rest = []
      else ∃ next, gauge.move instr level = some next ∧ Through rest next behind

variable {gauge} {instrs : List Instr} {level : α} {behind : α → Prop}

theorem Through.mono {behind' : α → Prop} (through : gauge.Through instrs level behind)
    (weaker : ∀ level, behind level → behind' level) : gauge.Through instrs level behind' := by
  induction instrs generalizing level with
  | nil => exact weaker level through
  | cons instr rest ih =>
    simp only [Through] at through ⊢
    split
    next exits => simpa [exits] using through
    next goes =>
      simp only [goes] at through
      obtain ⟨next, moves, through⟩ := through
      exact ⟨next, moves, ih through⟩

/-- Code that may be executed whatever holds behind it ends with all of it. -/
theorem through_forall {ι : Type} [Nonempty ι] {behind : ι → α → Prop}
    (through : ∀ index, gauge.Through instrs level (behind index)) :
    gauge.Through instrs level fun level => ∀ index, behind index level := by
  induction instrs generalizing level with
  | nil => exact through
  | cons instr rest ih =>
    obtain ⟨first⟩ := ‹Nonempty ι›
    have start := through first
    simp only [Through] at start through ⊢
    split
    next exits => simpa [exits] using start
    next goes =>
      simp only [goes] at start through
      obtain ⟨next, moves, _⟩ := start
      refine ⟨next, moves, ih fun index => ?_⟩
      obtain ⟨other, otherMoves, rest⟩ := through index
      rw [moves] at otherMoves
      cases otherMoves
      exact rest

/-- Only the last instruction leaves the routine. -/
theorem Through.split {front rest : List Instr} {instr : Instr}
    (through : gauge.Through (front ++ instr :: rest) level behind) :
    gauge.Through front level (fun level => gauge.Through (instr :: rest) level behind) ∧
      ∀ other ∈ front, other.op.isExit = false := by
  induction front generalizing level with
  | nil => exact ⟨through, nofun⟩
  | cons head tail ih =>
    simp only [List.cons_append, Through] at through ⊢
    split at through
    next => simp at through
    next goes =>
      obtain ⟨next, moves, through⟩ := through
      obtain ⟨first, others⟩ := ih through
      simp only [goes]
      exact ⟨⟨next, moves, first⟩, by simpa [goes] using others⟩

theorem through_append {front rest : List Instr}
    (goes : ∀ instr ∈ front, instr.op.isExit = false) :
    gauge.Through (front ++ rest) level behind ↔
      gauge.Through front level fun level => gauge.Through rest level behind := by
  induction front generalizing level with
  | nil => rfl
  | cons head tail ih =>
    have tailGoes : ∀ instr ∈ tail, instr.op.isExit = false :=
      fun instr member => goes instr (by simp [member])
    simp only [List.cons_append, Through, goes head (by simp), Bool.false_eq_true, if_false,
      ih tailGoes]

/-- No instruction leaves the routine if the last one does not. -/
theorem Through.goes (through : gauge.Through instrs level behind)
    (last : ∀ last, instrs.getLast? = some last → last.op.isExit = false) :
    ∀ instr ∈ instrs, instr.op.isExit = false := by
  rcases List.eq_nil_or_concat instrs with rfl | ⟨front, final, rfl⟩
  · nofun
  · rw [List.concat_eq_append] at through last ⊢
    exact List.forall_mem_append.mpr ⟨through.split.2, by simpa using last⟩

/-- Nothing has to hold behind code whose last instruction leaves the routine, and no other
instruction of such code does. -/
theorem Through.cases_last {behind' : α → Prop} (through : gauge.Through instrs level behind)
    (weaker : (∀ instr ∈ instrs, instr.op.isExit = false) →
      ∀ level, behind level → behind' level) : gauge.Through instrs level behind' := by
  rcases List.eq_nil_or_concat instrs with rfl | ⟨front, last, rfl⟩
  · exact weaker nofun level through
  · rw [List.concat_eq_append] at through weaker ⊢
    obtain ⟨first, goes⟩ := through.split
    rw [through_append goes]
    refine first.mono fun level atLast => ?_
    simp only [Through] at atLast ⊢
    split
    next exits => simpa [exits] using atLast
    next goesOn =>
      simp only [goesOn] at atLast
      obtain ⟨next, moves, holds⟩ := atLast
      refine ⟨next, moves, weaker ?_ next holds⟩
      simpa [or_imp, forall_and, goesOn] using goes

/-- Control goes on behind code whose last instruction does not leave the routine. -/
theorem Through.exists_behind (through : gauge.Through instrs level behind)
    (goes : ∀ last, instrs.getLast? = some last → last.op.isExit = false) :
    ∃ after, behind after := by
  induction instrs generalizing level with
  | nil => exact ⟨level, through⟩
  | cons instr rest ih =>
    simp only [Through] at through
    split at through
    next exits =>
      obtain ⟨_, rfl⟩ := through
      simp [goes instr rfl] at exits
    next =>
      obtain ⟨next, _, through⟩ := through
      refine ih through fun last isLast => goes last ?_
      rw [List.getLast?_cons, isLast]
      rfl

/-- Instructions that may be executed are no branches. -/
theorem Through.isBranch (through : gauge.Through instrs level behind) :
    ∀ instr ∈ instrs, instr.op.isBranch = false := by
  induction instrs generalizing level with
  | nil => nofun
  | cons instr rest ih =>
    simp only [Through] at through
    split at through
    next exits =>
      obtain ⟨_, rfl⟩ := through
      have straight : instr.op.isBranch = false := by
        cases op : instr.op <;> simp_all [Opcode.isExit, Opcode.isBranch]
      simpa using straight
    next =>
      obtain ⟨next, moves, through⟩ := through
      exact List.forall_mem_cons.mpr ⟨gauge.straight moves, ih through⟩

/-- Straight code that does not leave the routine takes one level to another. -/
def Carries (gauge : Gauge α) (instrs : List Instr) (level next : α) : Prop :=
  gauge.Through instrs level (· = next) ∧ ∀ instr ∈ instrs, instr.op.isExit = false

namespace Carries

variable {next last : α} {instr : Instr} {others : List Instr}

theorem nil (level : α) : gauge.Carries [] level level := ⟨rfl, nofun⟩

theorem cons (goes : instr.op.isExit = false) (moves : gauge.move instr level = some next)
    (rest : gauge.Carries instrs next last) : gauge.Carries (instr :: instrs) level last := by
  refine ⟨?_, List.forall_mem_cons.mpr ⟨goes, rest.2⟩⟩
  simp only [Through, goes, Bool.false_eq_true, if_false]
  exact ⟨next, moves, rest.1⟩

theorem through (carries : gauge.Carries instrs level next) (holds : behind next) :
    gauge.Through instrs level behind :=
  carries.1.mono fun _ same => same ▸ holds

theorem of_cons (carries : gauge.Carries (instr :: instrs) level last) :
    instr.op.isExit = false ∧
      ∃ next, gauge.move instr level = some next ∧ gauge.Carries instrs next last := by
  obtain ⟨through, goes⟩ := carries
  obtain ⟨first, others⟩ := List.forall_mem_cons.mp goes
  simp only [Through, first, Bool.false_eq_true, if_false] at through
  obtain ⟨next, moves, rest⟩ := through
  exact ⟨first, next, moves, rest, others⟩

theorem append (first : gauge.Carries instrs level next) (second : gauge.Carries others next last) :
    gauge.Carries (instrs ++ others) level last :=
  ⟨(through_append first.2).mpr (first.through second.1),
    List.forall_mem_append.mpr ⟨first.2, second.2⟩⟩

end Carries

end Gauge

namespace Graph

variable {α : Type} (gauge : Gauge α) (graph : Graph)

/-- Control goes on behind the instructions of a block to places where something holds. -/
inductive Goes (safe : BlockId → α → Prop) (id : BlockId) (level : α) : Prop where
  | simple {next : BlockId} : (graph.block id).shape = .simple (some next) → safe next level →
      Goes safe id level
  | conditional {onTrue onFalse : BlockId} {after : α} :
      (graph.block id).shape = .conditional (some onTrue) (some onFalse) →
      gauge.test level = some after → safe onTrue after → safe onFalse after →
      Goes safe id level

/-- Control that enters a block is safe for a number of blocks. -/
def SafeFor : Nat → BlockId → α → Prop
  | 0, _, _ => True
  | count + 1, id, level =>
      gauge.Through (graph.block id).instrs level (graph.Goes gauge (SafeFor count) id)

/-- Control that enters a block is safe. -/
def Safe (id : BlockId) (level : α) : Prop := ∀ count, graph.SafeFor gauge count id level

variable {gauge graph} {id : BlockId} {level : α}

section Goes

variable {safe safe' : BlockId → α → Prop}

theorem Goes.of_simple {next : BlockId} (shape : (graph.block id).shape = .simple (some next))
    (goes : graph.Goes gauge safe id level) : safe next level := by
  cases goes with
  | simple shape' holds =>
    rw [shape] at shape'
    cases shape'
    exact holds
  | conditional shape' => simp [shape] at shape'

theorem Goes.of_conditional {onTrue onFalse : BlockId}
    (shape : (graph.block id).shape = .conditional (some onTrue) (some onFalse))
    (goes : graph.Goes gauge safe id level) :
    ∃ after, gauge.test level = some after ∧ safe onTrue after ∧ safe onFalse after := by
  cases goes with
  | simple shape' => simp [shape] at shape'
  | conditional shape' tests holds holds' =>
    rw [shape] at shape'
    cases shape'
    exact ⟨_, tests, holds, holds'⟩

theorem Goes.mono (goes : graph.Goes gauge safe id level)
    (weaker : ∀ id level, safe id level → safe' id level) : graph.Goes gauge safe' id level := by
  cases goes with
  | simple shape holds => exact .simple shape (weaker _ _ holds)
  | conditional shape tests onTrue onFalse =>
    exact .conditional shape tests (weaker _ _ onTrue) (weaker _ _ onFalse)

end Goes

/-- Safe control stays safe block by block. -/
theorem Safe.through (safe : graph.Safe gauge id level) :
    gauge.Through (graph.block id).instrs level (graph.Goes gauge (graph.Safe gauge) id) := by
  have every : gauge.Through (graph.block id).instrs level fun level =>
      ∀ count, graph.Goes gauge (graph.SafeFor gauge count) id level :=
    Gauge.through_forall fun count => safe (count + 1)
  refine every.mono fun level goes => ?_
  cases goes 0 with
  | simple shape => exact .simple shape fun count => (goes count).of_simple shape
  | @conditional onTrue onFalse after shape tests =>
    have both : ∀ count, graph.SafeFor gauge count onTrue after ∧
        graph.SafeFor gauge count onFalse after := by
      intro count
      obtain ⟨after', tests', safe⟩ := (goes count).of_conditional shape
      rw [tests] at tests'
      cases tests'
      exact safe
    exact .conditional shape tests (fun count => (both count).1) fun count => (both count).2

/-- Whatever is kept from block to block is safe. -/
theorem safe_of_kept (kept : BlockId → α → Prop)
    (keeps : ∀ id level, kept id level →
      gauge.Through (graph.block id).instrs level (graph.Goes gauge kept id))
    (holds : kept id level) : graph.Safe gauge id level := by
  intro count
  induction count generalizing id level with
  | zero => trivial
  | succ count ih => exact (keeps id level holds).mono fun _ goes => goes.mono fun _ _ => ih

end Graph

namespace FlatCode

variable {α : Type} (gauge : Gauge α) (code : FlatCode)

/-- What stands at a position may be executed, and something holds wherever control goes on. -/
inductive Passes (safe : Nat → α → Prop) (position : Nat) (level : α) : Prop where
  | label {label : Label} : code[position]? = some (.label label) → safe (position + 1) level →
      Passes safe position level
  | leave {instr : Instr} : code[position]? = some (.instr instr) → instr.op.isExit = true →
      gauge.leave instr level → Passes safe position level
  | move {instr : Instr} {next : α} : code[position]? = some (.instr instr) →
      instr.op.isExit = false → gauge.move instr level = some next → safe (position + 1) next →
      Passes safe position level
  | jump {label : Label} {target : Nat} : code[position]? = some (.instr (.branch .b label)) →
      code.labelPosition? label = some target → safe target level → Passes safe position level
  | branch {op : Opcode} {label : Label} {target : Nat} {after : α} :
      code[position]? = some (.instr (.branch op label)) → op = .bnz ∨ op = .bz →
      code.labelPosition? label = some target → gauge.test level = some after →
      safe target after → safe (position + 1) after → Passes safe position level

/-- Control at a position is safe: something holds there that is kept from position to
position. -/
def Safe (position : Nat) (level : α) : Prop :=
  ∃ kept : Nat → α → Prop, kept position level ∧
    ∀ position level, kept position level → code.Passes gauge kept position level

variable {gauge code} {position : Nat} {level : α}

theorem Passes.mono {safe safe' : Nat → α → Prop} (passes : code.Passes gauge safe position level)
    (weaker : ∀ position level, safe position level → safe' position level) :
    code.Passes gauge safe' position level := by
  cases passes with
  | label here holds => exact .label here (weaker _ _ holds)
  | leave here exits leaves => exact .leave here exits leaves
  | move here goes moves holds => exact .move here goes moves (weaker _ _ holds)
  | jump here found holds => exact .jump here found (weaker _ _ holds)
  | branch here conditional found tests taken passed =>
    exact .branch here conditional found tests (weaker _ _ taken) (weaker _ _ passed)

theorem Safe.passes (safe : code.Safe gauge position level) :
    code.Passes gauge (code.Safe gauge) position level := by
  obtain ⟨kept, holds, keeps⟩ := safe
  exact (keeps position level holds).mono fun _ _ holds' => ⟨kept, holds', keeps⟩

/-- There is something at every position that control comes to. -/
theorem Safe.exists_item (safe : code.Safe gauge position level) :
    ∃ item, code[position]? = some item := by
  cases safe.passes with
  | label here | leave here | move here | jump here | branch here => exact ⟨_, here⟩

theorem Safe.label {label : Label} (safe : code.Safe gauge position level)
    (here : code[position]? = some (.label label)) : code.Safe gauge (position + 1) level := by
  cases safe.passes with
  | label _ safe => exact safe
  | leave there | move there | jump there | branch there => simp [here] at there

variable (gauge code) in
/-- How control goes on from an instruction. -/
inductive PassesInstr (safe : Nat → α → Prop) (position : Nat) (level : α) : Instr → Prop where
  | leave {instr : Instr} : instr.op.isExit = true → gauge.leave instr level →
      PassesInstr safe position level instr
  | move {instr : Instr} {next : α} : instr.op.isExit = false → gauge.move instr level = some next →
      safe (position + 1) next → PassesInstr safe position level instr
  | jump {label : Label} {target : Nat} : code.labelPosition? label = some target →
      safe target level → PassesInstr safe position level (.branch .b label)
  | branch {op : Opcode} {label : Label} {target : Nat} {after : α} : op = .bnz ∨ op = .bz →
      code.labelPosition? label = some target → gauge.test level = some after →
      safe target after → safe (position + 1) after →
      PassesInstr safe position level (.branch op label)

theorem Passes.instr {safe : Nat → α → Prop} {instr : Instr}
    (passes : code.Passes gauge safe position level)
    (here : code[position]? = some (.instr instr)) :
    code.PassesInstr gauge safe position level instr := by
  cases passes with
  | label there => simp [here] at there
  | leave there exits leaves =>
    cases here.symm.trans there
    exact .leave exits leaves
  | move there goes moves holds =>
    cases here.symm.trans there
    exact .move goes moves holds
  | jump there found holds =>
    cases here.symm.trans there
    exact .jump found holds
  | branch there conditional found tests taken passed =>
    cases here.symm.trans there
    exact .branch conditional found tests taken passed

section PassesInstr

variable {safe : Nat → α → Prop} {instr : Instr}

theorem PassesInstr.leaves (passes : code.PassesInstr gauge safe position level instr)
    (exits : instr.op.isExit = true) : gauge.leave instr level := by
  cases passes with
  | leave _ leaves => exact leaves
  | move goes => simp [exits] at goes
  | jump => cases exits
  | branch conditional => rcases conditional with rfl | rfl <;> cases exits

theorem PassesInstr.moves (passes : code.PassesInstr gauge safe position level instr)
    (goes : instr.op.isExit = false) (straight : instr.op.isBranch = false) :
    ∃ next, gauge.move instr level = some next ∧ safe (position + 1) next := by
  cases passes with
  | leave exits => simp [goes] at exits
  | move _ moves holds => exact ⟨_, moves, holds⟩
  | jump => cases straight
  | branch conditional => rcases conditional with rfl | rfl <;> cases straight

end PassesInstr

end FlatCode

end ContractBackend
