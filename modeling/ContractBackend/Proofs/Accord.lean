import Mathlib.Data.Nat.Init
import ContractBackend.Proofs.Listing
import ContractBackend.Proofs.Machine.Primitives

/-!
# Walks and runs in accord

Flat code spells a graph if it is made of parts, one for each block: labels, the instructions of
the block, and branches that lead to the parts of the blocks that follow. Then a walk through the
graph and a run of the code execute the same instructions. What either passes over in silence on
the way to the next instruction or decision is finite.
-/

namespace ContractBackend

open Machine (Memory)
open Progress (Runs Ends Meets)

/-! ## Branches of the flat code -/

namespace FlatCode

variable {code : FlatCode} {index target : Nat} {instr : Instr}

/-- How the machine follows a conditional branch: `bnz` jumps if the condition holds,
`bz` if it does not. -/
theorem execute_conditional (memory : Memory) {op : Opcode} (conditional : op = .bnz ∨ op = .bz) :
    match Graph.condition? memory with
    | some (holds, rest) => Machine.execute {} {} ⟨op, 0⟩ [] memory =
        .ok (if holds = decide (op = .bnz) then .jump else .next, rest)
    | none => ∃ fault, Machine.execute {} {} ⟨op, 0⟩ [] memory = .error fault := by
  rcases memory with ⟨_ | ⟨value | value, rest⟩, scratch, effects, appState⟩
  · rcases conditional with rfl | rfl <;> exact ⟨_, rfl⟩
  · by_cases zero : value = 0 <;> rcases conditional with rfl | rfl <;>
      simp [Graph.condition?, Machine.execute, Machine.Exec.bind_apply,
        Machine.Exec.popUint_apply, Machine.Exec.pure_apply, zero]
  · rcases conditional with rfl | rfl <;> exact ⟨_, rfl⟩

theorem step_label (act : Action) (memory : Memory) {label : Label}
    (here : code[index]? = some (.label label)) :
    code.step act ⟨index, memory⟩ = .moved [] ⟨index + 1, memory⟩ := by
  simp only [step, here]

theorem step_jump (act : Action) (memory : Memory)
    (here : code[index]? = some (.instr instr)) (jumps : instr.op = .b)
    (aims : instr.label?.bind code.labelPosition? = some target) :
    code.step act ⟨index, memory⟩ = .moved [] ⟨target, memory⟩ := by
  simp only [step, here, branch, aims, jumps]
  rfl

theorem isBranch_of_conditional {op : Opcode} (conditional : op = .bnz ∨ op = .bz) :
    op.isBranch = true := by
  rcases conditional with rfl | rfl <;> rfl

theorem step_conditional (act : Action) (memory : Memory)
    (here : code[index]? = some (.instr instr))
    (conditional : instr.op = .bnz ∨ instr.op = .bz)
    (aims : instr.label?.bind code.labelPosition? = some target) :
    code.step act ⟨index, memory⟩ =
      match Graph.condition? memory with
      | some (holds, rest) =>
        .moved [] ⟨if holds = decide (instr.op = .bnz) then target else index + 1, rest⟩
      | none => .ended [] (.undecided memory) := by
  have decided := execute_conditional memory conditional
  simp only [step, here, isBranch_of_conditional conditional, if_true, branch, aims]
  cases outcome : Graph.condition? memory with
  | none =>
    rw [outcome] at decided
    obtain ⟨fault, failed⟩ := decided
    simp only [failed]
  | some result =>
    rw [outcome] at decided
    simp only at decided
    rw [decided]
    by_cases taken : result.1 = decide (instr.op = .bnz) <;> simp [taken]

end FlatCode

namespace Action

variable {act : Action} {σ τ : Type} {instr : Instr} {memory : Memory} {next : Memory → σ}
  {events : List Event}

theorem perform_eq_moved {state : σ} : act.perform instr memory next = .moved events state ↔
    ∃ after, act instr memory = .ok (.next, after) ∧ instr.op.isExit = false ∧
      events = [⟨instr, memory⟩] ∧ state = next after := by
  simp only [Action.perform]
  split
  next => simp_all
  next flow after equal =>
    split
    next continues => grind
    next stops => grind

theorem perform_eq_ended {ending : Ending}
    (ended : act.perform instr memory next = .ended events ending) (other : Memory → τ) :
    act.perform instr memory other = .ended events ending := by
  simp only [Action.perform] at ended ⊢
  split
  next fault equal => simpa [equal] using ended
  next flow after equal =>
    simp only [equal] at ended
    split
    next continues => simp [continues] at ended
    next stops => simpa [stops] using ended

end Action

namespace Graph

variable {graph : Graph} {code : FlatCode} {act : Action} {id : BlockId} {memory : Memory}
  {index : Nat}

theorem walk_simple {next : BlockId} (shape : (graph.block id).shape = .simple (some next)) :
    graph.walk act ⟨id, [], memory⟩ = .moved [] (graph.enter next memory) := by
  simp only [walk, shape]

theorem walk_lost (waits : (graph.block id).shape.targets = []) :
    graph.walk act ⟨id, [], memory⟩ = .ended [] (.lost memory) := by
  rw [walk]
  rcases shape : (graph.block id).shape with (_ | _) | ⟨_ | _, _ | _⟩ <;>
    simp_all [Shape.targets]

theorem walk_conditional {onTrue onFalse : BlockId}
    (shape : (graph.block id).shape = .conditional (some onTrue) (some onFalse)) :
    graph.walk act ⟨id, [], memory⟩ =
      match condition? memory with
      | some (holds, rest) => .moved [] (graph.enter (if holds then onTrue else onFalse) rest)
      | none => .ended [] (.undecided memory) := by
  cases held : condition? memory <;> simp [walk, shape, held]

/-- A walk and a run that decide a branch get to the two targets alike. -/
theorem decide_branch {target : Nat} {instr : Instr} {onTrue onFalse taken passed : BlockId}
    (shape : (graph.block id).shape = .conditional (some onTrue) (some onFalse))
    (here : code[index]? = some (.instr instr))
    (sides : instr.op = .bnz ∧ taken = onTrue ∧ passed = onFalse ∨
      instr.op = .bz ∧ taken = onFalse ∧ passed = onTrue)
    (aims : instr.label?.bind code.labelPosition? = some target) (act : Action) (memory : Memory) :
    (∃ after, graph.walk act ⟨id, [], memory⟩ = .moved [] (graph.enter taken after) ∧
      code.step act ⟨index, memory⟩ = .moved [] ⟨target, after⟩) ∨
    (∃ after, graph.walk act ⟨id, [], memory⟩ = .moved [] (graph.enter passed after) ∧
      code.step act ⟨index, memory⟩ = .moved [] ⟨index + 1, after⟩) ∨
    ∃ ending, graph.walk act ⟨id, [], memory⟩ = .ended [] ending ∧
      code.step act ⟨index, memory⟩ = .ended [] ending := by
  have conditional : instr.op = .bnz ∨ instr.op = .bz := sides.imp And.left And.left
  rw [walk_conditional shape, FlatCode.step_conditional act memory here conditional aims]
  cases condition? memory with
  | none => exact .inr (.inr ⟨_, rfl, rfl⟩)
  | some result =>
    obtain ⟨holds, after⟩ := result
    rcases sides with ⟨isBnz, rfl, rfl⟩ | ⟨isBz, rfl, rfl⟩
    · cases holds with
      | true => exact .inl ⟨after, rfl, by simp [isBnz]⟩
      | false => exact .inr (.inl ⟨after, rfl, by simp [isBnz]⟩)
    · cases holds with
      | true => exact .inr (.inl ⟨after, rfl, by simp [isBz]⟩)
      | false => exact .inl ⟨after, rfl, by simp [isBz]⟩

/-! ## The next step -/

/-- The code at a position and a walk in a block come to the same step, and behind it to a place
that is known. -/
inductive Accords (graph : Graph) (code : FlatCode) (known : Nat → BlockId → List Instr → Prop) :
    Nat → BlockId → List Instr → Prop where
  /-- The code passes over a label. -/
  | label {index : Nat} {label : Label} {id : BlockId} {rest : List Instr} :
      code[index]? = some (.label label) → Accords graph code known (index + 1) id rest →
      Accords graph code known index id rest
  /-- The code jumps to where the walk is. -/
  | jump {index target : Nat} {instr : Instr} {id : BlockId} {rest : List Instr} :
      code[index]? = some (.instr instr) → instr.op = .b →
      instr.label?.bind code.labelPosition? = some target →
      Accords graph code known target id rest → Accords graph code known index id rest
  /-- The walk goes on to where the code is. -/
  | fall {index : Nat} {id next : BlockId} :
      (graph.block id).shape = .simple (some next) →
      Accords graph code known index next (graph.block next).instrs →
      Accords graph code known index id []
  | instr {index : Nat} {instr : Instr} {id : BlockId} {rest : List Instr} :
      code[index]? = some (.instr instr) → instr.op.isBranch = false →
      (instr.op.isExit = false → known (index + 1) id rest) →
      Accords graph code known index id (instr :: rest)
  /-- The code jumps to where the walk goes on. -/
  | across {index target : Nat} {instr : Instr} {id next : BlockId} :
      (graph.block id).shape = .simple (some next) → code[index]? = some (.instr instr) →
      instr.op = .b → instr.label?.bind code.labelPosition? = some target →
      known target next (graph.block next).instrs → Accords graph code known index id []
  | branch {index target : Nat} {instr : Instr} {id onTrue onFalse taken passed : BlockId} :
      (graph.block id).shape = .conditional (some onTrue) (some onFalse) →
      code[index]? = some (.instr instr) →
      (instr.op = .bnz ∧ taken = onTrue ∧ passed = onFalse ∨
        instr.op = .bz ∧ taken = onFalse ∧ passed = onTrue) →
      instr.label?.bind code.labelPosition? = some target →
      known target taken (graph.block taken).instrs →
      known (index + 1) passed (graph.block passed).instrs →
      Accords graph code known index id []
  | stop {index : Nat} {id : BlockId} :
      (graph.block id).shape = .simple none → code[index]? = none →
      Accords graph code known index id []

variable {known : Nat → BlockId → List Instr → Prop} {index : Nat} {rest : List Instr}

theorem Accords.meets (accords : graph.Accords code known index id rest) (act : Action)
    (memory : Memory) :
    Meets (graph.walk act) (code.step act)
      (fun place point => place.memory = point.memory ∧
        known point.position place.block place.rest)
      ⟨id, rest, memory⟩ ⟨index, memory⟩ := by
  induction accords with
  | label here _ ih => exact .right (FlatCode.step_label act memory here) ih
  | jump here isJump aims _ ih => exact .right (FlatCode.step_jump act memory here isJump aims) ih
  | fall shape _ ih => exact .left (walk_simple shape) ih
  | @instr index instr id rest here plain next =>
    have stepped : code.step act ⟨index, memory⟩ =
        act.perform instr memory fun memory => ⟨index + 1, memory⟩ := by
      simp only [FlatCode.step, here, plain, Bool.false_eq_true, if_false]
    cases walked : graph.walk act ⟨id, instr :: rest, memory⟩ with
    | moved events place =>
      obtain ⟨after, acted, continues, rfl, rfl⟩ := Action.perform_eq_moved.mp walked
      exact .moved walked (stepped.trans (Action.perform_eq_moved.mpr
        ⟨after, acted, continues, rfl, rfl⟩)) ⟨rfl, next continues⟩
    | ended events ending =>
      exact .ended walked (stepped.trans (Action.perform_eq_ended walked _))
  | across shape here isJump aims next =>
    exact .moved (walk_simple shape) (FlatCode.step_jump act memory here isJump aims) ⟨rfl, next⟩
  | branch shape here sides aims taken passed =>
    rcases decide_branch shape here sides aims act memory
      with ⟨after, walked, stepped⟩ | ⟨after, walked, stepped⟩ | ⟨ending, walked, stepped⟩
    · exact .moved walked stepped ⟨rfl, taken⟩
    · exact .moved walked stepped ⟨rfl, passed⟩
    · exact .ended walked stepped
  | stop shape beyond =>
    refine .ended (walk_lost (by rw [shape]; rfl)) ?_
    simp only [FlatCode.step, beyond]

/-- A walk and a run in accord execute the same and end in the same way, if they come to places in
accord again and again. -/
theorem Accords.agree
    (closed : ∀ {index id rest}, known index id rest → graph.Accords code known index id rest)
    (accords : graph.Accords code known index id rest) (act : Action) (memory : Memory)
    (events : List Event) :
    ((∃ place, Runs (graph.walk act) ⟨id, rest, memory⟩ events place) ↔
      ∃ point, Runs (code.step act) ⟨index, memory⟩ events point) ∧
    ∀ ending, Ends (graph.walk act) ⟨id, rest, memory⟩ events ending ↔
      Ends (code.step act) ⟨index, memory⟩ events ending := by
  have again : ∀ {place : Place} {point : FlatCode.Point}, place.memory = point.memory ∧
      known point.position place.block place.rest →
      Meets (graph.walk act) (code.step act) (fun place point => place.memory = point.memory ∧
        known point.position place.block place.rest) place point := by
    rintro ⟨id, rest, memory⟩ ⟨index, _⟩ ⟨rfl, isKnown⟩
    exact (closed isKnown).meets act memory
  have forth := Meets.simulates again
  have back := Meets.simulates fun known => (again known).symm
  have here := accords.meets act memory
  refine ⟨⟨?_, ?_⟩, fun ending => ⟨forth.ends here, back.ends here.symm⟩⟩
  · rintro ⟨place, run⟩
    obtain ⟨point, follows, _⟩ := forth.runs here run
    exact ⟨point, follows⟩
  · rintro ⟨point, run⟩
    obtain ⟨place, follows, _⟩ := back.runs here.symm run
    exact ⟨place, follows⟩

/-! ## Parts of the code -/

section Parts

/-- Which block's part has a number, how many labels it begins with, and the branches it ends
with. -/
abbrev Parts := Nat → BlockId → Nat → List Instr → Prop

variable (graph : Graph) (code : FlatCode) (start : Nat → Nat) (parts : Parts)

/-- A branch leads to the part of a block: to its beginning or behind some of its labels. -/
def Aims (instr : Instr) (id : BlockId) : Prop :=
  ∃ number labels branches offset, parts number id labels branches ∧ offset ≤ labels ∧
    instr.label?.bind code.labelPosition? = some (start number + offset)

/-- Control gets to a block: it falls through to the next part or it jumps. -/
inductive Onward (number : Nat) : List Instr → BlockId → Prop where
  | falls {id : BlockId} {labels : Nat} {branches : List Instr} :
      parts (number + 1) id labels branches → Onward number [] id
  | jumps {instr : Instr} {id : BlockId} :
      instr.op = .b → Aims code start parts instr id → Onward number [instr] id

/-- The branches at the end of a part lead to the targets of its block. -/
inductive Continues (number : Nat) (id : BlockId) : List Instr → Prop where
  | exit : (graph.block id).exits = true → Continues number id []
  | stop : (graph.block id).shape = .simple none → code[start (number + 1)]? = none →
      Continues number id []
  | simple {next : BlockId} {branches : List Instr} :
      (graph.block id).shape = .simple (some next) →
      Onward code start parts number branches next → Continues number id branches
  | conditional {onTrue onFalse taken passed : BlockId} {instr : Instr} {others : List Instr} :
      (graph.block id).shape = .conditional (some onTrue) (some onFalse) →
      (instr.op = .bnz ∧ taken = onTrue ∧ passed = onFalse ∨
        instr.op = .bz ∧ taken = onFalse ∧ passed = onTrue) →
      Aims code start parts instr taken → Onward code start parts number others passed →
      Continues number id (instr :: others)

/-- The parts make up the code. -/
structure Spells (count : Nat) : Prop where
  bound : ∀ {number id labels branches}, parts number id labels branches → number < count
  label : ∀ {number id labels branches offset}, parts number id labels branches →
    offset < labels → ∃ label, code[start number + offset]? = some (.label label)
  instr : ∀ {number id labels branches offset instr}, parts number id labels branches →
    ((graph.block id).instrs ++ branches)[offset]? = some instr →
    code[start number + labels + offset]? = some (.instr instr)
  next : ∀ {number id labels branches}, parts number id labels branches →
    start (number + 1) =
      start number + labels + (graph.block id).instrs.length + branches.length
  branchless : ∀ {number id labels branches}, parts number id labels branches →
    ∀ instr ∈ (graph.block id).instrs, instr.op.isBranch = false
  continues : ∀ {number id labels branches}, parts number id labels branches →
    Continues graph code start parts number id branches

/-- The positions at which a run may be while a walk is in a block: at a label of its part, in
front of one of its instructions or behind the last one, or at a jump that leads to the part. -/
inductive Located : Nat → BlockId → List Instr → Prop where
  | start {number labels offset : Nat} {id : BlockId} {branches : List Instr} :
      parts number id labels branches → offset ≤ labels →
      Located (start number + offset) id (graph.block id).instrs
  | body {number labels : Nat} {id : BlockId} {branches done rest : List Instr} :
      parts number id labels branches → (graph.block id).instrs = done ++ rest →
      ((graph.block id).exits = true → rest ≠ []) →
      Located (start number + labels + done.length) id rest
  | jump {index : Nat} {instr : Instr} {id : BlockId} :
      code[index]? = some (.instr instr) → instr.op = .b → Aims code start parts instr id →
      Located index id (graph.block id).instrs

end Parts

theorem instrs_ne_nil_of_exits {block : Block} (exits : block.exits = true) :
    block.instrs ≠ [] := by
  intro empty
  simp [Block.exits, empty] at exits

/-- Behind an instruction that goes on there is more code, unless the block goes on to
another one. -/
theorem rest_ne_nil {block : Block} {done : List Instr} {instr : Instr}
    (split : block.instrs = done ++ instr :: rest) (continues : instr.op.isExit = false)
    (exits : block.exits = true) : rest ≠ [] := by
  rintro rfl
  simp [Block.exits, split, continues] at exits

namespace Spells

variable {start : Nat → Nat} {parts : Parts} {count number labels : Nat} {id : BlockId}
  {branches done rest : List Instr}

theorem located_of_onward (onward : Onward code start parts number branches id)
    (behind : start (number + 1) = index + branches.length)
    (stands : ∀ offset instr, branches[offset]? = some instr →
      code[index + offset]? = some (.instr instr)) :
    Located graph code start parts index id (graph.block id).instrs := by
  cases onward with
  | falls isPart =>
    have here : index = start (number + 1) + 0 := behind.symm
    rw [here]
    exact .start isPart (Nat.zero_le _)
  | jumps isJump aims => exact .jump (stands 0 _ rfl) isJump aims

variable (spells : graph.Spells code start parts count)

include spells

section Behind

variable (isPart : parts number id labels branches)
  (later : ∀ {next labels branches}, parts (number + 1) next labels branches →
    graph.Accords code (Located graph code start parts) (start (number + 1)) next
      (graph.block next).instrs)

include isPart later

/-- Behind the instructions of a block its branches do what a walk does, if the next part does what
a walk does from its beginning. -/
theorem accords_end (going : (graph.block id).exits = false) :
    graph.Accords code (Located graph code start parts)
      (start number + labels + (graph.block id).instrs.length) id [] := by
  have behind := spells.next isPart
  have stands : ∀ offset instr, branches[offset]? = some instr →
      code[start number + labels + (graph.block id).instrs.length + offset]? =
        some (.instr instr) := by
    intro offset instr found
    rw [Nat.add_assoc _ _ offset]
    apply spells.instr isPart
    rw [List.getElem?_append_right (Nat.le_add_right _ _), Nat.add_sub_cancel_left, found]
  cases spells.continues isPart with
  | exit exits => simp [exits] at going
  | stop shape beyond =>
    rw [behind] at beyond
    exact .stop shape beyond
  | simple shape onward =>
    cases onward with
    | falls next =>
      simp only [List.length_nil, Nat.add_zero] at behind
      rw [← behind]
      exact .fall shape (later next)
    | jumps isJump aims =>
      obtain ⟨_, _, _, _, next, within, isTarget⟩ := aims
      exact .across shape (stands 0 _ rfl) isJump isTarget (.start next within)
  | conditional shape sides aims onward =>
    obtain ⟨_, _, _, _, next, within, isTarget⟩ := aims
    refine .branch shape (stands 0 _ rfl) sides isTarget (.start next within)
      (located_of_onward onward ?_ fun offset branch found => ?_)
    · rw [behind, List.length_cons]
      omega
    · rw [Nat.add_assoc _ 1, Nat.add_comm 1]
      exact stands (offset + 1) branch found

theorem accords_body (split : (graph.block id).instrs = done ++ rest)
    (live : (graph.block id).exits = true → rest ≠ []) :
    graph.Accords code (Located graph code start parts)
      (start number + labels + done.length) id rest := by
  cases rest with
  | nil =>
    rw [List.append_nil] at split
    rw [← split]
    have going := Bool.eq_false_iff.mpr fun exits => live exits rfl
    exact spells.accords_end isPart later going
  | cons instr rest =>
    refine .instr (spells.instr isPart (by simp [split]))
      (spells.branchless isPart instr (by simp [split])) fun continues => ?_
    have further : Located graph code start parts
        (start number + labels + (done ++ [instr]).length) id rest :=
      .body isPart (by simp [split]) (rest_ne_nil split continues)
    simpa [Nat.add_assoc] using further

end Behind

/-- From the labels of a part on the code does what a walk does. Control that falls through comes
to parts with greater numbers, and they are bounded. -/
theorem accords_start {fewer : Nat} (isPart : parts number id labels branches)
    (few : count ≤ number + fewer) {offset : Nat} (within : offset ≤ labels) :
    graph.Accords code (Located graph code start parts) (start number + offset) id
      (graph.block id).instrs := by
  induction fewer generalizing number id labels branches offset with
  | zero => exact absurd (spells.bound isPart) (Nat.not_lt.mpr few)
  | succ fewer ih =>
    induction within using Nat.decreasingInduction with
    | of_succ offset less inner =>
      obtain ⟨label, here⟩ := spells.label isPart less
      exact .label here inner
    | self =>
      exact spells.accords_body isPart (fun next => ih next (by omega) (Nat.zero_le _))
        (List.nil_append _).symm instrs_ne_nil_of_exits

theorem accords (located : Located graph code start parts index id rest) :
    graph.Accords code (Located graph code start parts) index id rest := by
  cases located with
  | start isPart within => exact spells.accords_start isPart (Nat.le_add_left _ _) within
  | body isPart split live =>
    exact spells.accords_body isPart
      (fun next => spells.accords_start next (Nat.le_add_left _ _) (Nat.zero_le _)) split live
  | jump here isJump aims =>
    obtain ⟨_, _, _, _, next, within, isTarget⟩ := aims
    exact .jump here isJump isTarget
      (spells.accords_start next (Nat.le_add_left _ _) within)

end Spells

end Graph

end ContractBackend
