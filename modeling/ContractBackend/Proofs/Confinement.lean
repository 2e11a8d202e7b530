import ContractBackend.Proofs.Flattening

/-!
# Where control goes in flat code

Every position of the flat code belongs to one block of the graph. A step stays in the
block, or it gets to a successor of the block; blocks without code are passed over, from
successor to successor. No step gets lost.
-/

namespace ContractBackend.Graph

open Machine (Memory)
open Progress (Runs Ends)

/-- The code of the block contains the position. -/
def Owns (graph : Graph) (placed : List Placed) (id : BlockId) (index : Nat) : Prop :=
  ∃ position branches, placed[position]? = some (id, branches) ∧
    graph.startOf placed position ≤ index ∧ index < graph.startOf placed (position + 1)

/-- Control gets from one block to another along an edge, or along several edges if the
blocks between them have no code. -/
inductive Passes (graph : Graph) (placed : List Placed) : BlockId → BlockId → Prop where
  | edge {id target : BlockId} :
      target ∈ graph.successors id → Passes graph placed id target
  | over {id middle target : BlockId} :
      middle ∈ graph.successors id → (∀ index, ¬ graph.Owns placed middle index) →
      Passes graph placed middle target → Passes graph placed id target

/-- Where one step of the run may lead from the code of a block. -/
def Confined (graph : Graph) (placed : List Placed) (id : BlockId) (index : Nat) :
    Progress FlatCode.Point → Prop
  | .moved _ next => ∃ target, graph.Owns placed target next.position ∧
      (target = id ∧ next.position = index + 1 ∨ graph.Passes placed id target)
  | .ended _ ending => ∀ memory, ending ≠ .lost memory

section Confinement

variable {graph : Graph} {entry : BlockId} {order : List BlockId} {placed : List Placed}
  {position index : Nat} {id : BlockId} {branches : List Branch}

theorem successors_of_shape (going : (graph.block id).exits = false) {shape : Shape}
    (hasShape : (graph.block id).shape = shape) : graph.successors id = shape.targets := by
  simp [successors, Block.successors, going, hasShape]

theorem confined_perform {act : Action} {instr : Instr} {memory : Memory}
    (moved : ∀ events after, act.perform instr memory
      (fun memory => (⟨index + 1, memory⟩ : FlatCode.Point)) = .moved events ⟨index + 1, after⟩ →
      graph.Confined placed id index (.moved events ⟨index + 1, after⟩)) :
    graph.Confined placed id index
      (act.perform instr memory fun memory => ⟨index + 1, memory⟩) := by
  cases performed : act.perform instr memory
      fun memory => (⟨index + 1, memory⟩ : FlatCode.Point) with
  | moved events next =>
    obtain ⟨after, _, _, _, rfl⟩ := Action.perform_eq_moved.mp performed
    exact moved events after performed
  | ended events ending =>
    simp only [Action.perform] at performed
    split at performed
    next =>
      cases performed
      exact fun _ => Ending.noConfusion
    next =>
      split at performed
      next => cases performed
      next =>
        cases performed
        exact fun _ => Ending.noConfusion

section Laid

variable (laid : graph.Laid entry order placed)
include laid

/-- From where the code of a block would start, control is in the block, or the block has
no code and control passes over it. -/
theorem owned_from_start {count : Nat} (found : placed[position]? = some (id, branches))
    (few : placed.length ≤ position + count) :
    ∃ target, graph.Owns placed target (graph.startOf placed position) ∧
      (target = id ∨ (∀ index, ¬ graph.Owns placed id index) ∧ graph.Passes placed id target) := by
  induction count generalizing position id branches with
  | zero =>
    have bound := (List.getElem?_eq_some_iff.mp found).1
    omega
  | succ count ih =>
    have behind := startOf_succ graph found
    by_cases coded : graph.startOf placed position < graph.startOf placed (position + 1)
    · exact ⟨id, ⟨position, branches, found, Nat.le_refl _, coded⟩, .inl rfl⟩
    · have bare : ∀ index, ¬ graph.Owns placed id index := by
        rintro index ⟨other, others, otherFound, lower, upper⟩
        cases laid.position_inj found otherFound
        omega
      have emptyBranches : branches = [] := by
        rw [← List.length_eq_zero_iff]
        simp only [bodyOf] at behind
        omega
      have emptyBlock : (graph.block id).instrs = [] := by
        rw [← List.length_eq_zero_iff]
        simp only [bodyOf] at behind
        omega
      have going : (graph.block id).exits = false := by simp [Block.exits, emptyBlock]
      subst emptyBranches
      obtain ⟨next, others, isPlaced, shape, equal⟩ := laid.falls found going
      obtain ⟨target, owns, reaches⟩ := ih isPlaced (by omega)
      have adjacent : next ∈ graph.successors id := by
        simp [successors_of_shape going shape, Shape.targets]
      have same : graph.startOf placed position = graph.startOf placed (position + 1) := by
        have ordered : graph.startOf placed position ≤ graph.startOf placed (position + 1) :=
          startOf_mono (Nat.le_succ _)
        omega
      refine ⟨target, same ▸ owns, .inr ⟨bare, ?_⟩⟩
      rcases reaches with rfl | ⟨nextBare, passes⟩
      · exact .edge adjacent
      · exact .over adjacent nextBare passes

/-- Control that arrives where the code of a successor would start is on its way to it. -/
theorem passes_to_start {next : BlockId} (found : placed[position]? = some (next, branches))
    (adjacent : next ∈ graph.successors id) :
    ∃ target, graph.Owns placed target (graph.startOf placed position) ∧
      graph.Passes placed id target := by
  obtain ⟨target, owns, rfl | ⟨bare, passes⟩⟩ := owned_from_start laid found (Nat.le_add_left ..)
  · exact ⟨target, owns, .edge adjacent⟩
  · exact ⟨target, owns, .over adjacent bare passes⟩

/-- Behind an item of a block there is another one, or the block falls through. -/
theorem confined_next (found : placed[position]? = some (id, branches))
    (lower : graph.startOf placed position ≤ index)
    (upper : index < graph.bodyOf placed position + (graph.block id).instrs.length)
    (more : (graph.block id).exits = true →
      index + 1 < graph.bodyOf placed position + (graph.block id).instrs.length)
    (events : List Event) (memory : Memory) :
    graph.Confined placed id index (.moved events ⟨index + 1, memory⟩) := by
  have behind := startOf_succ graph found
  by_cases inside : index + 1 < graph.startOf placed (position + 1)
  · exact ⟨id, ⟨position, branches, found, Nat.le_succ_of_le lower, inside⟩, .inl ⟨rfl, rfl⟩⟩
  · have going : (graph.block id).exits = false := by
      rw [Bool.eq_false_iff]
      intro exits
      have goesOn := more exits
      omega
    obtain rfl : branches = [] := List.length_eq_zero_iff.mp (by omega)
    obtain ⟨next, others, isPlaced, shape, _⟩ := laid.falls found going
    have adjacent : next ∈ graph.successors id := by
      simp [successors_of_shape going shape, Shape.targets]
    obtain ⟨target, owns, passes⟩ := passes_to_start laid isPlaced adjacent
    have there : index + 1 = graph.startOf placed (position + 1) := by omega
    exact ⟨target, there ▸ owns, .inr passes⟩

/-- One step from an instruction of a block. -/
theorem confined_body (found : placed[position]? = some (id, branches)) {offset : Nat}
    (inside : offset < (graph.block id).instrs.length) (act : Action) (memory : Memory) :
    graph.Confined placed id (graph.bodyOf placed position + offset)
      ((graph.listing placed).step act ⟨graph.bodyOf placed position + offset, memory⟩) := by
  rw [step_body laid found (List.getElem?_eq_getElem inside)]
  apply confined_perform
  intro events after moved
  obtain ⟨_, _, continues, _⟩ := Action.perform_eq_moved.mp moved
  have start : graph.startOf placed position ≤ graph.bodyOf placed position :=
    Nat.le_add_right ..
  refine confined_next laid found (by omega) (by omega) (fun exits => ?_) events after
  have split : (graph.block id).instrs = (graph.block id).instrs.take offset ++
      (graph.block id).instrs[offset] :: (graph.block id).instrs.drop (offset + 1) := by
    rw [← List.drop_eq_getElem_cons inside, List.take_append_drop]
  have more := rest_ne_nil split continues exits
  rw [Ne, List.drop_eq_nil_iff] at more
  omega

/-- One step from a branch that leads to a successor, if what stands behind a conditional
branch is confined as well. -/
theorem confined_branch (found : placed[position]? = some (id, branches)) {branch : Branch}
    (member : branch ∈ branches)
    (here : (graph.listing placed)[index]? = some (.instr branch.instr)) {next : BlockId}
    (atTarget : order[branch.target]? = some next) (adjacent : next ∈ graph.successors id)
    (kind : branch.op = .b ∨ (branch.op = .bnz ∨ branch.op = .bz) ∧
      ∀ memory, graph.Confined placed id index (.moved [] ⟨index + 1, memory⟩))
    (act : Action) (memory : Memory) :
    graph.Confined placed id index ((graph.listing placed).step act ⟨index, memory⟩) := by
  obtain ⟨_, isPlaced, _, atLabel⟩ := branch_target laid found member atTarget
  obtain ⟨target, owns, passes⟩ := passes_to_start laid isPlaced adjacent
  obtain ⟨op, number⟩ := branch
  rcases kind with jumps | ⟨conditional, passed⟩
  · cases jumps
    rw [FlatCode.step_jump act memory here rfl atLabel]
    exact ⟨target, owns, .inr passes⟩
  · rw [FlatCode.step_conditional act memory here conditional atLabel]
    cases condition? memory with
    | none => exact fun _ => Ending.noConfusion
    | some result =>
      simp only
      split
      · exact ⟨target, owns, .inr passes⟩
      · exact passed result.2

/-- One step from the branches behind the instructions of a block. -/
theorem confined_branches (found : placed[position]? = some (id, branches)) {offset : Nat}
    (inside : offset < branches.length)
    (isIndex : graph.bodyOf placed position + (graph.block id).instrs.length + offset = index)
    (act : Action) (memory : Memory) :
    graph.Confined placed id index ((graph.listing placed).step act ⟨index, memory⟩) := by
  have behind := startOf_succ graph found
  have here : ∀ branch, branches[offset]? = some branch →
      (graph.listing placed)[index]? = some (.instr branch.instr) :=
    fun branch atOffset => isIndex ▸ listing_branch found atOffset
  have follows : ∀ {next : BlockId}, order[position + 1]? = some next →
      next ∈ graph.successors id → index + 1 = graph.startOf placed (position + 1) →
      ∀ memory, graph.Confined placed id index (.moved [] ⟨index + 1, memory⟩) := by
    intro next atNext adjacent equal memory
    obtain ⟨_, isPlaced⟩ := laid.placed_of_order atNext
    obtain ⟨target, owns, passes⟩ := passes_to_start laid isPlaced adjacent
    exact ⟨target, equal ▸ owns, .inr passes⟩
  cases laid.leads found with
  | exit => cases inside
  | fall => cases inside
  | jump going shape atTarget =>
    obtain rfl : offset = 0 := Nat.lt_one_iff.mp inside
    apply confined_branch laid found (by simp) (here _ rfl) atTarget _ (.inl rfl)
    simp [successors_of_shape going shape, Shape.targets]
  | ifTrue going shape atTarget atNext | ifFalse going shape atNext atTarget =>
    obtain rfl : offset = 0 := Nat.lt_one_iff.mp inside
    have edges : graph.successors id = [_, _] := successors_of_shape going shape
    apply confined_branch laid found (by simp) (here _ rfl) atTarget (by simp [edges])
    exact .inr ⟨by simp, follows atNext (by simp [edges]) (by simp_all)⟩
  | both going shape atTrue atFalse =>
    have edges : graph.successors id = [_, _] := successors_of_shape going shape
    simp only [List.length_cons, List.length_nil] at inside behind
    obtain rfl | rfl : offset = 0 ∨ offset = 1 := by omega
    · apply confined_branch laid found (by simp) (here _ rfl) atTrue (by simp [edges])
      refine .inr ⟨.inl rfl, fun after => ⟨id, ⟨position, _, found, ?_, ?_⟩, .inl ⟨rfl, rfl⟩⟩⟩
      · rw [← isIndex, bodyOf]
        simp only
        omega
      · simp only
        omega
    · exact confined_branch laid found (by simp) (here _ rfl) atFalse
        (by simp [edges]) (.inl rfl) act memory

/-- Confinement: a step from the code of a block stays in it or passes on to a
successor. -/
theorem confined (owns : graph.Owns placed id index) (act : Action) (memory : Memory) :
    graph.Confined placed id index ((graph.listing placed).step act ⟨index, memory⟩) := by
  obtain ⟨position, branches, found, lower, upper⟩ := owns
  have behind := startOf_succ graph found
  by_cases early : index < graph.bodyOf placed position
  · have referenced : position ∈ targets placed := by
      by_contra absent
      simp only [bodyOf, absent, if_false] at early
      omega
    have equal : graph.bodyOf placed position = graph.startOf placed position + 1 := by
      simp [bodyOf, referenced]
    obtain rfl : index = graph.startOf placed position := by omega
    rw [FlatCode.step_label act memory (listing_label found referenced)]
    refine confined_next laid found lower (by omega) (fun exits => ?_) [] memory
    have some' := List.length_pos_iff.mpr (instrs_ne_nil_of_exits exits)
    omega
  · obtain ⟨offset, rfl⟩ := Nat.exists_eq_add_of_le (Nat.le_of_not_lt early)
    by_cases inBody : offset < (graph.block id).instrs.length
    · exact confined_body laid found inBody act memory
    · obtain ⟨more, rfl⟩ := Nat.exists_eq_add_of_le (Nat.le_of_not_lt inBody)
      exact confined_branches laid found (by omega) (Nat.add_assoc ..) act memory

end Laid

/-- Every position of the flat code belongs to exactly one block. -/
theorem existsUnique_owns (inside : index < (graph.listing placed).length) :
    ∃! id, graph.Owns placed id index := by
  obtain ⟨position, id, branches, found, place⟩ := listing_cases inside
  have behind := startOf_succ graph found
  have start : graph.startOf placed position ≤ graph.bodyOf placed position :=
    Nat.le_add_right ..
  have lower : graph.startOf placed position ≤ index := by
    rcases place with ⟨_, rfl⟩ | ⟨offset, _, rfl⟩ <;> omega
  have upper : index < graph.startOf placed (position + 1) := by
    rcases place with ⟨referenced, rfl⟩ | ⟨offset, _, rfl⟩
    · simp only [bodyOf, referenced, if_true] at behind
      omega
    · omega
  refine ⟨id, ⟨position, branches, found, lower, upper⟩, ?_⟩
  rintro other ⟨otherPosition, others, otherFound, otherLower, otherUpper⟩
  rcases Nat.lt_trichotomy position otherPosition with less | rfl | greater
  · have ordered : graph.startOf placed (position + 1) ≤ graph.startOf placed otherPosition :=
      startOf_mono less
    omega
  · rw [found] at otherFound
    cases otherFound
    rfl
  · have ordered : graph.startOf placed (otherPosition + 1) ≤ graph.startOf placed position :=
      startOf_mono greater
    omega

end Confinement

/-! ## The flat code of a graph -/

/-- What makes flat code a faithful listing of the placed blocks of a graph. -/
structure Faithful (graph : Graph) (entry : BlockId) (placed : List Placed)
    (code : FlatCode) : Prop where
  /-- A walk from the entry and a run from the first item execute the same instructions, in
  the same order and on the same memories. -/
  runs : ∀ (act : Action) (memory : Memory) (events : List Event),
    (∃ place, Runs (graph.walk act) (graph.enter entry memory) events place) ↔
      ∃ point, Runs (code.step act) ⟨0, memory⟩ events point
  /-- They end in the same way. -/
  ends : ∀ (act : Action) (memory : Memory) (events : List Event) (ending : Ending),
    Ends (graph.walk act) (graph.enter entry memory) events ending ↔
      Ends (code.step act) ⟨0, memory⟩ events ending
  /-- The code is divided up among the blocks. -/
  owned : ∀ index < code.length, ∃! id, graph.Owns placed id index
  /-- The run starts in the entry, or in what follows an entry without code. -/
  first : ∃ id, graph.Owns placed id 0 ∧
    (id = entry ∨ (∀ index, ¬ graph.Owns placed entry index) ∧ graph.Passes placed entry id)
  /-- No step leads from a block to one that does not follow it in the graph. -/
  confined : ∀ (act : Action) (id : BlockId) (index : Nat) (memory : Memory),
    graph.Owns placed id index →
      graph.Confined placed id index (code.step act ⟨index, memory⟩)

theorem Laid.faithful {graph : Graph} {entry : BlockId} {order : List BlockId}
    {placed : List Placed} (laid : graph.Laid entry order placed) :
    graph.Faithful entry placed (graph.listing placed) := by
  obtain ⟨branches, isPlaced⟩ := laid.entry_placed
  have start := laid.spells.accords (.start ⟨branches, isPlaced, rfl, rfl⟩ (Nat.zero_le _))
  have agree := Accords.agree laid.spells.accords start
  exact {
    runs := fun act memory events => (agree act memory events).1
    ends := fun act memory events => (agree act memory events).2
    owned := fun index inside => existsUnique_owns inside
    first := owned_from_start laid isPlaced (Nat.le_add_left ..)
    confined := fun act id index memory owns => confined laid owns act memory }

/-- Flattening preserves execution: every valid graph whose blocks leave the routine
wherever they do not go on can be listed in every order of its reachable blocks that starts
with the entry, and the flat code is faithful to the graph. -/
theorem flatten_faithful {graph : Graph} {entry : BlockId} {order : List BlockId}
    (valid : graph.validate entry = .ok ())
    (ending : ∀ id ∈ graph.reachable entry, graph.successors id = [] →
      (graph.block id).exits = true)
    (branchless : ∀ id ∈ graph.reachable entry, ∀ instr ∈ (graph.block id).instrs,
      instr.op.isBranch = false)
    (nodup : order.Nodup) (complete : ∀ id, id ∈ order ↔ id ∈ graph.reachable entry)
    (first : order.head? = some entry) :
    ∃ placed code, graph.place order = .ok placed ∧ graph.flatten order = .ok code ∧
      graph.Faithful entry placed code := by
  have flowing : graph.Flowing entry := ⟨.of_validate valid, ending, branchless⟩
  have lists : graph.Lists entry order := ⟨nodup, complete, first⟩
  obtain ⟨placed, isPlaced⟩ := exists_place flowing lists
  have laid : graph.Laid entry order placed := ⟨flowing, lists, isPlaced⟩
  exact ⟨placed, graph.listing placed, isPlaced, flatten_eq_ok.mpr ⟨placed, isPlaced, rfl⟩,
    laid.faithful⟩

/-- A loop, with a block without code behind it. -/
def countdown : Graph where
  blocks := #[
    { instrs := [.int 3], shape := .simple (some 1) },
    { instrs := [⟨.dup, []⟩], shape := .conditional (some 2) (some 3), incoming := [0, 2] },
    { instrs := [.int 1, ⟨.sub, []⟩], shape := .simple (some 1), incoming := [1] },
    { shape := .simple (some 4), incoming := [1] },
    { instrs := [⟨.ret, []⟩], incoming := [3] }]

theorem flatten_faithful_countdown :
    ∃ placed code, countdown.place [0, 2, 1, 3, 4] = .ok placed ∧
      countdown.flatten [0, 2, 1, 3, 4] = .ok code ∧ countdown.Faithful 0 placed code := by
  have listed : List.Perm [0, 2, 1, 3, 4] (countdown.reachable 0) := by decide
  apply flatten_faithful
  · decide
  · decide
  · decide
  · decide
  · exact fun id => listed.mem_iff
  · decide

end ContractBackend.Graph
