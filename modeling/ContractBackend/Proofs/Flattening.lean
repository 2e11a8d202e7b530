import ContractBackend.Proofs.Accord
import ContractBackend.Proofs.Layout

/-!
# Flat code does what its graph does

Running the flat code of a graph executes the same instructions on the same memory
as walking through the graph, for every valid graph and every order that lists its
blocks once: the code is made of the blocks, and the branches behind a block lead to its
targets.
-/

namespace ContractBackend.Graph

open Machine (Memory)

variable {graph : Graph} {entry : BlockId} {order : List BlockId} {placed : List Placed}
  {act : Action} {position : Nat} {id : BlockId} {branches : List Branch} {memory : Memory}

/-- An instruction of a listed block is executed alike by a walk and by a run. -/
theorem step_body (laid : graph.Laid entry order placed)
    (found : placed[position]? = some (id, branches)) {offset : Nat} {instr : Instr}
    (atOffset : (graph.block id).instrs[offset]? = some instr) :
    (graph.listing placed).step act ⟨graph.bodyOf placed position + offset, memory⟩ =
      act.perform instr memory
        fun memory => ⟨graph.bodyOf placed position + offset + 1, memory⟩ := by
  have inside := (List.getElem?_eq_some_iff.mp atOffset).1
  have here := listing_instr found ((List.getElem?_append_left inside).trans atOffset)
  have plain : instr.op.isBranch = false :=
    laid.branchless id (laid.reached found) instr (List.mem_of_getElem? atOffset)
  simp only [FlatCode.step, here, plain, Bool.false_eq_true, if_false]

/-- The code of the branches stands behind the instructions of the block. -/
theorem listing_branch (found : placed[position]? = some (id, branches)) {offset : Nat}
    {branch : Branch} (atOffset : branches[offset]? = some branch) :
    (graph.listing placed)[graph.bodyOf placed position + (graph.block id).instrs.length +
      offset]? = some (.instr branch.instr) := by
  rw [Nat.add_assoc]
  apply listing_instr found
  rw [List.getElem?_append_right (by omega), Nat.add_sub_cancel_left, List.getElem?_map, atOffset]
  rfl

/-- The label that a branch of a placed block aims at stands in front of its target. -/
theorem branch_target (laid : graph.Laid entry order placed)
    (found : placed[position]? = some (id, branches)) {branch : Branch}
    (member : branch ∈ branches) {target : BlockId}
    (atTarget : order[branch.target]? = some target) :
    ∃ others, placed[branch.target]? = some (target, others) ∧
      branch.target ∈ targets placed ∧
      (graph.listing placed).labelPosition? ⟨branch.target, ""⟩ =
        some (graph.startOf placed branch.target) := by
  obtain ⟨others, isPlaced⟩ := laid.placed_of_order atTarget
  have referenced := Laid.mem_targets found member
  exact ⟨others, isPlaced, referenced, labelPosition?_listing isPlaced referenced⟩

/-- A block that goes on without a branch falls through to the block that follows. -/
theorem Laid.falls (laid : graph.Laid entry order placed)
    (found : placed[position]? = some (id, [])) (going : (graph.block id).exits = false) :
    ∃ next others, placed[position + 1]? = some (next, others) ∧
      (graph.block id).shape = .simple (some next) ∧
      graph.bodyOf placed position + (graph.block id).instrs.length =
        graph.startOf placed (position + 1) := by
  have behind := startOf_succ graph found
  cases laid.leads found with
  | exit exits => simp [exits] at going
  | fall _ shape follows =>
    obtain ⟨others, isPlaced⟩ := laid.placed_of_order follows
    exact ⟨_, others, isPlaced, shape, behind.symm⟩

/-- The parts that a listing is made of. -/
def placedParts (placed : List Placed) : Parts := fun position id labels branches =>
  ∃ others, placed[position]? = some (id, others) ∧
    labels = (if position ∈ targets placed then 1 else 0) ∧ branches = others.map Branch.instr

/-- A listing is made of the placed blocks, and their branches lead to the targets. -/
theorem Laid.spells (laid : graph.Laid entry order placed) :
    graph.Spells (graph.listing placed) (graph.startOf placed) (placedParts placed)
      placed.length where
  bound := by
    rintro position id labels branches ⟨others, found, _⟩
    exact (List.getElem?_eq_some_iff.mp found).1
  label := by
    rintro position id labels branches offset ⟨others, found, rfl, _⟩ within
    split at within
    next referenced =>
      cases Nat.lt_one_iff.mp within
      exact ⟨_, listing_label found referenced⟩
    next => cases within
  instr := by
    rintro position id labels branches offset instr ⟨others, found, rfl, rfl⟩ atOffset
    exact listing_instr found atOffset
  next := by
    rintro position id labels branches ⟨others, found, rfl, rfl⟩
    rw [List.length_map]
    exact startOf_succ graph found
  branchless := by
    rintro position id labels branches ⟨others, found, _⟩
    exact laid.branchless id (laid.reached found)
  continues := by
    rintro position id labels branches ⟨others, found, rfl, rfl⟩
    have part : ∀ {position id}, order[position]? = some id →
        ∃ labels branches, placedParts placed position id labels branches := by
      intro position id atPosition
      obtain ⟨others, isPlaced⟩ := laid.placed_of_order atPosition
      exact ⟨_, _, others, isPlaced, rfl, rfl⟩
    have falls : ∀ {next}, order[position + 1]? = some next →
        Onward (graph.listing placed) (graph.startOf placed) (placedParts placed) position [] next := by
      intro next atNext
      obtain ⟨_, _, isPart⟩ := part atNext
      exact .falls isPart
    have aims : ∀ {branch : Branch} {target}, branch ∈ others →
        order[branch.target]? = some target →
        Aims (graph.listing placed) (graph.startOf placed) (placedParts placed) branch.instr
          target := by
      intro branch target member atTarget
      obtain ⟨_, _, _, atLabel⟩ := branch_target laid found member atTarget
      obtain ⟨_, _, isPart⟩ := part atTarget
      exact ⟨_, _, _, 0, isPart, Nat.zero_le _, atLabel⟩
    cases laid.leads found with
    | exit exits => exact .exit exits
    | fall _ shape follows => exact .simple shape (falls follows)
    | jump _ shape atTarget =>
      exact .simple shape (.jumps rfl (aims (List.mem_singleton_self _) atTarget))
    | ifTrue _ shape atTarget follows =>
      exact .conditional shape (.inl ⟨rfl, rfl, rfl⟩) (aims (List.mem_singleton_self _) atTarget)
        (falls follows)
    | ifFalse _ shape follows atTarget =>
      exact .conditional shape (.inr ⟨rfl, rfl, rfl⟩) (aims (List.mem_singleton_self _) atTarget)
        (falls follows)
    | both _ shape atTrue atFalse =>
      exact .conditional shape (.inl ⟨rfl, rfl, rfl⟩) (aims (List.mem_cons_self ..) atTrue)
        (.jumps rfl (aims (List.mem_cons_of_mem _ (List.mem_singleton_self _)) atFalse))

end ContractBackend.Graph
