import ContractBackend.Compile
import ContractBackend.Proofs.Lowering.Steps

/-!
# Merging two blocks

A block that takes over its only successor has the code of the two, one behind the other. No
other block refers to the one taken over, because every edge between reachable blocks is
recorded at its target.
-/

namespace ContractBackend

/-- A change that leaves the instructions and targets of a block as they are. -/
def Block.SameCode (left right : Block) : Prop :=
  left.instrs = right.instrs ∧ left.shape = right.shape

namespace Block.SameCode

variable {left middle right : Block}

theorem trans (first : left.SameCode middle) (second : middle.SameCode right) :
    left.SameCode right :=
  ⟨first.1.trans second.1, first.2.trans second.2⟩

theorem exits (same : left.SameCode right) : left.exits = right.exits := by
  rw [Block.exits, Block.exits, same.1]

end Block.SameCode

theorem Block.successors_congr {left right : Block} (exits : left.exits = right.exits)
    (shape : left.shape = right.shape) : left.successors = right.successors := by
  rw [Block.successors, Block.successors, exits, shape]

theorem Block.SameCode.successors {left right : Block} (same : left.SameCode right) :
    left.successors = right.successors :=
  Block.successors_congr same.exits same.2

namespace Graph

variable {graph : Graph} {entry id next : BlockId}

/-- Targets of a block that goes on are its successors. -/
theorem mem_successors_of_goes {block : Block} (going : block.exits = false) {target : BlockId}
    (isTarget : target ∈ block.shape.targets) : target ∈ block.successors := by
  simpa [Block.successors, going] using isTarget

/-- Every edge out of a reachable block is recorded at its target. -/
structure Recorded (graph : Graph) (entry : BlockId) : Prop where
  inside : ∀ id ∈ graph.reachable entry, id < graph.size
  edges : ∀ id ∈ graph.reachable entry, ∀ target ∈ graph.successors id,
    id ∈ (graph.block target).incoming

theorem Recorded.closed (recorded : graph.Recorded entry) :
    ∀ id ∈ graph.reachable entry,
      ∀ target ∈ graph.successors id, target ∈ graph.reachable entry :=
  reachable_closed recorded.inside

/-- What a checked graph records. -/
theorem Recorded.of_validate (valid : graph.validate entry = .ok ()) : graph.Recorded entry where
  inside := (Valid.of_validate valid).inside
  edges := by
    intro id reached target edge
    have closed := (Valid.of_validate valid).closed id reached target edge
    have checked := (validate_eq_ok.mp valid).2.2 target closed
    simp only [checkIncoming] at checked
    split at checked
    next same =>
      rw [(List.isPerm_iff.mp same).mem_iff]
      exact List.mem_flatMap.mpr ⟨id, reached, by simpa using edge⟩
    next => cases checked

/-! ## One merge -/

/-- A pair of blocks that can be merged. -/
structure Mergeable (graph : Graph) (entry id next : BlockId) : Prop where
  reached : id ∈ graph.reachable entry
  shape : (graph.block id).shape = .simple (some next)
  going : (graph.block id).exits = false
  apart : next ≠ id
  notEntry : next ≠ entry
  only : (graph.block next).incoming = [id]

theorem Mergeable.of_mergePair? (found : graph.mergePair? entry = some (id, next)) :
    graph.Mergeable entry id next := by
  simp only [mergePair?, List.findSome?_eq_some_iff, Option.map_eq_some_iff, Prod.mk.injEq] at found
  obtain ⟨before, first, after, isReachable, ⟨target, isTarget, rfl, rfl⟩, _⟩ := found
  simp only [mergeTarget?] at isTarget
  split at isTarget
  next next shape =>
    split at isTarget
    next fits =>
      cases isTarget
      simp only [Bool.and_eq_true, Bool.not_eq_true', decide_eq_true_eq] at fits
      obtain ⟨⟨⟨going, apart⟩, notEntry⟩, only⟩ := fits
      exact ⟨by simp [isReachable], shape, going, apart, notEntry, only⟩
    next => cases isTarget
  next => cases isTarget

/-- Let a block record another predecessor in place of a given one. -/
def rerecord (next id : BlockId) (block : Block) : Block :=
  { block with incoming := block.incoming.map fun source => if source = next then id else source }

/-- Let some blocks record another predecessor in place of a given one. -/
def redirect (graph : Graph) (next id : BlockId) (targets : List BlockId) : Graph :=
  targets.foldl (fun graph target => graph.modify target (rerecord next id)) graph

theorem merge_eq_redirect (graph : Graph) (id next : BlockId) :
    graph.merge id next =
      ((graph.modify next fun _ => {}).redirect next id (graph.block next).successors).modify id
        fun block =>
          { block with
            instrs := block.instrs ++ (graph.block next).instrs
            shape := (graph.block next).shape } :=
  rfl

theorem redirect_cons (target : BlockId) (rest : List BlockId) :
    graph.redirect next id (target :: rest) =
      (graph.modify target (rerecord next id)).redirect next id rest :=
  rfl

theorem redirect_size (targets : List BlockId) :
    (graph.redirect next id targets).size = graph.size := by
  induction targets generalizing graph with
  | nil => rfl
  | cons target rest ih => rw [redirect_cons, ih, size_modify]

theorem sameCode_redirect (targets : List BlockId) (other : BlockId) :
    ((graph.redirect next id targets).block other).SameCode (graph.block other) := by
  induction targets generalizing graph with
  | nil => exact ⟨rfl, rfl⟩
  | cons target rest ih =>
    refine ih.trans ?_
    by_cases inside : target < graph.size
    · by_cases here : other = target
      · rw [here, block_modify_self _ inside]
        exact ⟨rfl, rfl⟩
      · rw [block_modify_of_ne _ here]
        exact ⟨rfl, rfl⟩
    · rw [block_modify_of_le _ inside]
      exact ⟨rfl, rfl⟩

section Merge

variable {other : BlockId}

theorem merge_size : (graph.merge id next).size = graph.size := by
  rw [merge_eq_redirect, size_modify, redirect_size, size_modify]

theorem block_emptied (notNext : other ≠ next) :
    (graph.modify next fun _ => {}).block other = graph.block other :=
  block_modify_of_ne _ notNext

/-- Taking code over changes no recorded predecessor. -/
theorem incoming_takeOver (instrs : List Instr) (shape : Shape) :
    ((graph.modify id fun block => { block with instrs := block.instrs ++ instrs, shape }).block
      other).incoming = (graph.block other).incoming := by
  by_cases inside : id < graph.size
  · by_cases here : other = id
    · rw [here, block_modify_self _ inside]
    · rw [block_modify_of_ne _ here]
  · rw [block_modify_of_le _ inside]

/-- A block that is neither of the two keeps its code. -/
theorem sameCode_merge (notFirst : other ≠ id) (notNext : other ≠ next) :
    ((graph.merge id next).block other).SameCode (graph.block other) := by
  rw [merge_eq_redirect, block_modify_of_ne _ notFirst]
  refine (sameCode_redirect _ other).trans ?_
  rw [block_emptied notNext]
  exact ⟨rfl, rfl⟩

/-- The code of the block that takes the other one over. -/
theorem block_merge (apart : id ≠ next) (inside : id < graph.size) :
    ((graph.merge id next).block id).instrs =
        (graph.block id).instrs ++ (graph.block next).instrs ∧
      ((graph.merge id next).block id).shape = (graph.block next).shape := by
  rw [merge_eq_redirect, block_modify_self _ (by rwa [redirect_size, size_modify])]
  refine ⟨?_, rfl⟩
  simp only [(sameCode_redirect _ id).1, block_emptied apart]

theorem exits_merge (mergeable : graph.Mergeable entry id next) (inside : id < graph.size) :
    ((graph.merge id next).block id).exits = (graph.block next).exits := by
  have going := mergeable.going
  rw [Block.exits] at going
  rw [Block.exits, Block.exits, (block_merge mergeable.apart.symm inside).1, List.getLast?_append]
  cases (graph.block next).instrs.getLast? with
  | none => simpa using going
  | some last => simp

theorem successors_merge (mergeable : graph.Mergeable entry id next) (inside : id < graph.size) :
    (graph.merge id next).successors id = graph.successors next :=
  Block.successors_congr (exits_merge mergeable inside)
    (block_merge mergeable.apart.symm inside).2

/-- What becomes of a recorded predecessor. -/
def redirected (next id source : BlockId) : BlockId := if source = next then id else source

theorem redirected_redirected (source : BlockId) :
    redirected next id (redirected next id source) = redirected next id source := by
  grind [redirected]

/-- A target records the new predecessor however often it is a target. -/
theorem incoming_redirect {targets : List BlockId} (inside : other < graph.size) :
    ((graph.redirect next id targets).block other).incoming =
      if other ∈ targets then (graph.block other).incoming.map (redirected next id)
      else (graph.block other).incoming := by
  induction targets generalizing graph with
  | nil => rfl
  | cons target rest ih =>
    rw [redirect_cons, ih (by rwa [size_modify])]
    by_cases here : other = target
    · subst here
      have once : ((graph.modify other (rerecord next id)).block other).incoming =
          (graph.block other).incoming.map (redirected next id) := by
        rw [block_modify_self _ inside]
        rfl
      rw [once, if_pos (List.mem_cons_self ..)]
      split
      next => simp [redirected_redirected]
      next => rfl
    · simp [here, block_modify_of_ne]

/-- Wherever the block taken over is recorded, the one that took it over is recorded then. -/
theorem incoming_merge (inside : other < graph.size) (notNext : other ≠ next)
    (edge : next ∈ (graph.block other).incoming → other ∈ graph.successors next) :
    ((graph.merge id next).block other).incoming =
      (graph.block other).incoming.map (redirected next id) := by
  have inside' : other < (graph.modify next fun _ => {}).size := by rwa [size_modify]
  rw [merge_eq_redirect, incoming_takeOver, incoming_redirect inside', block_emptied notNext]
  split
  next => rfl
  next noEdge =>
    have absent : next ∉ (graph.block other).incoming := fun recorded => noEdge (edge recorded)
    refine (List.map_id _).symm.trans (List.map_congr_left fun source recorded => ?_)
    rw [redirected, if_neg]
    · rfl
    · rintro rfl
      exact absent recorded

end Merge

section Reachable

variable {other : BlockId} (recorded : graph.Recorded entry)
  (mergeable : graph.Mergeable entry id next)
include mergeable

theorem Mergeable.successors : graph.successors id = [next] := by
  simp [Graph.successors, Block.successors, mergeable.going, mergeable.shape, Shape.targets]

theorem Mergeable.edge : next ∈ graph.successors id := by
  simp [mergeable.successors]

include recorded

/-- Nothing but the first block refers to the block taken over. -/
theorem Recorded.eq_of_edge (reached : other ∈ graph.reachable entry)
    (edge : next ∈ graph.successors other) : other = id := by
  simpa [mergeable.only] using recorded.edges other reached next edge

/-- An edge of the merged graph is one of the graph, or one of the block taken over. -/
theorem Recorded.edge_of_merge (reached : other ∈ graph.reachable entry)
    (notNext : other ≠ next) {target : BlockId}
    (edge : target ∈ (graph.merge id next).successors other) :
    target ∈ graph.reachable entry ∧ target ≠ next ∧
      if other = id then target ∈ graph.successors next else target ∈ graph.successors other := by
  have nextReached := recorded.closed id mergeable.reached next mergeable.edge
  by_cases first : other = id
  · subst first
    rw [successors_merge mergeable (recorded.inside other reached)] at edge
    refine ⟨recorded.closed next nextReached target edge, ?_, by rwa [if_pos rfl]⟩
    rintro rfl
    exact mergeable.apart (recorded.eq_of_edge mergeable nextReached edge)
  · have same : (graph.merge id next).successors other = graph.successors other :=
      (sameCode_merge first notNext).successors
    rw [same] at edge
    refine ⟨recorded.closed other reached target edge, ?_, by rwa [if_neg first]⟩
    rintro rfl
    exact first (recorded.eq_of_edge mergeable reached edge)

theorem Recorded.reachable_merge :
    ∀ other ∈ (graph.merge id next).reachable entry,
      other ∈ graph.reachable entry ∧ other ≠ next := by
  apply Reach.closure_preserves
  · rintro other - ⟨reached, notNext⟩ target edge
    obtain ⟨targetReached, targetNotNext, _⟩ :=
      recorded.edge_of_merge mergeable reached notNext edge
    exact ⟨targetReached, targetNotNext⟩
  · simpa using ⟨mem_reachable_entry, mergeable.notEntry.symm⟩

/-- Merging makes nothing but the block taken over unreachable. -/
theorem Recorded.mem_reachable_merge :
    other ∈ (graph.merge id next).reachable entry ↔ other ∈ graph.reachable entry ∧ other ≠ next := by
  refine ⟨recorded.reachable_merge mergeable other, fun ⟨reached, notNext⟩ => ?_⟩
  have inside : ∀ other ∈ (graph.merge id next).reachable entry,
      other < (graph.merge id next).size := by
    intro other found
    rw [merge_size]
    exact recorded.inside other (recorded.reachable_merge mergeable other found).1
  have closed := reachable_closed inside
  -- The block taken over counts as reached where the one that took it over is.
  suffices either : ∀ other ∈ graph.reachable entry,
      other ∈ (graph.merge id next).reachable entry ∨
        other = next ∧ id ∈ (graph.merge id next).reachable entry by
    rcases either other reached with found | ⟨same, _⟩
    · exact found
    · exact absurd same notNext
  apply Reach.closure_preserves
  · rintro source sourceReached (found | ⟨rfl, found⟩) target edge
    · obtain ⟨_, sourceNotNext⟩ := recorded.reachable_merge mergeable source found
      by_cases first : source = id
      · subst first
        rw [mergeable.successors, List.mem_singleton] at edge
        exact .inr ⟨edge, found⟩
      · have same : (graph.merge id next).successors source = graph.successors source :=
          (sameCode_merge first sourceNotNext).successors
        exact .inl (closed source found target (by rwa [same]))
    · have same := successors_merge mergeable (recorded.inside id mergeable.reached)
      exact .inl (closed id found target (by rwa [same]))
  · simpa using Or.inl mem_reachable_entry

end Reachable

theorem sameCode_recordIncoming (graph : Graph) (entry other : BlockId) :
    ((graph.recordIncoming entry).block other).SameCode (graph.block other) := by
  simp only [Graph.block, recordIncoming, Array.getElem?_mapIdx]
  cases graph.blocks[other]? <;> exact ⟨rfl, rfl⟩

end Graph

end ContractBackend
