import ContractBackend.Proofs.Graph.Merging

/-!
# Tallied predecessors

A graph passes the check if every block records each of its predecessors as often as an edge
leads from there. Merging keeps these tallies, for every graph that passes the check, and goes on
until no two blocks are left that could be merged.

In a graph as lowering builds it each block has different targets, all of which are there.
The predecessors of its blocks can be recorded exactly, and merging keeps the records exact,
so that the checks of a graph always succeed.
-/

namespace ContractBackend.Graph

variable {graph : Graph} {entry id next : BlockId}

/-- Targets are there, and each predecessor is recorded as often as an edge leads from there. -/
structure Tallied (graph : Graph) (entry : BlockId) : Prop where
  entryInside : entry < graph.size
  targets : ∀ id ∈ graph.reachable entry, graph.checkTargets id = .ok ()
  tally : ∀ id ∈ graph.reachable entry, ∀ source, (graph.block id).incoming.count source =
    if source ∈ graph.reachable entry then (graph.successors source).count id else 0

theorem reachable_nodup (graph : Graph) (entry : BlockId) : (graph.reachable entry).Nodup :=
  Reach.closure_nodup _ _ _

theorem count_predecessors {sources : List BlockId} (nodup : sources.Nodup)
    (target source : BlockId) : (graph.predecessors sources target).count source =
      if source ∈ sources then (graph.successors source).count target else 0 := by
  induction sources with
  | nil => rfl
  | cons head rest ih =>
    have unfolded : graph.predecessors (head :: rest) target =
        ((graph.successors head).filter (· = target)).map (fun _ => head) ++
          graph.predecessors rest target := rfl
    rw [List.nodup_cons] at nodup
    rw [unfolded, List.filter_eq, List.map_replicate, List.count_append, List.count_replicate,
      ih nodup.2]
    by_cases same : source = head
    · subst same
      simp [nodup.1]
    · simp [same, Ne.symm same]

/-- The check of a graph is a check of its tallies. -/
theorem validate_iff_tallied : graph.validate entry = .ok () ↔ graph.Tallied entry := by
  have recorded : ∀ id, graph.checkIncoming (graph.reachable entry) id = .ok () ↔
      ∀ source, (graph.block id).incoming.count source =
        if source ∈ graph.reachable entry then (graph.successors source).count id else 0 := by
    intro id
    simp only [checkIncoming, ← count_predecessors (reachable_nodup graph entry),
      ← List.perm_iff_count, ← List.isPerm_iff]
    split <;> simp_all
  rw [validate_eq_ok]
  constructor
  · rintro ⟨entryInside, targets, incoming⟩
    exact ⟨entryInside, targets, fun id reached => (recorded id).mp (incoming id reached)⟩
  · rintro ⟨entryInside, targets, tally⟩
    exact ⟨entryInside, targets, fun id reached => (recorded id).mpr (tally id reached)⟩

namespace Tallied

variable {other source : BlockId}

variable (tallied : graph.Tallied entry)
include tallied

theorem recorded : graph.Recorded entry :=
  .of_validate (validate_iff_tallied.mpr tallied)

theorem edge_of_mem (reached : other ∈ graph.reachable entry)
    (isRecorded : source ∈ (graph.block other).incoming) : other ∈ graph.successors source := by
  have positive := List.count_pos_iff.mpr isRecorded
  rw [tallied.tally other reached] at positive
  split at positive
  next => exact List.count_pos_iff.mp positive
  next => cases positive

variable (mergeable : graph.Mergeable entry id next)
include mergeable

/-- The block that takes another one over goes on where that one did, and nothing else does
differently. -/
theorem targets_merge :
    ∀ other ∈ (graph.merge id next).reachable entry,
      (graph.merge id next).checkTargets other = .ok () := by
  intro other found
  have recorded := tallied.recorded
  obtain ⟨reached, notNext⟩ := recorded.reachable_merge mergeable other found
  have nextReached := recorded.closed id mergeable.reached next mergeable.edge
  refine checkTargets_eq_ok.mpr ⟨fun going => ?_, fun target edge => ?_⟩
  · by_cases first : other = id
    · subst first
      have inside := recorded.inside other reached
      rw [(block_merge mergeable.apart.symm inside).2]
      exact (checkTargets_eq_ok.mp (tallied.targets next nextReached)).1
        (exits_merge mergeable inside ▸ going)
    · have same : ((graph.merge id next).block other).SameCode (graph.block other) :=
        sameCode_merge first notNext
      rw [same.2]
      exact (checkTargets_eq_ok.mp (tallied.targets other reached)).1 (same.exits ▸ going)
  · rw [merge_size]
    exact recorded.inside target (recorded.edge_of_merge mergeable reached notNext edge).1

/-- The edges of the block taken over count for the one that took it over. -/
theorem tally_merge (reached : other ∈ graph.reachable entry) (notNext : other ≠ next) :
    ((graph.merge id next).block other).incoming.count source =
      if source ∈ (graph.merge id next).reachable entry then
        ((graph.merge id next).successors source).count other
      else 0 := by
  have recorded := tallied.recorded
  have nextReached := recorded.closed id mergeable.reached next mergeable.edge
  have tally := tallied.tally other reached
  have fromFirst : (graph.block other).incoming.count id = 0 := by
    rw [tally, mergeable.successors, List.count_singleton]
    simp [Ne.symm notNext]
  rw [incoming_merge (recorded.inside other reached) notNext (tallied.edge_of_mem reached),
    List.count_eq_countP, List.countP_map]
  by_cases isNext : source = next
  · -- Nothing records the block taken over.
    subst isNext
    rw [if_neg fun found => (recorded.reachable_merge mergeable source found).2 rfl]
    refine List.countP_eq_zero.mpr fun predecessor _ => ?_
    have := mergeable.apart
    grind [redirected]
  · by_cases isFirst : source = id
    · subst isFirst
      rw [if_pos ((recorded.mem_reachable_merge mergeable).mpr ⟨mergeable.reached, isNext⟩),
        successors_merge mergeable (recorded.inside source mergeable.reached)]
      have fromNext := tally next
      rw [if_pos nextReached, List.count_eq_countP] at fromNext
      rw [← fromNext]
      refine List.countP_congr fun predecessor isRecorded => ?_
      have : predecessor ≠ source := fun same =>
        List.count_eq_zero.mp fromFirst (same ▸ isRecorded)
      grind [redirected]
    · have same : (graph.merge id next).successors source = graph.successors source :=
        (sameCode_merge isFirst isNext).successors
      rw [same]
      have before := tally source
      rw [List.count_eq_countP] at before
      have counted : List.countP ((· == source) ∘ redirected next id) (graph.block other).incoming =
          List.countP (· == source) (graph.block other).incoming := by
        refine List.countP_congr fun predecessor _ => ?_
        grind [redirected]
      rw [counted, before]
      simp [recorded.mem_reachable_merge mergeable, isNext]

/-- Merging keeps the tallies. -/
theorem merge : (graph.merge id next).Tallied entry where
  entryInside := by
    rw [merge_size]
    exact tallied.entryInside
  targets := tallied.targets_merge mergeable
  tally other reached source := by
    obtain ⟨reached, notNext⟩ := tallied.recorded.reachable_merge mergeable other reached
    exact tallied.tally_merge mergeable reached notNext

end Tallied

/-- What one merge keeps is kept by merging as often as given. -/
theorem Tallied.mergeWithin_keeps (tallied : graph.Tallied entry) (property : Graph → Prop)
    (kept : ∀ {graph id next}, graph.Recorded entry → graph.Mergeable entry id next →
      property graph → property (graph.merge id next)) (holds : property graph) (count : Nat) :
    (graph.mergeWithin entry count).1.Tallied entry ∧
      property (graph.mergeWithin entry count).1 := by
  induction count generalizing graph with
  | zero => exact ⟨tallied, holds⟩
  | succ count ih =>
    simp only [Graph.mergeWithin]
    split
    next => exact ⟨tallied, holds⟩
    next id next found =>
      have mergeable := Mergeable.of_mergePair? found
      exact ih (tallied.merge mergeable) (kept tallied.recorded mergeable holds)

/-- A graph that passes the check still does when its blocks have been merged. -/
theorem validate_normalize (valid : graph.validate entry = .ok ()) :
    (graph.normalize entry).1.validate entry = .ok () :=
  validate_iff_tallied.mpr ((validate_iff_tallied.mp valid).mergeWithin_keeps (fun _ => True)
    (fun _ _ => id) trivial graph.size).1

/-! ## Nothing is left to merge -/

/-- Each merge takes one block out of reach. -/
theorem Recorded.length_reachable_merge (recorded : graph.Recorded entry)
    (mergeable : graph.Mergeable entry id next) :
    ((graph.merge id next).reachable entry).length + 1 = (graph.reachable entry).length := by
  have nextReached := recorded.closed id mergeable.reached next mergeable.edge
  have nodup := reachable_nodup graph entry
  have same : ((graph.merge id next).reachable entry).Perm ((graph.reachable entry).erase next) := by
    refine (List.perm_ext_iff_of_nodup (reachable_nodup _ _) (nodup.erase next)).mpr fun other => ?_
    rw [recorded.mem_reachable_merge mergeable, nodup.mem_erase_iff, and_comm]
  rw [same.length_eq]
  exact List.length_erase_add_one nextReached

/-- With as many rounds as there are reachable blocks, merging comes to an end. -/
theorem Tallied.mergePair?_mergeWithin (tallied : graph.Tallied entry) {count : Nat}
    (enough : (graph.reachable entry).length ≤ count) :
    (graph.mergeWithin entry count).1.mergePair? entry = none := by
  induction count generalizing graph with
  | zero =>
    have entryReached : entry ∈ graph.reachable entry := mem_reachable_entry
    exact absurd (List.length_pos_of_mem entryReached) (Nat.not_lt.mpr enough)
  | succ count ih =>
    simp only [Graph.mergeWithin]
    split
    next done => exact done
    next id next found =>
      have mergeable := Mergeable.of_mergePair? found
      have fewer := tallied.recorded.length_reachable_merge mergeable
      exact ih (tallied.merge mergeable) (by omega)

theorem length_reachable_le (inside : ∀ id ∈ graph.reachable entry, id < graph.size) :
    (graph.reachable entry).length ≤ graph.size := by
  have within : graph.reachable entry ⊆ List.range graph.size := fun id reached =>
    List.mem_range.mpr (inside id reached)
  simpa using (List.subperm_of_subset (reachable_nodup graph entry) within).length_le

theorem mergePair?_normalize (valid : graph.validate entry = .ok ()) :
    (graph.normalize entry).1.mergePair? entry = none := by
  have tallied := validate_iff_tallied.mp valid
  exact tallied.mergePair?_mergeWithin (length_reachable_le tallied.recorded.inside)

/-- A block that only one edge leads to, from a block with no other edge, would have been
merged. -/
theorem not_only_of_mergePair? (done : graph.mergePair? entry = none)
    (reached : id ∈ graph.reachable entry) (shape : (graph.block id).shape = .simple (some next))
    (going : (graph.block id).exits = false) (apart : next ≠ id) (notEntry : next ≠ entry) :
    (graph.block next).incoming ≠ [id] := by
  intro only
  have none := List.findSome?_eq_none_iff.mp done id reached
  simp [mergeTarget?, shape, going, apart, notEntry, only] at none

/-- Where nothing is left to merge, another block leads to a block that the given one goes on to,
unless it is the entry. -/
theorem Tallied.exists_other_edge (tallied : graph.Tallied entry)
    (done : graph.mergePair? entry = none) (reached : id ∈ graph.reachable entry)
    (shape : (graph.block id).shape = .simple (some next)) (going : (graph.block id).exits = false)
    (apart : next ≠ id) (notEntry : next ≠ entry) :
    ∃ other ∈ graph.reachable entry, other ≠ id ∧ next ∈ graph.successors other := by
  have edge : graph.successors id = [next] := by
    simp [Graph.successors, Block.successors, going, shape, Shape.targets]
  have nextReached := tallied.recorded.closed id reached next (by simp [edge])
  have once : (graph.block next).incoming.count id = 1 := by
    rw [tallied.tally next nextReached, if_pos reached, edge, List.count_singleton_self]
  by_contra alone
  refine not_only_of_mergePair? done reached shape going apart notEntry ?_
  have all : ∀ source ∈ (graph.block next).incoming, source = id := by
    intro source isRecorded
    by_contra different
    have positive := List.count_pos_iff.mpr isRecorded
    rw [tallied.tally next nextReached] at positive
    split at positive
    next sourceReached =>
      exact alone ⟨source, sourceReached, different, List.count_pos_iff.mp positive⟩
    next => cases positive
  have length := List.count_eq_length.mpr fun source isRecorded => (all source isRecorded).symm
  rw [List.eq_replicate_of_mem all, ← length, once]
  rfl

/-! ## Neat graphs -/

variable {property : Instr → Prop}

/-- Targets are there, the two targets of a block differ, and none of them is missing alone. -/
structure Neat (graph : Graph) : Prop where
  bounded : ∀ id, ∀ target ∈ (graph.block id).shape.targets, target < graph.size
  apart : ∀ id, (graph.block id).shape.targets.Nodup
  whole : ∀ id, (graph.block id).shape.isHalf = false

theorem block_of_size_le (beyond : graph.size ≤ id) : graph.block id = {} := by
  rw [Graph.block, Array.getElem?_eq_none beyond]
  rfl

def Every (property : Instr → Prop) (graph : Graph) : Prop :=
  ∀ id, ∀ instr ∈ (graph.block id).instrs, property instr

theorem Neat.nodup (neat : graph.Neat) (id : BlockId) : (graph.successors id).Nodup := by
  rw [Graph.successors, Block.successors]
  split
  next => exact List.nodup_nil
  next => exact neat.apart id

theorem Neat.lt_of_mem (neat : graph.Neat) {target : BlockId} (edge : target ∈ graph.successors id) :
    target < graph.size := by
  rw [Graph.successors, Block.successors] at edge
  split at edge
  next => cases edge
  next => exact neat.bounded id target edge

theorem Neat.inside (neat : graph.Neat) (entryInside : entry < graph.size) :
    ∀ id ∈ graph.reachable entry, id < graph.size := by
  apply Reach.closure_preserves
  · exact fun id _ _ target edge => neat.lt_of_mem edge
  · simpa using entryInside

/-- Graphs with the same shapes are neat together. -/
theorem Neat.congr (neat : graph.Neat) {other : Graph} (size : other.size = graph.size)
    (shape : ∀ id, (other.block id).shape = (graph.block id).shape) : other.Neat where
  bounded id target member := by
    rw [size]
    rw [shape] at member
    exact neat.bounded id target member
  apart id := by
    rw [shape]
    exact neat.apart id
  whole id := by
    rw [shape]
    exact neat.whole id

theorem reachable_congr {other : Graph} (size : other.size = graph.size)
    (successors : ∀ id, other.successors id = graph.successors id) (entry : BlockId) :
    other.reachable entry = graph.reachable entry := by
  rw [reachable, reachable, size, funext successors]

/-! ## Records -/

/-- A neat graph whose blocks record their predecessors. -/
structure Exact (graph : Graph) (entry : BlockId) : Prop where
  neat : graph.Neat
  tallied : graph.Tallied entry

/-- A graph with exact records passes the check. -/
theorem Exact.validate (isExact : graph.Exact entry) : graph.validate entry = .ok () :=
  validate_iff_tallied.mpr isExact.tallied

theorem successors_recordIncoming (graph : Graph) (entry id : BlockId) :
    (graph.recordIncoming entry).successors id = graph.successors id :=
  (sameCode_recordIncoming graph entry id).successors

theorem size_recordIncoming (graph : Graph) (entry : BlockId) :
    (graph.recordIncoming entry).size = graph.size := by
  simp [recordIncoming, size]

theorem incoming_recordIncoming (inside : id < graph.size) :
    ((graph.recordIncoming entry).block id).incoming =
      graph.predecessors (graph.reachable entry) id := by
  have bound : id < graph.blocks.size := inside
  simp [Graph.block, recordIncoming, bound]

theorem exact_recordIncoming (neat : graph.Neat) (entryInside : entry < graph.size) :
    (graph.recordIncoming entry).Exact entry := by
  have size := size_recordIncoming graph entry
  have successors := successors_recordIncoming graph entry
  have reachable := reachable_congr size successors entry
  have neat' : (graph.recordIncoming entry).Neat :=
    neat.congr size fun id => (sameCode_recordIncoming graph entry id).2
  refine ⟨neat', size ▸ entryInside, fun id _ => ?_, fun id reached source => ?_⟩
  · exact checkTargets_eq_ok.mpr ⟨fun _ => neat'.whole id, fun _ => neat'.lt_of_mem⟩
  · rw [reachable] at reached ⊢
    rw [incoming_recordIncoming (neat.inside entryInside id reached),
      count_predecessors (reachable_nodup graph entry), successors]

/-! ## Merging -/

section Merge

variable {other : BlockId}

theorem block_merge_next (apart : next ≠ id) (inside : next < graph.size) :
    ((graph.merge id next).block next).SameCode {} := by
  rw [merge_eq_redirect, block_modify_of_ne _ apart]
  refine (sameCode_redirect _ next).trans ?_
  rw [block_modify_self _ inside]
  exact ⟨rfl, rfl⟩

/-- The block taken over stays behind empty, and its code stands behind that of the other one. -/
theorem Recorded.block_merge_cases (recorded : graph.Recorded entry)
    (mergeable : graph.Mergeable entry id next) (other : BlockId) :
    ((graph.merge id next).block other).SameCode {} ∨
      ((graph.merge id next).block other).SameCode
        { instrs := (graph.block id).instrs ++ (graph.block next).instrs
          shape := (graph.block next).shape } ∨
      ((graph.merge id next).block other).SameCode (graph.block other) := by
  by_cases first : other = id
  · subst first
    exact .inr (.inl (block_merge mergeable.apart.symm (recorded.inside other mergeable.reached)))
  · by_cases second : other = next
    · subst second
      have reached := recorded.closed id mergeable.reached other mergeable.edge
      exact .inl (block_merge_next first (recorded.inside other reached))
    · exact .inr (.inr (sameCode_merge first second))

theorem Recorded.neat_merge (recorded : graph.Recorded entry)
    (mergeable : graph.Mergeable entry id next) (neat : graph.Neat) :
    (graph.merge id next).Neat where
  bounded other target member := by
    rw [merge_size]
    rcases recorded.block_merge_cases mergeable other with same | same | same <;>
      rw [same.2] at member
    · simp [Shape.targets] at member
    · exact neat.bounded next target member
    · exact neat.bounded other target member
  apart other := by
    rcases recorded.block_merge_cases mergeable other with same | same | same <;> rw [same.2]
    · exact List.nodup_nil
    · exact neat.apart next
    · exact neat.apart other
  whole other := by
    rcases recorded.block_merge_cases mergeable other with same | same | same <;> rw [same.2]
    · rfl
    · exact neat.whole next
    · exact neat.whole other

theorem Recorded.every_merge (recorded : graph.Recorded entry)
    (mergeable : graph.Mergeable entry id next) (every : graph.Every property) :
    (graph.merge id next).Every property := by
  intro other instr member
  rcases recorded.block_merge_cases mergeable other with same | same | same <;>
    rw [same.1] at member
  · cases member
  · rcases List.mem_append.mp member with first | second
    · exact every id instr first
    · exact every next instr second
  · exact every other instr member

/-- Merging keeps the records exact. -/
theorem Exact.mergeWithin (isExact : graph.Exact entry) (every : graph.Every property)
    (count : Nat) :
    (graph.mergeWithin entry count).1.Exact entry ∧
      (graph.mergeWithin entry count).1.Every property := by
  obtain ⟨tallied, neat, every⟩ := isExact.tallied.mergeWithin_keeps
    (fun graph => graph.Neat ∧ graph.Every property) (fun recorded mergeable holds =>
      ⟨recorded.neat_merge mergeable holds.1, recorded.every_merge mergeable holds.2⟩)
    ⟨isExact.neat, every⟩ count
  exact ⟨⟨neat, tallied⟩, every⟩

end Merge

/-- A neat graph can be prepared, and its predecessors are recorded exactly then. -/
theorem Neat.prepare {routine : RoutineGraph} (neat : routine.graph.Neat)
    (entryInside : routine.entry < routine.graph.size) (every : routine.graph.Every property) :
    ∃ prepared, routine.prepare = .ok prepared ∧ prepared.graph.Exact prepared.entry ∧
      prepared.graph.Every property := by
  have recorded := exact_recordIncoming neat entryInside
  have kept : (routine.graph.recordIncoming routine.entry).Every property := by
    intro id instr member
    rw [(sameCode_recordIncoming routine.graph routine.entry id).1] at member
    exact every id instr member
  obtain ⟨merged, still⟩ := recorded.mergeWithin kept
    (routine.graph.recordIncoming routine.entry).size
  rw [← normalize] at merged still
  refine ⟨{ routine with
    graph := ((routine.graph.recordIncoming routine.entry).normalize routine.entry).1 }, ?_,
    merged, still⟩
  rw [RoutineGraph.prepare, recorded.validate, Fallible.ok_bind]
  simp only [merged.validate, Fallible.ok_bind]
  rfl

end ContractBackend.Graph
