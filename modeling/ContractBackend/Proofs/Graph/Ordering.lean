import ContractBackend.Proofs.Graph.BackEdges
import ContractBackend.Proofs.Layout

/-!
# When an order is found, and what it looks like

Without the edges that close a loop, each block is counted off by its predecessors, edge by edge,
and joins the queue with the last of them. An edge that closes a loop is left out once, however
often it is recorded. So an order is found for a graph that passes the check unless both
edges of a conditional block close the same loop.
-/

namespace ContractBackend.Graph

variable {graph : Graph} {entry id : BlockId} {back : List Edge} {ready placed : List BlockId}
  {waiting : Waiting} {listed : List BlockId} {first : BlockId}

namespace Waiting

theorem count_modify (waiting : Waiting) (id other : BlockId) :
    Waiting.count (waiting.modify id (· - 1)) other =
      if other = id then waiting.count other - 1 else waiting.count other := by
  simp only [Waiting.count, Array.getElem?_modify]
  by_cases same : id = other
  · subst same
    cases waiting[id]? <;> simp
  · simp [same, Ne.symm same]

theorem release?_of_count_ne (waits : waiting.count id ≠ 0) :
    waiting.release? id = some (waiting.modify id (· - 1)) :=
  if_neg waits

end Waiting

/-- Counting the edges that close a loop off. -/
theorem exists_initialWaiting {reachable : List BlockId} {recorded : Waiting}
    (isRecorded : recorded = graph.blocks.mapIdx fun id block =>
      if id ∈ reachable then block.incoming.length else 0)
    (enough : ∀ id, back.countP (·.target = id) ≤ recorded.count id) :
    ∃ waiting, graph.initialWaiting reachable back = .ok waiting ∧
      ∀ id, waiting.count id = recorded.count id - back.countP (·.target = id) := by
  rw [initialWaiting, ← isRecorded]
  clear isRecorded
  induction back generalizing recorded with
  | nil => exact ⟨recorded, rfl, fun _ => rfl⟩
  | cons edge rest ih =>
    have waits : recorded.count edge.target ≠ 0 := by
      have some := enough edge.target
      rw [List.countP_cons_of_pos (by simp)] at some
      omega
    have fewer : ∀ id, Waiting.count (recorded.modify edge.target (· - 1)) id =
        recorded.count id - if edge.target = id then 1 else 0 := by
      intro id
      rw [Waiting.count_modify]
      by_cases same : id = edge.target
      · simp [same]
      · simp [same, Ne.symm same]
    have still : ∀ id, rest.countP (·.target = id) ≤
        Waiting.count (recorded.modify edge.target (· - 1)) id := by
      intro id
      have some := enough id
      rw [List.countP_cons] at some
      rw [fewer]
      by_cases same : edge.target = id <;> simp only [same, decide_true, decide_false,
        Bool.false_eq_true, if_true, if_false] at some ⊢ <;> omega
    obtain ⟨waiting, isOk, counts⟩ := ih still
    refine ⟨waiting, ?_, fun id => ?_⟩
    · rw [List.foldlM_cons, Waiting.release?_of_count_ne waits]
      exact isOk
    · rw [counts, fewer, List.countP_cons]
      by_cases same : edge.target = id <;> simp only [same, decide_true, decide_false,
        Bool.false_eq_true, if_true, if_false] <;> omega

/-! ## Counting a block off at its targets -/

/-- A target joins the queue, at either end, if nothing is left to come for it. -/
theorem count_queue (left position : Nat) (target other : BlockId) :
    (if left ≠ 0 then ready else if position = 0 then target :: ready
      else ready ++ [target]).count other =
      ready.count other + if target = other ∧ left = 0 then 1 else 0 := by
  by_cases last : left = 0
  · simp only [last, ne_eq, not_true_eq_false, if_false, and_true]
    split <;> simp [List.count_cons, List.count_append]
  · simp [last]

/-- A target is counted off once for each edge, and joins the queue when nothing is left to
come. -/
theorem exists_releaseTargets {targets : List (BlockId × Nat)}
    (enough : ∀ target, ⟨id, target⟩ ∉ back →
      (targets.map Prod.fst).count target ≤ waiting.count target) :
    ∃ ready' waiting', releaseTargets back id targets (ready, waiting) = .ok (ready', waiting') ∧
      (∀ target, Waiting.count waiting' target = waiting.count target -
        if ⟨id, target⟩ ∈ back then 0 else (targets.map Prod.fst).count target) ∧
      ∀ target, ready'.count target = ready.count target +
        if waiting.count target ≠ 0 ∧ Waiting.count waiting' target = 0 then 1 else 0 := by
  induction targets generalizing ready waiting with
  | nil => exact ⟨ready, waiting, rfl, by simp, by simp⟩
  | cons head rest ih =>
    obtain ⟨target, position⟩ := head
    simp only [List.map_cons, List.count_cons, beq_iff_eq] at enough ⊢
    rw [releaseTargets]
    split
    next closes =>
      obtain ⟨ready', waiting', isOk, counts, joins⟩ := @ih ready waiting fun other stays => by
        have some := enough other stays
        omega
      refine ⟨ready', waiting', isOk, fun other => ?_, joins⟩
      rw [counts]
      by_cases same : target = other
      · simp [← same, closes]
      · simp [same]
    next stays =>
      have waits : waiting.count target ≠ 0 := by
        have some := enough target stays
        rw [if_pos rfl] at some
        omega
      rw [Waiting.release?_of_count_ne waits]
      have less := Waiting.count_modify waiting target
      generalize waiting.modify target (· - 1) = fewer at less
      obtain ⟨ready', waiting', isOk, counts, joins⟩ := @ih _ fewer fun other notBack => by
        have some := enough other notBack
        rw [less]
        by_cases same : other = target
        · rw [if_pos same.symm] at some
          rw [if_pos same]
          omega
        · rw [if_neg same]
          omega
      refine ⟨ready', waiting', isOk, fun other => ?_, fun other => ?_⟩
      · rw [counts, less]
        by_cases same : other = target
        · subst same
          simp only [if_true, if_neg stays]
          omega
        · simp [same, Ne.symm same]
      · rw [joins, count_queue]
        by_cases same : other = target
        · subst same
          have falls := counts other
          by_cases last : Waiting.count fewer other = 0
          · rw [last, Nat.zero_sub] at falls
            simp [last, waits, falls]
          · simp [last, waits]
        · simp [same, Ne.symm same, less]

/-- Edges other than the first one do not change the front of the queue. -/
theorem head?_releaseTargets {targets : List (BlockId × Nat)} {ready' : List BlockId}
    {waiting' : Waiting} (later : ∀ target ∈ targets, target.2 ≠ 0)
    (isOk : releaseTargets back id targets (first :: ready, waiting) = .ok (ready', waiting')) :
    ready'.head? = some first := by
  induction targets generalizing ready waiting with
  | nil =>
    cases isOk
    rfl
  | cons head rest ih =>
    obtain ⟨target, position⟩ := head
    rw [List.forall_mem_cons] at later
    rw [releaseTargets] at isOk
    split at isOk
    next => exact ih later.2 isOk
    next =>
      split at isOk
      next => cases isOk
      next =>
        rw [if_neg later.1, List.cons_append, ← apply_ite (first :: ·)] at isOk
        exact ih later.2 isOk

/-- A target for which nothing but the first edge of a block is left to come goes to the front. -/
theorem head?_releaseTargets_first {rest ready' : List BlockId} {waiting' : Waiting}
    (stays : ⟨id, first⟩ ∉ back) (last : waiting.count first = 1)
    (isOk : releaseTargets back id (first :: rest).zipIdx (ready, waiting) = .ok (ready', waiting')) :
    ready'.head? = some first := by
  have empty : Waiting.count (waiting.modify first (· - 1)) first = 0 := by
    rw [Waiting.count_modify, if_pos rfl, last]
  rw [List.zipIdx_cons, releaseTargets, if_neg stays,
    Waiting.release?_of_count_ne (by rw [last]; exact Nat.one_ne_zero)] at isOk
  simp only [empty, ne_eq, not_true_eq_false, if_false, if_true] at isOk
  refine head?_releaseTargets (fun target member => ?_) isOk
  obtain ⟨_, position⟩ := target
  have behind := (List.mem_zipIdx member).1
  exact Nat.ne_of_gt behind

/-! ## Edges that close a loop -/

/-- The recorded predecessors of a block whose edges close a loop, one entry for each edge. -/
def closers (graph : Graph) (back : List Edge) (id : BlockId) : List BlockId :=
  (graph.block id).incoming.filter fun source => ⟨source, id⟩ ∈ back

/-- How many edges that close a loop at a block are recorded without being left out. -/
def surplus (graph : Graph) (back : List Edge) (id : BlockId) : Nat :=
  (graph.closers back id).length - back.countP (·.target = id)

section Closers

variable {source : BlockId} (tallied : graph.Tallied entry)
include tallied

theorem Tallied.mem_incoming (reached : id ∈ graph.reachable entry) :
    source ∈ (graph.block id).incoming ↔
      source ∈ graph.reachable entry ∧ id ∈ graph.successors source := by
  rw [← List.count_pos_iff, tallied.tally id reached]
  by_cases sourceReached : source ∈ graph.reachable entry
  · simp [sourceReached, List.count_pos_iff]
  · simp [sourceReached]

/-- The edges that close a loop at a block, by their sources: each is left out once. -/
theorem Walk.exists_sources (walk : graph.Walk entry [] back listed)
    (reached : id ∈ graph.reachable entry) : ∃ sources : List BlockId, sources.Nodup ∧
      sources.length = back.countP (·.target = id) ∧
      ∀ source, source ∈ sources ↔ source ∈ graph.closers back id := by
  refine ⟨(back.filter (·.target = id)).map Edge.source, ?_, ?_, fun source => ?_⟩
  · refine (walk.found_nodup.filter _).map_on fun left isLeft right isRight same => ?_
    simp only [List.mem_filter, decide_eq_true_eq] at isLeft isRight
    obtain ⟨_, _⟩ := left
    exact congrArg₂ Edge.mk same (isLeft.2.trans isRight.2.symm)
  · rw [List.length_map, List.countP_eq_length_filter]
  · simp only [closers, List.mem_map, List.mem_filter, decide_eq_true_eq]
    constructor
    · rintro ⟨⟨_, _⟩, ⟨closes, rfl⟩, rfl⟩
      obtain ⟨isListed, edge, _⟩ := walk.closing _ closes
      exact ⟨(tallied.mem_incoming reached).mpr ⟨walk.reached _ isListed, edge⟩, closes⟩
    · rintro ⟨_, closes⟩
      exact ⟨_, ⟨closes, rfl⟩, rfl⟩

theorem Walk.countP_target_le (walk : graph.Walk entry [] back listed)
    (reached : id ∈ graph.reachable entry) :
    back.countP (·.target = id) ≤ (graph.closers back id).length := by
  obtain ⟨sources, nodup, length, mem_iff⟩ := walk.exists_sources tallied reached
  rw [← length]
  exact (nodup.subperm fun source => (mem_iff source).mp).length_le

/-- All edges that close a loop at a block are left out if and only if none of them is
doubled. -/
theorem Walk.surplus_eq_zero (walk : graph.Walk entry [] back listed)
    (reached : id ∈ graph.reachable entry) :
    graph.surplus back id = 0 ↔ ∀ source ∈ graph.reachable entry, ⟨source, id⟩ ∈ back →
      (graph.successors source).count id ≤ 1 := by
  obtain ⟨sources, nodup, length, mem_iff⟩ := walk.exists_sources tallied reached
  have fewer : List.Subperm sources (graph.closers back id) :=
    nodup.subperm fun source => (mem_iff source).mp
  calc graph.surplus back id = 0
      ↔ (graph.closers back id).length ≤ sources.length := by
        rw [surplus, length, Nat.sub_eq_zero_iff_le]
    _ ↔ (graph.closers back id).Nodup := by
        constructor
        · exact fun atMost => (fewer.perm_of_length_le atMost).nodup_iff.mp nodup
        · exact fun once => (once.subperm fun source => (mem_iff source).mpr).length_le
    _ ↔ ∀ source, (graph.closers back id).count source ≤ 1 := List.nodup_iff_count_le_one
    _ ↔ _ := by
        refine forall_congr' fun source => ?_
        by_cases closes : (⟨source, id⟩ : Edge) ∈ back
        · rw [closers, List.count_filter (by simpa using closes), tallied.tally id reached]
          by_cases sourceReached : source ∈ graph.reachable entry
          · simp [sourceReached, closes]
          · simp [sourceReached]
        · have absent : source ∉ graph.closers back id := by simp [closers, closes]
          simp [List.count_eq_zero.mpr absent, closes]

end Closers

/-! ## The queue -/

/-- The predecessors of a block that have still to be placed before it, one entry for each
edge. -/
def awaited (graph : Graph) (back : List Edge) (placed : List BlockId) (id : BlockId) : List BlockId :=
  (graph.block id).incoming.filter fun source => ⟨source, id⟩ ∉ back ∧ source ∉ placed

section Awaited

variable {source target : BlockId}

theorem Tallied.mem_awaited (tallied : graph.Tallied entry) (reached : id ∈ graph.reachable entry) :
    source ∈ graph.awaited back placed id ↔ source ∈ graph.reachable entry ∧
      id ∈ graph.successors source ∧ ⟨source, id⟩ ∉ back ∧ source ∉ placed := by
  simp only [awaited, List.mem_filter, decide_eq_true_eq, tallied.mem_incoming reached, and_assoc]

/-- A block that has not been placed is awaited once for each edge. -/
theorem Tallied.count_awaited (tallied : graph.Tallied entry)
    (reached : target ∈ graph.reachable entry) (here : id ∈ graph.reachable entry)
    (unplaced : id ∉ placed) : (graph.awaited back placed target).count id =
      if ⟨id, target⟩ ∈ back then 0 else (graph.successors id).count target := by
  split
  next closes => exact List.count_eq_zero.mpr fun awaits => by simp_all [awaited]
  next stays =>
    rw [awaited, List.count_filter (by simp [stays, unplaced]), tallied.tally target reached,
      if_pos here]

/-- Placing a block takes it off the predecessors that are awaited. -/
theorem length_awaited_append : (graph.awaited back (placed ++ [id]) target).length =
    (graph.awaited back placed target).length - (graph.awaited back placed target).count id := by
  have fewer : graph.awaited back (placed ++ [id]) target =
      (graph.awaited back placed target).filter fun source => !(source == id) := by
    rw [awaited, awaited, List.filter_filter]
    refine List.filter_congr fun source _ => ?_
    by_cases same : source = id <;> simp [same]
  have both := List.length_eq_length_filter_add (l := graph.awaited back placed target) (· == id)
  rw [List.count_eq_countP, List.countP_eq_length_filter, fewer]
  omega

end Awaited

/-- What holds while blocks are placed: exactly the blocks for which nothing is left to come have
been queued or placed. -/
structure Scheduling (graph : Graph) (entry : BlockId) (back : List Edge) (ready : List BlockId)
    (waiting : Waiting) (placed : List BlockId) : Prop where
  nodup : (ready ++ placed).Nodup
  reached : ∀ id ∈ ready ++ placed, id ∈ graph.reachable entry
  count : ∀ id ∈ graph.reachable entry,
    waiting.count id = (graph.awaited back placed id).length + graph.surplus back id
  mem_iff : ∀ id ∈ graph.reachable entry, id ∈ ready ++ placed ↔ waiting.count id = 0

namespace Scheduling

theorem unplaced (scheduling : graph.Scheduling entry back (id :: ready) waiting placed) :
    id ∉ placed := by
  have nodup := scheduling.nodup
  simp only [List.cons_append, List.nodup_cons, List.mem_append, not_or] at nodup
  exact nodup.1.2

variable (tallied : graph.Tallied entry)
include tallied

/-- The targets of a block can be counted off when it is placed. Those for which nothing is left to
come then join the queue. -/
theorem release (scheduling : graph.Scheduling entry back (id :: ready) waiting placed) :
    ∃ ready' waiting', releaseTargets back id (graph.successors id).zipIdx (ready, waiting) =
        .ok (ready', waiting') ∧
      (∀ target, Waiting.count waiting' target = waiting.count target -
        if ⟨id, target⟩ ∈ back then 0 else (graph.successors id).count target) ∧
      ∀ target, (ready' ++ (placed ++ [id])).count target =
        (id :: ready ++ placed).count target +
          if waiting.count target ≠ 0 ∧ Waiting.count waiting' target = 0 then 1 else 0 := by
  have here : id ∈ graph.reachable entry := scheduling.reached id (by simp)
  have targets : (graph.successors id).zipIdx.map Prod.fst = graph.successors id := by simp
  obtain ⟨ready', waiting', isOk, counts, joins⟩ := @exists_releaseTargets id back ready waiting
    (graph.successors id).zipIdx fun target stays => by
      rw [targets]
      by_cases edge : target ∈ graph.successors id
      · have reached := tallied.recorded.closed id here target edge
        have counted : (graph.awaited back placed target).count id =
            (graph.successors id).count target := by
          rw [tallied.count_awaited reached here scheduling.unplaced, if_neg stays]
        rw [scheduling.count target reached, ← counted]
        exact Nat.le_trans List.count_le_length (Nat.le_add_right ..)
      · rw [List.count_eq_zero.mpr edge]
        exact Nat.zero_le _
  rw [targets] at counts
  refine ⟨ready', waiting', isOk, counts, fun target => ?_⟩
  simp only [List.count_append, List.count_cons, List.count_nil, joins, List.cons_append]
  omega

/-- Placing a block. -/
theorem step (scheduling : graph.Scheduling entry back (id :: ready) waiting placed) :
    ∃ ready' waiting', releaseTargets back id (graph.successors id).zipIdx (ready, waiting) =
        .ok (ready', waiting') ∧
      graph.Scheduling entry back ready' waiting' (placed ++ [id]) := by
  have here : id ∈ graph.reachable entry := scheduling.reached id (by simp)
  obtain ⟨ready', waiting', isOk, counts, whole⟩ := scheduling.release tallied
  -- Only targets of the block join the queue.
  have joined : ∀ target, waiting.count target ≠ 0 → Waiting.count waiting' target = 0 →
      target ∈ graph.reachable entry := by
    intro target waits empty
    refine tallied.recorded.closed id here target (List.count_pos_iff.mp ?_)
    have falls := counts target
    split at falls <;> omega
  refine ⟨ready', waiting', isOk, List.nodup_iff_count_le_one.mpr fun target => ?_,
    fun target member => ?_, fun target reached => ?_, fun target reached => ?_⟩
  · rw [whole]
    split
    next joins =>
      have reached := joined target joins.1 joins.2
      have absent : target ∉ id :: ready ++ placed := fun old =>
        joins.1 ((scheduling.mem_iff target reached).mp old)
      exact Nat.le_of_eq (congrArg (· + 1) (List.count_eq_zero.mpr absent))
    next => exact List.nodup_iff_count_le_one.mp scheduling.nodup target
  · rw [← List.count_pos_iff, whole] at member
    split at member
    next joins => exact joined target joins.1 joins.2
    next => exact scheduling.reached target (List.count_pos_iff.mp (by simpa using member))
  · have atMost : (graph.awaited back placed target).count id ≤
        (graph.awaited back placed target).length := List.count_le_length
    rw [counts, scheduling.count target reached, length_awaited_append,
      ← tallied.count_awaited reached here scheduling.unplaced]
    omega
  · have old := scheduling.mem_iff target reached
    rw [← List.count_pos_iff] at old ⊢
    rw [whole]
    have falls := counts target
    split
    next joins => simp [joins.2]
    next stays =>
      rw [Nat.add_zero, old]
      exact ⟨fun empty => by omega, fun empty => Decidable.byContradiction fun waits =>
        stays ⟨waits, empty⟩⟩

end Scheduling

/-! ## The order -/

/-- Once the given blocks have been placed, a target is left with the first edge of a block to
come: every other edge into it that does not close a loop leads from one of them. -/
def ReadyThrough (graph : Graph) (entry : BlockId) (back : List Edge) (before : List BlockId)
    (id first : BlockId) : Prop :=
  (graph.successors id).head? = some first ∧ (graph.successors id).count first = 1 ∧
    ⟨id, first⟩ ∉ back ∧ ∀ source ∈ graph.reachable entry, first ∈ graph.successors source →
      ⟨source, first⟩ ∉ back → source ∈ before ∨ source = id

/-- Blocks in the order in which they are placed behind some others: a block stands behind its
predecessors, and a target that becomes ready through the first edge of a block right behind it. -/
def Arranged (graph : Graph) (entry : BlockId) (back : List Edge) (placed tail : List BlockId) :
    Prop :=
  ∀ before id after, tail = before ++ id :: after →
    (∀ source ∈ graph.reachable entry, id ∈ graph.successors source → ⟨source, id⟩ ∉ back →
      source ∈ placed ++ before) ∧
    ∀ first, graph.surplus back first = 0 → graph.ReadyThrough entry back (placed ++ before) id first →
      after.head? = some first

theorem Arranged.nil : graph.Arranged entry back placed [] := by
  intro before id after whole
  simp at whole

theorem Arranged.cons {tail : List BlockId} (rest : graph.Arranged entry back (placed ++ [id]) tail)
    (sources : ∀ source ∈ graph.reachable entry, id ∈ graph.successors source →
      ⟨source, id⟩ ∉ back → source ∈ placed)
    (next : ∀ first, graph.surplus back first = 0 → graph.ReadyThrough entry back placed id first →
      tail.head? = some first) : graph.Arranged entry back placed (id :: tail) := by
  intro before other after whole
  cases before with
  | nil =>
    obtain ⟨rfl, rfl⟩ := List.cons_eq_cons.mp whole
    rw [List.append_nil]
    exact ⟨sources, next⟩
  | cons head before =>
    obtain ⟨rfl, rfl⟩ := List.cons_eq_cons.mp whole
    simpa using rest before other after rfl

namespace Scheduling

variable (tallied : graph.Tallied entry)
include tallied

/-- A block that has been queued or placed stands behind its predecessors. -/
theorem sources_placed (scheduling : graph.Scheduling entry back ready waiting placed)
    (member : id ∈ ready ++ placed) :
    ∀ source ∈ graph.reachable entry, id ∈ graph.successors source → ⟨source, id⟩ ∉ back →
      source ∈ placed := by
  intro source sourceReached edge stays
  have reached := scheduling.reached id member
  have none := (scheduling.mem_iff id reached).mp member
  rw [scheduling.count id reached, Nat.add_eq_zero_iff, List.length_eq_zero_iff] at none
  by_contra unplaced
  have awaits : source ∈ graph.awaited back placed id :=
    (tallied.mem_awaited reached).mpr ⟨sourceReached, edge, stays, unplaced⟩
  simp [none.1] at awaits

/-- A target that becomes ready through the first edge of a block waits for this block only. -/
theorem count_eq_one (scheduling : graph.Scheduling entry back (id :: ready) waiting placed)
    (even : graph.surplus back first = 0)
    (readyThrough : graph.ReadyThrough entry back placed id first) :
    waiting.count first = 1 := by
  obtain ⟨isFirst, once, stays, sources⟩ := readyThrough
  have here : id ∈ graph.reachable entry := scheduling.reached id (by simp)
  have reached := tallied.recorded.closed id here first (List.mem_of_head? isFirst)
  have only : ∀ source ∈ graph.awaited back placed first, id = source := by
    intro source awaits
    obtain ⟨sourceReached, edge, notBack, unplaced⟩ := (tallied.mem_awaited reached).mp awaits
    exact ((sources source sourceReached edge notBack).resolve_left unplaced).symm
  rw [scheduling.count first reached, even, ← List.count_eq_length.mpr only,
    tallied.count_awaited reached here scheduling.unplaced, if_neg stays, once]

/-- The queue is emptied. -/
theorem finish {count : Nat}
    (scheduling : graph.Scheduling entry back ready waiting placed)
    (enough : graph.size < count + placed.length) :
    ∃ tail waiting', graph.placeWithin back count ready waiting placed =
        .ok (placed ++ tail, waiting') ∧ graph.Scheduling entry back [] waiting' (placed ++ tail) ∧
      tail.head? = ready.head? ∧ graph.Arranged entry back placed tail := by
  induction count generalizing ready waiting placed with
  | zero =>
    have nodup := (List.nodup_append.mp scheduling.nodup).2.1
    have within : placed ⊆ List.range graph.size := fun id member =>
      List.mem_range.mpr (tallied.recorded.inside id (scheduling.reached id (by simp [member])))
    have bound := (List.subperm_of_subset nodup within).length_le
    rw [List.length_range] at bound
    omega
  | succ count ih =>
    cases ready with
    | nil => exact ⟨[], waiting, by rw [List.append_nil]; rfl, by rwa [List.append_nil], rfl, .nil⟩
    | cons id ready =>
      obtain ⟨ready', waiting', released, further⟩ := scheduling.step tallied
      obtain ⟨tail, waiting'', isOk, last, first, arranged⟩ := ih further (by
        rw [List.length_append, List.length_singleton]
        omega)
      rw [List.append_assoc] at isOk last
      refine ⟨id :: tail, waiting'', ?_, last, rfl, arranged.cons ?_ fun target even through => ?_⟩
      · rw [placeWithin, if_neg scheduling.unplaced, released]
        exact isOk
      · exact scheduling.sources_placed tallied (by simp)
      · obtain ⟨rest, isSuccessors⟩ := List.head?_eq_some_iff.mp through.1
        rw [isSuccessors] at released
        rw [first]
        exact head?_releaseTargets_first through.2.2.1
          (scheduling.count_eq_one tallied even through) released

/-- With an empty queue every block has been placed, if every edge that closes a loop has been left
out: a block waits for none but earlier ones. -/
theorem complete (walk : graph.Walk entry [] back listed)
    (even : ∀ id ∈ graph.reachable entry, graph.surplus back id = 0)
    (scheduling : graph.Scheduling entry back [] waiting placed) :
    ∀ id ∈ graph.reachable entry, id ∈ placed := by
  intro id
  generalize position : listed.idxOf id = index
  induction index using Nat.strongRecOn generalizing id with
  | ind index earlier =>
    intro reached
    refine (scheduling.mem_iff id reached).mpr ?_
    rw [scheduling.count id reached, even id reached, Nat.add_zero, List.length_eq_zero_iff]
    refine List.eq_nil_iff_forall_not_mem.mpr fun source awaits => ?_
    obtain ⟨sourceReached, edge, stays, unplaced⟩ := (tallied.mem_awaited reached).mp awaits
    have before := walk.idxOf_lt sourceReached edge stays
    exact unplaced (earlier _ (position ▸ before) source rfl sourceReached)

end Scheduling

/-- The recorded predecessors of a block close a loop or are awaited. -/
theorem length_incoming (back : List Edge) (id : BlockId) : (graph.block id).incoming.length =
    (graph.closers back id).length + (graph.awaited back [] id).length := by
  have split := List.length_eq_length_filter_add (l := (graph.block id).incoming)
    fun source => decide (⟨source, id⟩ ∈ back)
  simpa [awaited, closers] using split

/-- Nothing has to be placed before the entry. -/
theorem Walk.awaited_entry (tallied : graph.Tallied entry)
    (walk : graph.Walk entry [] back listed) : graph.awaited back [] entry = [] := by
  refine List.eq_nil_iff_forall_not_mem.mpr fun source awaits => ?_
  obtain ⟨sourceReached, edge, stays, _⟩ := (tallied.mem_awaited mem_reachable_entry).mp awaits
  exact stays (walk.closes_of_entry sourceReached edge)

/-- Something has to be placed before any other block. -/
theorem Walk.awaited_ne_nil (tallied : graph.Tallied entry)
    (walk : graph.Walk entry [] back listed) (reached : id ∈ graph.reachable entry)
    (notEntry : id ≠ entry) : graph.awaited back [] id ≠ [] := by
  obtain ⟨source, sourceReached, edge, stays⟩ := walk.exists_forward reached notEntry
  have awaits : source ∈ graph.awaited back [] id :=
    (tallied.mem_awaited reached).mpr ⟨sourceReached, edge, stays, List.not_mem_nil⟩
  exact List.ne_nil_of_mem awaits

/-- The counts at the beginning. If nothing is left to come for the entry, it is the only such
block. -/
theorem Walk.start_scheduling (tallied : graph.Tallied entry)
    (walk : graph.Walk entry [] back listed) :
    ∃ waiting, graph.initialWaiting (graph.reachable entry) back = .ok waiting ∧
      waiting.count entry = graph.surplus back entry ∧
      (waiting.count entry = 0 → graph.Scheduling entry back [entry] waiting []) := by
  obtain ⟨recorded, isRecorded⟩ : ∃ recorded : Waiting, recorded =
    graph.blocks.mapIdx fun id block =>
      if id ∈ graph.reachable entry then block.incoming.length else 0 := ⟨_, rfl⟩
  have counts : ∀ id ∈ graph.reachable entry,
      recorded.count id = (graph.block id).incoming.length := by
    intro id reached
    have bound : id < graph.blocks.size := tallied.recorded.inside id reached
    simp [isRecorded, Waiting.count, Graph.block, bound, reached]
  obtain ⟨waiting, isOk, isCount⟩ := exists_initialWaiting isRecorded (by
    intro id
    by_cases reached : id ∈ graph.reachable entry
    · rw [counts id reached, length_incoming back]
      exact Nat.le_trans (walk.countP_target_le tallied reached) (Nat.le_add_right ..)
    · rw [List.countP_eq_zero.mpr]
      · exact Nat.zero_le _
      · intro edge closes
        rw [decide_eq_true_eq]
        rintro rfl
        obtain ⟨isListed, isEdge, _⟩ := walk.closing edge closes
        exact reached (tallied.recorded.closed _ (walk.reached _ isListed) _ isEdge))
  have count : ∀ id ∈ graph.reachable entry,
      waiting.count id = (graph.awaited back [] id).length + graph.surplus back id := by
    intro id reached
    have atMost := walk.countP_target_le tallied reached
    rw [isCount, counts id reached, length_incoming back, surplus]
    omega
  refine ⟨waiting, isOk, ?_, fun entryCount => ⟨by simp, ?_, count, fun id reached => ?_⟩⟩
  · rw [count entry mem_reachable_entry, walk.awaited_entry tallied, List.length_nil, Nat.zero_add]
  · simpa using mem_reachable_entry
  · rw [List.append_nil, List.mem_singleton]
    refine ⟨fun same => same ▸ entryCount, fun none => ?_⟩
    by_contra notEntry
    rw [count id reached, Nat.add_eq_zero_iff, List.length_eq_zero_iff] at none
    exact walk.awaited_ne_nil tallied reached notEntry none.1

/-- An order is found if every edge that closes a loop is left out. -/
theorem Tallied.exists_order (tallied : graph.Tallied entry)
    (even : ∀ id ∈ graph.reachable entry, graph.surplus (graph.backEdges entry) id = 0) :
    ∃ order, graph.order entry = .ok order := by
  obtain ⟨listed, walk⟩ := exists_walk tallied.recorded.inside
  obtain ⟨waiting, isWaiting, entryCount, start⟩ := walk.start_scheduling tallied
  rw [even entry mem_reachable_entry] at entryCount
  obtain ⟨placed, waiting', isPlaced, last, _⟩ :=
    (start entryCount).finish tallied (Nat.lt_succ_self graph.size)
  refine ⟨placed, ?_⟩
  have complete : (graph.reachable entry).find? (· ∉ placed) = none := by
    rw [List.find?_eq_none]
    intro id reached
    simpa using last.complete tallied walk even id reached
  rw [order, isWaiting, Fallible.ok_bind, if_neg (by simp [entryCount])]
  simp only [isPlaced, List.nil_append, Fallible.ok_bind, complete]
  rfl

/-- What an order that is found looks like. -/
theorem Tallied.of_order (tallied : graph.Tallied entry) {order : List BlockId}
    (isOk : graph.order entry = .ok order) :
    (∀ id ∈ graph.reachable entry, graph.surplus (graph.backEdges entry) id = 0) ∧
      graph.Arranged entry (graph.backEdges entry) [] order := by
  obtain ⟨listed, walk⟩ := exists_walk tallied.recorded.inside
  obtain ⟨waiting, isWaiting, _, start⟩ := walk.start_scheduling tallied
  rw [Graph.order, isWaiting, Fallible.ok_bind] at isOk
  split at isOk
  next => simp [Fallible.bind_eq_ok] at isOk
  next entryFree =>
    obtain ⟨placed, waiting', isPlaced, last, _, arranged⟩ :=
      (start (by simpa using entryFree)).finish tallied (Nat.lt_succ_self graph.size)
    simp only [isPlaced, List.nil_append, Fallible.ok_bind] at isOk
    split at isOk
    next => simp at isOk
    next complete =>
      cases isOk
      refine ⟨fun id reached => ?_, arranged⟩
      have isListed : id ∈ order := by simpa using List.find?_eq_none.mp complete id reached
      have none := (last.mem_iff id reached).mp isListed
      rw [last.count id reached] at none
      omega

/-- An order is found for every graph with exact records. -/
theorem Exact.exists_order (isExact : graph.Exact entry) :
    ∃ order, graph.order entry = .ok order := by
  have tallied := isExact.tallied
  obtain ⟨listed, walk⟩ := exists_walk tallied.recorded.inside
  refine tallied.exists_order fun id reached => (walk.surplus_eq_zero tallied reached).mpr ?_
  exact fun source _ _ => List.nodup_iff_count_le_one.mp (isExact.neat.nodup source) id

/-- A conditional block whose two edges lead to the same block and close a loop there. -/
def DoublesBackEdge (graph : Graph) (entry : BlockId) : Prop :=
  ∃ id ∈ graph.reachable entry, ∃ target, (graph.block id).exits = false ∧
    (graph.block id).shape = .conditional (some target) (some target) ∧
      ⟨id, target⟩ ∈ graph.backEdges entry

/-- Only a conditional block can have two edges to one target. -/
theorem one_lt_count_successors {target : BlockId} : 1 < (graph.successors id).count target ↔
    (graph.block id).exits = false ∧
      (graph.block id).shape = .conditional (some target) (some target) := by
  rw [Graph.successors, Block.successors]
  cases (graph.block id).exits with
  | true => simp
  | false =>
    rw [if_neg Bool.false_ne_true]
    cases (graph.block id).shape with
    | simple next => cases next <;> grind [Shape.targets]
    | conditional onTrue onFalse => cases onTrue <;> cases onFalse <;> grind [Shape.targets]

theorem Tallied.surplus_eq_zero_iff (tallied : graph.Tallied entry) :
    (∀ id ∈ graph.reachable entry, graph.surplus (graph.backEdges entry) id = 0) ↔
      ¬ graph.DoublesBackEdge entry := by
  obtain ⟨listed, walk⟩ := exists_walk tallied.recorded.inside
  constructor
  · rintro even ⟨id, reached, target, going, shape, closes⟩
    have twice := one_lt_count_successors.mpr ⟨going, shape⟩
    have edge : target ∈ graph.successors id := List.count_pos_iff.mp (Nat.lt_of_succ_lt twice)
    have targetReached := tallied.recorded.closed id reached target edge
    have once := (walk.surplus_eq_zero tallied targetReached).mp (even target targetReached) id
      reached closes
    omega
  · intro single target targetReached
    refine (walk.surplus_eq_zero tallied targetReached).mpr fun id reached closes => ?_
    by_contra twice
    obtain ⟨going, shape⟩ := one_lt_count_successors.mp (Nat.lt_of_not_le twice)
    exact single ⟨id, reached, target, going, shape, closes⟩

/-- Ordering is total and topological: for a graph that passes the check an order is found
if and only if no conditional block closes a loop with both of its edges. The order starts with
the entry, lists every reachable block once and nothing else, lists the source of every edge that
does not close a loop before its target, and lists a target that becomes ready through the first
edge of a block right behind the block. -/
theorem order_topological (valid : graph.validate entry = .ok ()) :
    ((∃ order, graph.order entry = .ok order) ↔ ¬ graph.DoublesBackEdge entry) ∧
    ∀ order, graph.order entry = .ok order →
      order.head? = some entry ∧ order.Nodup ∧
      (∀ id, id ∈ order ↔ id ∈ graph.reachable entry) ∧
      (∀ source ∈ graph.reachable entry, ∀ target ∈ graph.successors source,
        ⟨source, target⟩ ∉ graph.backEdges entry → order.idxOf source < order.idxOf target) ∧
      ∀ before id after first, order = before ++ id :: after →
        graph.ReadyThrough entry (graph.backEdges entry) before id first →
          after.head? = some first := by
  have tallied := validate_iff_tallied.mp valid
  refine ⟨⟨?_, fun single => tallied.exists_order (tallied.surplus_eq_zero_iff.mpr single)⟩, ?_⟩
  · rintro ⟨order, isOk⟩
    exact tallied.surplus_eq_zero_iff.mp (tallied.of_order isOk).1
  intro order isOk
  obtain ⟨even, arranged⟩ := tallied.of_order isOk
  obtain ⟨nodup, complete, first⟩ := Lists.of_order (.of_validate valid) isOk
  refine ⟨first, nodup, complete, fun source reached target edge stays => ?_,
    fun before id after first whole through => ?_⟩
  · have targetReached := tallied.recorded.closed source reached target edge
    obtain ⟨before, after, rfl⟩ := List.append_of_mem ((complete target).mpr targetReached)
    have isBefore : source ∈ before := (arranged before target after rfl).1 source reached edge stays
    have forward : [source, target].Sublist (before ++ target :: after) :=
      (List.singleton_sublist.mpr isBefore).append
        (List.singleton_sublist.mpr (List.mem_cons_self ..))
    exact idxOf_lt_of_sublist nodup forward
  · have reached : id ∈ graph.reachable entry := (complete id).mp (by simp [whole])
    have firstReached := tallied.recorded.closed id reached first (List.mem_of_head? through.1)
    exact (arranged before id after whole).2 first (even first firstReached) through

/-- A loop that can be entered at either of its two blocks. -/
def crossing : Graph where
  blocks := #[{ instrs := [.int 1], shape := .conditional (some 1) (some 2) },
    { instrs := [.int 1], shape := .conditional (some 2) (some 3) },
    { instrs := [.int 1], shape := .simple (some 1) }, { instrs := [⟨.ret, []⟩] }]

/-- A block that goes back to itself on either condition. -/
def twinLoop : Graph where
  blocks := #[{ instrs := [.int 1], shape := .simple (some 1) },
    { instrs := [.int 1], shape := .conditional (some 1) (some 1) }]

theorem order_topological_loops :
    (∃ order, (crossing.recordIncoming 0).order 0 = .ok order ∧ order.head? = some 0 ∧
      order.Nodup ∧ order.idxOf 1 < order.idxOf 2 ∧
      ¬ (crossing.recordIncoming 0).DoublesBackEdge 0) ∧
    ¬ ∃ order, (twinLoop.recordIncoming 0).order 0 = .ok order := by
  have valid : (crossing.recordIncoming 0).validate 0 = .ok () := by decide
  have ordered : (crossing.recordIncoming 0).order 0 = .ok [0, 1, 2, 3] := by decide
  obtain ⟨first, nodup, _, forward, _⟩ := (order_topological valid).2 _ ordered
  refine ⟨⟨_, ordered, first, nodup, forward 1 (by decide) 2 (by decide) (by decide),
    (order_topological valid).1.mp ⟨_, ordered⟩⟩, fun found => ?_⟩
  have twinValid : (twinLoop.recordIncoming 0).validate 0 = .ok () := by decide
  exact (order_topological twinValid).1.mp found ⟨1, by decide, 1, by decide, by decide, by decide⟩

end ContractBackend.Graph
