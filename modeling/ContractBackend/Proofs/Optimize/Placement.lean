import ContractBackend.Proofs.Optimize.Records

/-!
# Improvements of flat code

An improvement changes the code of one block, and leaves the blocks where they are. In the flat
code of the routine a straight piece takes the place of another one.
-/

namespace ContractBackend

open Relation (ReflTransGen)

namespace FlatCode

@[simp] theorem instrs_append (left right : FlatCode) :
    instrs (left ++ right) = left.instrs ++ right.instrs :=
  List.filterMap_append

@[simp] theorem instrs_map (content : List Instr) : instrs (content.map .instr) = content := by
  rw [instrs, List.filterMap_map]
  exact List.filterMap_some

end FlatCode

namespace Graph

variable {graph other : Graph} {entry id : BlockId}

namespace SameEdges

variable (same : SameEdges graph other)
include same

theorem backEdgesWithin (count : Nat) (path : List (BlockId × List BlockId))
    (entered : List BlockId) (found : List Edge) :
    other.backEdgesWithin count path entered found =
      graph.backEdgesWithin count path entered found := by
  induction count generalizing path entered found with
  | zero => rfl
  | succ count ih =>
    match path with
    | [] => rfl
    | (_, []) :: path => simp only [Graph.backEdgesWithin, ih]
    | (id, target :: rest) :: path => simp only [Graph.backEdgesWithin, ih, same.successors]

theorem placeWithin (back : List Edge) (count : Nat) (ready : List BlockId) (waiting : Waiting)
    (placed : List BlockId) :
    other.placeWithin back count ready waiting placed =
      graph.placeWithin back count ready waiting placed := by
  induction count generalizing ready waiting placed with
  | zero => rfl
  | succ count ih =>
    cases ready with
    | nil => rfl
    | cons id ready => simp only [Graph.placeWithin, ih, same.successors]

theorem initialWaiting (reachable : List BlockId) (back : List Edge) :
    other.initialWaiting reachable back = graph.initialWaiting reachable back := by
  have recorded : other.blocks.mapIdx (fun id block =>
      if id ∈ reachable then block.incoming.length else 0) =
      graph.blocks.mapIdx (fun id block =>
        if id ∈ reachable then block.incoming.length else 0) := by
    apply Array.ext
    · rw [Array.size_mapIdx, Array.size_mapIdx]
      exact same.size
    · intro index left right
      have here := same.incoming index
      simp only [Array.size_mapIdx] at left right
      simp only [Graph.block, Array.getElem?_eq_getElem left, Array.getElem?_eq_getElem right,
        Option.getD_some] at here
      simp [here]
  simp only [Graph.initialWaiting, recorded]

/-- The blocks are listed in the same order. -/
theorem order (entry : BlockId) : other.order entry = graph.order entry := by
  simp only [Graph.order, Graph.backEdges, reachable_congr same.size same.successors,
    same.size, same.successors, same.backEdgesWithin, same.initialWaiting, same.placeWithin]

/-- The blocks end with the same branches. -/
theorem place (order : List BlockId) : other.place order = graph.place order := by
  have terminal : ∀ id, (other.block id).isTerminal = (graph.block id).isTerminal := by
    intro id
    rw [Block.isTerminal, Block.isTerminal, Block.successors_congr (same.exits id) (same.shape id)]
  simp only [Graph.place, Graph.branches, terminal, same.shape]

end SameEdges

/-- The code of a block that is placed once stands in one piece. -/
theorem listing_recode {placed : List Placed} (nodup : (placed.map Prod.fst).Nodup)
    (inside : id ∈ placed.map Prod.fst → id < graph.size) :
    (∀ instrs, (graph.recode id instrs).listing placed = graph.listing placed) ∨
      ∃ front back, ∀ instrs,
        (graph.recode id instrs).listing placed = front ++ (instrs.map .instr ++ back) := by
  have others : ∀ instrs referenced start (some : List Placed), id ∉ some.map Prod.fst →
      (some.zipIdx start).flatMap (fun entry =>
        (graph.recode id instrs).emit referenced entry.2 entry.1) =
      (some.zipIdx start).flatMap fun entry => graph.emit referenced entry.2 entry.1 := by
    intro instrs referenced start some absent
    refine List.flatMap_congr fun entry member => ?_
    rw [emit, emit, block_recode_of_ne]
    rintro rfl
    exact absent (List.mem_map_of_mem (List.fst_mem_of_mem_zipIdx member))
  by_cases member : id ∈ placed.map Prod.fst
  · replace inside := inside member
    obtain ⟨⟨source, branches⟩, isPlaced, isSource⟩ := List.mem_map.mp member
    obtain rfl : id = source := isSource.symm
    obtain ⟨first, rest, rfl⟩ := List.append_of_mem isPlaced
    simp only [List.map_append, List.map_cons, List.nodup_append, List.nodup_cons] at nodup
    obtain ⟨_, ⟨behind, _⟩, apart⟩ := nodup
    have inFront : id ∉ first.map Prod.fst :=
      fun member => apart id member id (List.mem_cons_self ..) rfl
    let referenced := targets (first ++ (id, branches) :: rest)
    refine .inr ⟨first.zipIdx.flatMap (fun entry => graph.emit referenced entry.2 entry.1) ++
        (if first.length ∈ referenced then [.label ⟨first.length, ""⟩] else []),
      (branches.map Branch.instr).map .instr ++ (rest.zipIdx (first.length + 1)).flatMap
        (fun entry => graph.emit referenced entry.2 entry.1), fun instrs => ?_⟩
    rw [listing, List.zipIdx_append, List.flatMap_append, others instrs _ _ _ inFront,
      List.zipIdx_cons, List.flatMap_cons, Nat.zero_add, others instrs _ _ _ behind, emit,
      instrs_recode_self inside, List.map_append]
    simp only [List.append_assoc, referenced]
  · exact .inl fun instrs => others instrs _ _ _ member

/-- In the flat code of a graph, at most a straight piece changes with the code of a block. -/
theorem exists_flatten_recode {α : Type} {gauge : Gauge α} {level : α} {code : FlatCode}
    {instrs : List Instr} (isOk : RoutineGraph.flatten ⟨graph, entry⟩ = .ok code)
    (safe : graph.Safe gauge entry level) (same : endsRoutine instrs = (graph.block id).exits) :
    ∃ code', RoutineGraph.flatten ⟨graph.recode id instrs, entry⟩ = .ok code' ∧
      (code' = code ∨ ∃ front back, code = front ++ ((graph.block id).instrs.map .instr ++ back) ∧
        code' = front ++ (instrs.map .instr ++ back)) := by
  have edges := sameEdges_recode same
  rw [RoutineGraph.flatten, Fallible.bind_eq_ok] at isOk
  obtain ⟨order, ordered, isOk⟩ := isOk
  obtain ⟨placed, isPlaced, rfl⟩ := flatten_eq_ok.mp isOk
  have valid : graph.Valid entry := .of_safe safe
  have lists : graph.Lists entry order := .of_order valid ordered
  have keys := map_fst_of_place isPlaced
  refine ⟨(graph.recode id instrs).listing placed, ?_, ?_⟩
  · rw [RoutineGraph.flatten, Fallible.bind_eq_ok]
    exact ⟨order, (edges.order entry).trans ordered,
      flatten_eq_ok.mpr ⟨placed, (edges.place order).trans isPlaced, rfl⟩⟩
  · have inside : id ∈ placed.map Prod.fst → id < graph.size := by
      rw [keys]
      exact fun member => valid.inside id ((lists.complete id).mp member)
    rcases listing_recode (keys ▸ lists.nodup) inside with stays | ⟨front, back, changes⟩
    · exact .inl (stays instrs)
    · refine .inr ⟨front, back, ?_, changes instrs⟩
      rw [← changes, recode_self]

/-- Flat code loads a slot as often as the reachable blocks do. -/
theorem countP_of_flatten {α : Type} {gauge : Gauge α} {level : α} {code : FlatCode}
    (isOk : RoutineGraph.flatten ⟨graph, entry⟩ = .ok code) (safe : graph.Safe gauge entry level)
    (slot : Slot) : code.instrs.countP (fun instr => instr.loadsFrom slot) =
      graph.loadCount (graph.reachable entry) slot := by
  obtain ⟨order, placed, laid, rfl⟩ := exists_laid_of_flatten isOk safe
  have emitted : ∀ entry ∈ placed.zipIdx,
      (FlatCode.instrs (graph.emit (targets placed) entry.2 entry.1)).countP
          (fun instr => instr.loadsFrom slot) =
        (graph.block entry.1.1).instrs.countP fun instr => instr.loadsFrom slot := by
    rintro ⟨⟨id, branches⟩, position⟩ member
    have leads := laid.leads (List.mem_zipIdx_iff_getElem?.mp member)
    have none : (branches.map Branch.instr).countP (fun instr => instr.loadsFrom slot) = 0 := by
      rw [List.countP_eq_zero]
      intro instr isBranch
      obtain ⟨branch, inBranches, rfl⟩ := List.mem_map.mp isBranch
      have jumps := leads.isBranch branch inBranches
      intro loads
      have isLoad : branch.op = .load := (Instr.loadsFrom_iff.mp loads).1
      rw [isLoad] at jumps
      cases jumps
    have split : FlatCode.instrs (graph.emit (targets placed) position (id, branches)) =
        (graph.block id).instrs ++ branches.map Branch.instr := by
      rw [emit, FlatCode.instrs_append, FlatCode.instrs_map]
      split <;> rfl
    rw [split, List.countP_append, none, Nat.add_zero]
  have listed : (graph.listing placed).instrs = placed.zipIdx.flatMap fun entry =>
      FlatCode.instrs (graph.emit (targets placed) entry.2 entry.1) := by
    rw [listing, FlatCode.instrs, List.filterMap_flatMap]
    rfl
  have keys := map_fst_of_place laid.isPlaced
  have permuted : order.Perm (graph.reachable entry) :=
    (List.perm_ext_iff_of_nodup laid.nodup (reachable_nodup graph entry)).mpr laid.complete
  rw [loadCount, ← (permuted.flatMap_right _).countP_eq, ← keys, listed, List.countP_flatMap,
    List.countP_flatMap]
  congr 1
  conv_rhs => rw [← List.zipIdx_map_fst 0 placed, List.map_map, List.map_map]
  exact List.map_congr_left emitted

end Graph

namespace FlatCode

/-- The second of two equal windows of flat code is replaced. -/
inductive Duplicates (version : Version) : FlatCode → FlatCode → Prop where
  | intro (front : FlatCode) (window : List Instr) (back : FlatCode) {instr : Instr} :
      Dedupe.replacement? version window = some instr →
      Duplicates version (front ++ ((window ++ window).map .instr ++ back))
        (front ++ ((window ++ [instr]).map .instr ++ back))

/-- A store to a slot and the only load of the slot, right behind it, are left out. -/
inductive Skips (pinned : List Slot) : FlatCode → FlatCode → Prop where
  | intro (front back : FlatCode) {store load : Instr} {slot : Slot} :
      Elide.storedSlot? store = some slot → slot ∉ pinned → load.loadsFrom slot = true →
      (∀ instr ∈ (front ++ back : FlatCode).instrs, instr.loadsFrom slot = false) →
      Skips pinned (front ++ ([store, load].map .instr ++ back)) (front ++ back)

variable {version : Version} {pinned : List Slot} {slot : Slot} {before after : List Instr}

theorem duplicates_of_once (once : Dedupe.Once version before after) (front back : FlatCode) :
    Duplicates version (front ++ (before.map .instr ++ back)) (front ++ (after.map .instr ++ back)) := by
  cases once with
  | @intro first window rest instr found =>
    have duplicates := Duplicates.intro (front ++ first.map .instr) window
      (rest.map .instr ++ back) found
    simpa using duplicates

theorem skips_of_pair (pair : Elide.Pair pinned slot before after) (front back : FlatCode)
    (once : (front ++ (before.map .instr ++ back) : FlatCode).instrs.countP
      (fun instr => instr.loadsFrom slot) = 1) :
    Skips pinned (front ++ (before.map .instr ++ back)) (front ++ (after.map .instr ++ back)) := by
  cases pair with
  | @intro first rest store load stored counts loads =>
    have others : ∀ instr ∈
        instrs ((front ++ first.map .instr) ++ (rest.map .instr ++ back)),
        instr.loadsFrom slot = false := by
      simp only [instrs_append, instrs_map, List.countP_append, List.countP_cons, loads] at once
      have none : (instrs ((front ++ first.map .instr) ++ (rest.map .instr ++ back))).countP
          (fun instr => instr.loadsFrom slot) = 0 := by
        simp only [instrs_append, instrs_map, List.countP_append]
        simp only [if_true] at once
        omega
      simpa using List.countP_eq_zero.mp none
    have skips : Skips pinned _ _ := .intro _ _ stored counts loads others
    simpa using skips

end FlatCode

namespace RoutineGraph

variable {dialect : Dialect} {declared : SubroutineId → Option Handle} {results : Nat}
  {level : Level} {routine : RoutineGraph} {code : FlatCode}

theorem flatten_dedupe (isOk : routine.flatten = .ok code)
    (safe : routine.graph.Safe (.heights dialect declared results) routine.entry level)
    (admitted : dialect.admits ⟨.dup, []⟩ = true ∧ dialect.admits ⟨.dup2, []⟩ = true)
    (version : Version) :
    ∃ code', flatten ⟨(routine.graph.dedupe routine.entry version).1, routine.entry⟩ = .ok code' ∧
      ReflTransGen (FlatCode.Duplicates version) code code' := by
  have steps := Graph.reflTransGen_dedupe version (Graph.Valid.of_safe safe).inside
  generalize (routine.graph.dedupe routine.entry version).1 = deduped at steps ⊢
  suffices both : deduped.Safe (.heights dialect declared results) routine.entry level ∧
      ∃ code', flatten ⟨deduped, routine.entry⟩ = .ok code' ∧
        ReflTransGen (FlatCode.Duplicates version) code code' from both.2
  induction steps with
  | refl => exact ⟨safe, code, isOk, .refl⟩
  | tail _ step ih =>
    obtain ⟨safe, code', isOk, steps⟩ := ih
    cases step with
    | @intro id instrs once =>
      refine ⟨safe.recode (keeps_of_once once admitted), ?_⟩
      obtain ⟨code'', isOk', rfl | ⟨front, back, rfl, rfl⟩⟩ :=
        Graph.exists_flatten_recode isOk safe once.endsRoutine_eq
      · exact ⟨_, isOk', steps⟩
      · exact ⟨_, isOk', steps.tail (FlatCode.duplicates_of_once once front back)⟩

theorem flatten_elide (isOk : routine.flatten = .ok code)
    (safe : routine.graph.Safe (.heights dialect declared results) routine.entry level)
    (pinned : List Slot) :
    ∃ code', flatten ⟨(routine.graph.elide routine.entry pinned).1, routine.entry⟩ = .ok code' ∧
      ReflTransGen (FlatCode.Skips pinned) code code' := by
  have steps := Graph.reflTransGen_elide routine.graph routine.entry pinned
  generalize (routine.graph.elide routine.entry pinned).1 = elided at steps ⊢
  suffices both : elided.Safe (.heights dialect declared results) routine.entry level ∧
      ∃ code', flatten ⟨elided, routine.entry⟩ = .ok code' ∧
        ReflTransGen (FlatCode.Skips pinned) code code' from both.2
  induction steps with
  | refl => exact ⟨safe, code, isOk, .refl⟩
  | tail _ step ih =>
    obtain ⟨safe, code', isOk, steps⟩ := ih
    cases step with
    | @intro id slot instrs reached once pair =>
      obtain ⟨_, safeHere⟩ := safe.exists_of_reachable id reached
      have loads := Graph.countP_of_flatten isOk safe slot
      refine ⟨safe.recode (keeps_of_pair pair), ?_⟩
      obtain ⟨code'', isOk', rfl | ⟨front, back, rfl, rfl⟩⟩ :=
        Graph.exists_flatten_recode isOk safe (pair.endsRoutine_eq safeHere.through)
      · exact ⟨_, isOk', steps⟩
      · exact ⟨_, isOk', steps.tail (FlatCode.skips_of_pair pair front back (loads.trans once))⟩

end RoutineGraph

end ContractBackend
