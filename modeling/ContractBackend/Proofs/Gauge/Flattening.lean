import ContractBackend.Compile
import ContractBackend.Proofs.Flattening
import ContractBackend.Proofs.Gauge.Basic

/-!
# Safe graphs have safe flat code

A graph that is safe from its entry never gets lost, so it can be laid out, and the flat
code of the layout is safe from its first position.
-/

namespace ContractBackend.Graph

variable {α : Type} {gauge : Gauge α} {graph : Graph} {entry id : BlockId} {level : α}

/-- Control goes on behind a block that does not leave the routine. -/
theorem exists_behind_of_through {block : Block} {behind : α → Prop}
    (going : block.exits = false) (through : gauge.Through block.instrs level behind) :
    ∃ after, behind after := by
  refine through.exists_behind fun last isLast => ?_
  simpa [Block.exits, isLast] using going

/-- Control is safe at every reachable block. -/
theorem Safe.exists_of_reachable (safe : graph.Safe gauge entry level) :
    ∀ id ∈ graph.reachable entry, ∃ level, graph.Safe gauge id level := by
  apply Reach.closure_preserves
  · rintro id - ⟨level, safe⟩ target edge
    rw [successors, Block.successors] at edge
    split at edge
    next => simp at edge
    next going =>
      obtain ⟨after, goes⟩ := exists_behind_of_through (by simpa using going) safe.through
      cases goes with
      | simple shape holds =>
        simp only [shape, Shape.targets, Option.toList_some, List.mem_singleton] at edge
        exact ⟨after, edge ▸ holds⟩
      | conditional shape tests onTrue onFalse =>
        simp only [shape, Shape.targets, Option.toList_some, List.mem_append,
          List.mem_singleton] at edge
        rcases edge with rfl | rfl
        · exact ⟨_, onTrue⟩
        · exact ⟨_, onFalse⟩
  · simpa using ⟨level, safe⟩

/-- Control that goes on has somewhere to go. -/
theorem Goes.ne_empty {safe : BlockId → α → Prop} (goes : graph.Goes gauge safe id level) :
    graph.block id ≠ {} := by
  intro empty
  cases goes with
  | simple shape => simp [empty] at shape
  | conditional shape => simp [empty] at shape

theorem Valid.of_safe (safe : graph.Safe gauge entry level) : graph.Valid entry := by
  have inside : ∀ id ∈ graph.reachable entry, id < graph.size := by
    intro id reached
    obtain ⟨level, safe⟩ := safe.exists_of_reachable id reached
    by_contra beyond
    have empty : graph.block id = {} := by
      have absent : graph.blocks[id]? = none := Array.getElem?_eq_none (Nat.le_of_not_lt beyond)
      rw [Graph.block, absent]
      rfl
    have goes := safe.through
    rw [empty] at goes
    exact Goes.ne_empty goes empty
  refine ⟨inside, fun id reached going => ?_, reachable_closed inside⟩
  obtain ⟨level, safe⟩ := safe.exists_of_reachable id reached
  obtain ⟨after, goes⟩ := exists_behind_of_through going safe.through
  cases goes with
  | simple shape => simp [shape, Shape.isHalf]
  | conditional shape => simp [shape, Shape.isHalf]

theorem Flowing.of_safe (safe : graph.Safe gauge entry level) : graph.Flowing entry where
  toValid := .of_safe safe
  ending := by
    intro id reached stops
    obtain ⟨level, safe⟩ := safe.exists_of_reachable id reached
    by_contra going
    rw [Bool.not_eq_true] at going
    obtain ⟨after, goes⟩ := exists_behind_of_through going safe.through
    rw [successors, Block.successors, going] at stops
    cases goes with
    | simple shape => simp [shape, Shape.targets] at stops
    | conditional shape => simp [shape, Shape.targets] at stops
  branchless := by
    intro id reached
    obtain ⟨level, safe⟩ := safe.exists_of_reachable id reached
    exact safe.through.isBranch

section Layout

variable {order : List BlockId} {placed : List Placed} {position index : Nat}
  {branches : List Branch}

/-- A position of the flat code is safe if a walk in accord with it is. -/
def Carried (gauge : Gauge α) (graph : Graph) (placed : List Placed) (index : Nat) (level : α) :
    Prop :=
  ∃ id rest, graph.Accords (graph.listing placed) (Located graph (graph.listing placed)
      (graph.startOf placed) (placedParts placed)) index id rest ∧
    gauge.Through rest level (graph.Goes gauge (graph.Safe gauge) id)

/-- The branches of a listing are the ones that flattening adds. -/
theorem Laid.eq_branch (laid : graph.Laid entry order placed) {instr : Instr} {op : Opcode}
    (here : (graph.listing placed)[index]? = some (.instr instr)) (kind : instr.op = op)
    (isBranch : op.isBranch = true) : ∃ label, instr = .branch op label := by
  obtain ⟨position, id, branches, found, inBlock | ⟨branch, _, rfl⟩⟩ :=
    mem_listing (List.mem_of_getElem? here)
  · rw [← kind, laid.branchless id (laid.reached found) instr inBlock] at isBranch
    cases isBranch
  · exact ⟨_, by rw [← kind]; rfl⟩

/-- The flat code of a safe graph is safe. -/
theorem Laid.safe (laid : graph.Laid entry order placed) (safe : graph.Safe gauge entry level) :
    (graph.listing placed).Safe gauge 0 level := by
  have carried : ∀ {index id level}, Located graph (graph.listing placed) (graph.startOf placed)
      (placedParts placed) index id (graph.block id).instrs → graph.Safe gauge id level →
      Carried gauge graph placed index level :=
    fun located safe => ⟨_, _, laid.spells.accords located, safe.through⟩
  refine ⟨Carried gauge graph placed, ?_, ?_⟩
  · obtain ⟨branches, isPlaced⟩ := laid.entry_placed
    have isPart : placedParts placed 0 entry _ _ := ⟨branches, isPlaced, rfl, rfl⟩
    exact carried (.start isPart (Nat.zero_le _)) safe
  · rintro index level ⟨id, rest, accords, through⟩
    induction accords with
    | label here accords _ => exact .label here ⟨_, _, accords, through⟩
    | jump here isJump aims accords _ =>
      obtain ⟨label, rfl⟩ := laid.eq_branch here isJump rfl
      exact .jump here aims ⟨_, _, accords, through⟩
    | fall shape _ ih => exact ih (Goes.of_simple shape through).through
    | instr here _ next =>
      simp only [Gauge.Through] at through
      split at through
      next exits => exact .leave here exits through.1
      next goes =>
        rw [Bool.not_eq_true] at goes
        obtain ⟨_, moves, through⟩ := through
        exact .move here goes moves ⟨_, _, laid.spells.accords (next goes), through⟩
    | across shape here isJump aims next =>
      obtain ⟨label, rfl⟩ := laid.eq_branch here isJump rfl
      exact .jump here aims (carried next (Goes.of_simple shape through))
    | branch shape here sides aims taken passed =>
      obtain ⟨after, tests, onTrue, onFalse⟩ := Goes.of_conditional shape through
      rcases sides with ⟨isBnz, rfl, rfl⟩ | ⟨isBz, rfl, rfl⟩
      · obtain ⟨label, rfl⟩ := laid.eq_branch here isBnz rfl
        exact .branch here (.inl rfl) aims tests (carried taken onTrue) (carried passed onFalse)
      · obtain ⟨label, rfl⟩ := laid.eq_branch here isBz rfl
        exact .branch here (.inr rfl) aims tests (carried taken onFalse) (carried passed onTrue)
    | stop shape =>
      cases through with
      | simple isSimple => simp [shape] at isSimple
      | conditional isConditional => simp [shape] at isConditional

/-- The flat code of a routine lays out its graph, and is safe if the graph is. -/
theorem exists_laid_of_flatten {routine : RoutineGraph} {code : FlatCode}
    (isOk : routine.flatten = .ok code) (safe : routine.graph.Safe gauge routine.entry level) :
    ∃ order placed, routine.graph.Laid routine.entry order placed ∧
      routine.graph.listing placed = code := by
  rw [RoutineGraph.flatten, Fallible.bind_eq_ok] at isOk
  obtain ⟨order, ordered, isOk⟩ := isOk
  obtain ⟨placed, isPlaced, isListed⟩ := flatten_eq_ok.mp isOk
  have flowing : routine.graph.Flowing routine.entry := .of_safe safe
  exact ⟨order, placed, ⟨flowing, .of_order flowing.toValid ordered, isPlaced⟩, isListed⟩

end Layout

end ContractBackend.Graph
