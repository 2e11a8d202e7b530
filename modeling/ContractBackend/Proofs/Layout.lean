import ContractBackend.Graph.Order
import ContractBackend.Proofs.Listing
import ContractBackend.Proofs.Search

/-!
# How listed blocks go on

In an order that lists every reachable block once, each block is listed with
branches that lead exactly to its targets: control falls through to a target that
follows, and a branch leads to every other one. Whatever the counts of predecessors say, an order
that is found is one of these.
-/

namespace ContractBackend.Graph

theorem exists_successorPosition {order : List BlockId} {id : BlockId} (source : BlockId)
    (member : id ∈ order) :
    ∃ position, successorPosition order source (some id) = .ok position ∧
      order[position]? = some id := by
  obtain ⟨index, atIndex⟩ := List.mem_iff_getElem?.mp member
  obtain ⟨position, found, _⟩ : ∃ position, position? order id = some position ∧ 0 ≤ position :=
    exists_foldl_last (· = id) (.inr ⟨index, id, atIndex, rfl, by omega⟩)
  refine ⟨position, by simp only [successorPosition, Option.bind_some, found], ?_⟩
  rcases foldl_last_cases (· = id) found with absent | ⟨index, _, atIndex, rfl, rfl⟩
  · cases absent
  · rwa [Nat.zero_add]

/-- The branches that end the block at a position, and where they lead. -/
inductive Leads (graph : Graph) (order : List BlockId) (position : Nat) (id : BlockId) :
    List Branch → Prop where
  | exit : (graph.block id).exits = true → Leads graph order position id []
  | fall {next : BlockId} : (graph.block id).exits = false →
      (graph.block id).shape = .simple (some next) → order[position + 1]? = some next →
      Leads graph order position id []
  | jump {next : BlockId} {target : Nat} : (graph.block id).exits = false →
      (graph.block id).shape = .simple (some next) → order[target]? = some next →
      Leads graph order position id [⟨.b, target⟩]
  | ifTrue {onTrue onFalse : BlockId} {target : Nat} : (graph.block id).exits = false →
      (graph.block id).shape = .conditional (some onTrue) (some onFalse) →
      order[target]? = some onTrue → order[position + 1]? = some onFalse →
      Leads graph order position id [⟨.bnz, target⟩]
  | ifFalse {onTrue onFalse : BlockId} {target : Nat} : (graph.block id).exits = false →
      (graph.block id).shape = .conditional (some onTrue) (some onFalse) →
      order[position + 1]? = some onTrue → order[target]? = some onFalse →
      Leads graph order position id [⟨.bz, target⟩]
  | both {onTrue onFalse : BlockId} {target other : Nat} : (graph.block id).exits = false →
      (graph.block id).shape = .conditional (some onTrue) (some onFalse) →
      order[target]? = some onTrue → order[other]? = some onFalse →
      Leads graph order position id [⟨.bnz, target⟩, ⟨.b, other⟩]

theorem Leads.isBranch {graph : Graph} {order : List BlockId} {position : Nat} {id : BlockId}
    {branches : List Branch} (leads : graph.Leads order position id branches) :
    ∀ branch ∈ branches, branch.op.isBranch = true := by
  cases leads <;> simp [Opcode.isBranch]

/-- An order that lists every reachable block once and starts with the entry. -/
structure Lists (graph : Graph) (entry : BlockId) (order : List BlockId) : Prop where
  nodup : order.Nodup
  complete : ∀ id, id ∈ order ↔ id ∈ graph.reachable entry
  first : order.head? = some entry

/-- A graph whose reachable blocks leave the routine wherever they do not go on. -/
structure Flowing (graph : Graph) (entry : BlockId) : Prop extends graph.Valid entry where
  ending : ∀ id ∈ graph.reachable entry, graph.successors id = [] →
    (graph.block id).exits = true
  branchless : ∀ id ∈ graph.reachable entry, ∀ instr ∈ (graph.block id).instrs,
    instr.op.isBranch = false

section Layout

variable {graph : Graph} {entry : BlockId} {order : List BlockId}

/-- Every listed block has its branches, and they lead to its targets. -/
theorem exists_leads (flowing : graph.Flowing entry) (lists : graph.Lists entry order)
    (position : Nat) {id : BlockId} (member : id ∈ order) :
    ∃ branches, graph.branches order position id = .ok branches ∧
      graph.Leads order position id branches := by
  have reached := (lists.complete id).mp member
  by_cases exits : (graph.block id).exits = true
  · refine ⟨[], ?_, .exit exits⟩
    simp [branches, Block.isTerminal, Block.successors, exits]
  · rw [Bool.not_eq_true] at exits
    have going : (graph.block id).isTerminal = false := by
      rw [Block.isTerminal, Bool.eq_false_iff]
      intro stops
      rw [flowing.ending id reached (List.isEmpty_iff.mp stops)] at exits
      cases exits
    have whole := flowing.whole id reached exits
    have listed : ∀ target ∈ (graph.block id).shape.targets, target ∈ order := by
      intro target isTarget
      apply (lists.complete target).mpr
      apply flowing.closed id reached target
      simpa [successors, Block.successors, exits] using isTarget
    have goes := going
    rw [Block.isTerminal, Block.successors, exits] at goes
    simp only [branches, going, Bool.false_eq_true, if_false]
    cases shape : (graph.block id).shape with
    | simple next =>
      rw [shape] at goes listed
      cases next with
      | none => simp [Shape.targets] at goes
      | some next =>
        obtain ⟨target, isOk, found⟩ :=
          exists_successorPosition id (listed next (by simp [Shape.targets]))
        simp only [isOk]
        by_cases adjacent : target = position + 1
        · subst adjacent
          exact ⟨[], by simp [bind, Except.bind, pure, Except.pure],
            .fall exits shape found⟩
        · exact ⟨[⟨.b, target⟩], by simp [bind, Except.bind, pure, Except.pure, adjacent],
            .jump exits shape found⟩
    | conditional onTrue onFalse =>
      rw [shape] at goes listed whole
      cases onTrue with
      | none => cases onFalse <;> simp [Shape.targets, Shape.isHalf] at goes whole
      | some onTrue =>
        cases onFalse with
        | none => simp [Shape.isHalf] at whole
        | some onFalse =>
          obtain ⟨target, isOk, found⟩ := exists_successorPosition id
            (listed onTrue (by simp [Shape.targets]))
          obtain ⟨other, otherOk, otherFound⟩ := exists_successorPosition id
            (listed onFalse (by simp [Shape.targets]))
          simp only [isOk, otherOk, bind, Except.bind]
          by_cases falseNext : other = position + 1
          · subst falseNext
            exact ⟨[⟨.bnz, target⟩], by simp [pure, Except.pure],
              .ifTrue exits shape found otherFound⟩
          · by_cases trueNext : target = position + 1
            · subst trueNext
              exact ⟨[⟨.bz, other⟩], by simp [pure, Except.pure, falseNext],
                .ifFalse exits shape found otherFound⟩
            · exact ⟨[⟨.bnz, target⟩, ⟨.b, other⟩],
                by simp [pure, Except.pure, falseNext, trueNext],
                .both exits shape found otherFound⟩

/-- Flattening succeeds on every graph whose control never gets lost. -/
theorem exists_place (flowing : graph.Flowing entry) (lists : graph.Lists entry order) :
    ∃ placed, graph.place order = .ok placed := by
  apply Fallible.exists_mapM_eq_ok
  rintro ⟨id, position⟩ member
  have listed := List.mem_of_getElem? (List.mem_zipIdx_iff_getElem?.mp member)
  obtain ⟨branches, isOk, _⟩ := exists_leads flowing lists position listed
  exact ⟨(id, branches), by simp only [isOk]; rfl⟩

/-- What is known of placed blocks. -/
structure Laid (graph : Graph) (entry : BlockId) (order : List BlockId)
    (placed : List Placed) : Prop extends graph.Flowing entry, graph.Lists entry order where
  isPlaced : graph.place order = .ok placed

namespace Laid

variable {placed : List Placed} {position : Nat} {id : BlockId} {branches : List Branch}

theorem reached (laid : graph.Laid entry order placed)
    (found : placed[position]? = some (id, branches)) : id ∈ graph.reachable entry :=
  (laid.complete id).mp (List.mem_of_getElem? (place_getElem? laid.isPlaced found).1)

theorem leads (laid : graph.Laid entry order placed)
    (found : placed[position]? = some (id, branches)) :
    graph.Leads order position id branches := by
  obtain ⟨atPosition, isOk⟩ := place_getElem? laid.isPlaced found
  obtain ⟨others, otherOk, leads⟩ := exists_leads laid.toFlowing laid.toLists position
    (List.mem_of_getElem? atPosition)
  rw [isOk] at otherOk
  cases otherOk
  exact leads

/-- A listed block is placed. -/
theorem placed_of_order (laid : graph.Laid entry order placed)
    (found : order[position]? = some id) :
    ∃ branches, placed[position]? = some (id, branches) := by
  obtain ⟨branches, isPlaced, _⟩ := getElem?_place laid.isPlaced found
  exact ⟨branches, isPlaced⟩

/-- A block stands in one place. -/
theorem position_inj (laid : graph.Laid entry order placed) {other : Nat}
    {others : List Branch} (found : placed[position]? = some (id, branches))
    (otherFound : placed[other]? = some (id, others)) : position = other := by
  have here := (place_getElem? laid.isPlaced found).1
  have there := (place_getElem? laid.isPlaced otherFound).1
  exact (List.getElem?_inj (List.getElem?_eq_some_iff.mp here).1 laid.nodup).mp
    (here.trans there.symm)

theorem mem_targets (found : placed[position]? = some (id, branches)) {branch : Branch}
    (member : branch ∈ branches) : branch.target ∈ targets placed :=
  List.mem_flatMap.mpr ⟨(id, branches), List.mem_of_getElem? found,
    List.mem_map_of_mem member⟩

theorem entry_placed (laid : graph.Laid entry order placed) :
    ∃ branches, placed[0]? = some (entry, branches) := by
  apply laid.placed_of_order
  rw [← List.head?_eq_getElem?]
  exact laid.first

end Laid

end Layout

section Order

variable {graph : Graph} {back : List Edge} {ready : List BlockId} {waiting : Waiting}

/-- Only targets of the placed block join the queue. -/
theorem mem_ready_of_releaseTargets {id : BlockId} {targets : List (BlockId × Nat)}
    {ready' : List BlockId} {waiting' : Waiting}
    (released : releaseTargets back id targets (ready, waiting) = .ok (ready', waiting')) :
    ∀ node ∈ ready', node ∈ ready ∨ node ∈ targets.map Prod.fst := by
  induction targets generalizing ready waiting with
  | nil =>
    cases released
    exact fun node member => .inl member
  | cons head rest ih =>
    obtain ⟨target, position⟩ := head
    simp only [releaseTargets] at released
    intro node member
    split at released
    next => rcases ih released node member with queued | later <;> simp_all
    next =>
      split at released
      next => cases released
      next less _ =>
        rcases ih released node member with queued | later
        · split at queued
          next => exact .inl queued
          next =>
            split at queued <;> simp only [List.mem_cons, List.mem_append] at queued <;> simp_all
            all_goals tauto
        · exact .inr (by simp_all)

/-- What is known of the blocks placed so far. -/
structure Placing (graph : Graph) (reached placed ready : List BlockId) : Prop where
  nodup : placed.Nodup
  inside : ∀ id ∈ placed, id ∈ reached
  queued : ∀ id ∈ ready, id ∈ reached

/-- Placing one block. -/
theorem Placing.step {reached : List BlockId}
    (closed : ∀ id ∈ reached, ∀ target ∈ graph.successors id, target ∈ reached) {count : Nat}
    {id : BlockId} {placed : List BlockId} {result : List BlockId × Waiting}
    (placing : graph.Placing reached placed (id :: ready))
    (isOk : graph.placeWithin back (count + 1) (id :: ready) waiting placed = .ok result) :
    ∃ ready' waiting', graph.Placing reached (placed ++ [id]) ready' ∧
      graph.placeWithin back count ready' waiting' (placed ++ [id]) = .ok result := by
  simp only [placeWithin] at isOk
  split at isOk
  next => cases isOk
  next fresh =>
    obtain ⟨⟨ready', waiting'⟩, released, isOk⟩ := Fallible.bind_eq_ok.mp isOk
    have here : id ∈ reached := placing.queued id (by simp)
    refine ⟨ready', waiting', ?_, isOk⟩
    constructor
    · exact List.nodup_append.mpr ⟨placing.nodup, by simp, by grind⟩
    · intro other member
      rcases List.mem_append.mp member with old | new
      · exact placing.inside other old
      · rwa [List.mem_singleton.mp new]
    · intro other member
      rcases mem_ready_of_releaseTargets released other member with old | new
      · exact placing.queued other (by simp [old])
      · exact closed id here other (by simpa using new)

theorem Placing.finish {reached : List BlockId}
    (closed : ∀ id ∈ reached, ∀ target ∈ graph.successors id, target ∈ reached) {count : Nat}
    {placed placed' : List BlockId} {waiting' : Waiting}
    (placing : graph.Placing reached placed ready)
    (isOk : graph.placeWithin back count ready waiting placed = .ok (placed', waiting')) :
    placed'.Nodup ∧ (∀ id ∈ placed', id ∈ reached) ∧ placed <+: placed' := by
  induction count generalizing ready waiting placed with
  | zero =>
    cases isOk
    exact ⟨placing.nodup, placing.inside, List.prefix_rfl⟩
  | succ count ih =>
    cases ready with
    | nil =>
      cases isOk
      exact ⟨placing.nodup, placing.inside, List.prefix_rfl⟩
    | cons id ready =>
      obtain ⟨ready', waiting'', grown, rest⟩ := placing.step closed isOk
      obtain ⟨nodup, inside, isPrefix⟩ := ih grown rest
      exact ⟨nodup, inside, (List.prefix_append placed [id]).trans isPrefix⟩

/-- An order that is found lists every reachable block once, the entry first. -/
theorem Lists.of_order {entry : BlockId} {order : List BlockId} (valid : graph.Valid entry)
    (isOk : graph.order entry = .ok order) : graph.Lists entry order := by
  simp only [Graph.order, Fallible.bind_eq_ok] at isOk
  obtain ⟨waiting, _, isOk⟩ := isOk
  split at isOk
  next => simp [Fallible.bind_eq_ok] at isOk
  next =>
    obtain ⟨⟨placed, left⟩, isPlaced, isOk⟩ := Fallible.bind_eq_ok.mp isOk
    have start : graph.Placing (graph.reachable entry) [] [entry] :=
      ⟨List.nodup_nil, nofun, by simpa using mem_reachable_entry⟩
    obtain ⟨ready, waiting', grown, rest⟩ := start.step valid.closed isPlaced
    obtain ⟨nodup, inside, isPrefix⟩ := grown.finish valid.closed rest
    split at isOk
    next => simp at isOk
    next complete =>
      cases isOk
      refine ⟨nodup, fun id => ⟨inside id, fun reached => ?_⟩, ?_⟩
      · simpa using List.find?_eq_none.mp complete id reached
      · obtain ⟨more, rfl⟩ := isPrefix
        rfl

end Order

end ContractBackend.Graph
