import ContractBackend.Proofs.FlatCode.Cutting
import ContractBackend.Proofs.Graph.Tallies

/-!
# Flat code gives its graph back

Flat code does not say where a block ends. Labels, branches and instructions that leave the
routine do, provided that every block has code and that no block falls through into one without a
label. Merging sees to the latter: a block that only one edge leads to has been taken over. So
the stretches of the flat code are the blocks of the merged graph, in the order in which they were
listed, with the same instructions and the same successors.
-/

namespace ContractBackend

namespace FlatCode

variable {rest : FlatCode} {labels : List Label} {instrs more : List Instr} {instr : Instr}
  {label second : Label} {op : Opcode} {cuts : List OpenStretch}

/-! ## Cutting one piece off -/

/-- An instruction that does not branch belongs to the stretch that is being read, and ends it if
it leaves the routine. -/
theorem cut_instr (straight : instr.op.isBranch = false) :
    cut (.instr instr :: rest) labels instrs =
      if instr.op.isExit then do
        pure (⟨labels, instrs ++ [instr], .leave⟩ :: (← cut rest [] []))
      else cut rest labels (instrs ++ [instr]) := by
  obtain ⟨op, operands⟩ := instr
  cases op <;> first | rfl | cases straight

/-- Instructions that neither branch nor leave the routine are gathered. -/
theorem cut_straight (straight : ∀ instr ∈ more, instr.op.isBranch = false)
    (goes : ∀ instr ∈ more, instr.op.isExit = false) :
    cut (more.map .instr ++ rest) labels instrs = cut rest labels (instrs ++ more) := by
  induction more generalizing instrs with
  | nil => simp
  | cons head tail ih =>
    rw [List.forall_mem_cons] at straight goes
    rw [List.map_cons, List.cons_append, cut_instr straight.1, goes.1, if_neg nofun,
      ih straight.2 goes.2, List.append_assoc, List.singleton_append]

theorem cut_jump (isCut : cut rest [] [] = .ok cuts) :
    cut (.instr (.branch .b label) :: rest) labels instrs =
      .ok (⟨labels, instrs, .jump label⟩ :: cuts) := by
  simp [cut, Instr.branch, Instr.label?, Operand.label?, isCut, pure, Except.pure]

theorem cut_both (conditional : op = .bnz ∨ op = .bz) (isCut : cut rest [] [] = .ok cuts) :
    cut (.instr (.branch op label) :: .instr (.branch .b second) :: rest) labels instrs =
      .ok (⟨labels, instrs, .ofConditional op label (some second)⟩ :: cuts) := by
  rcases conditional with rfl | rfl <;>
    simp [cut, Instr.branch, Instr.label?, Operand.label?, jumpLabel?, isCut, pure, Except.pure]

/-- A conditional branch that no jump follows ends a stretch alone. -/
theorem cut_conditional (conditional : op = .bnz ∨ op = .bz)
    (alone : ∀ next behind, rest = .instr next :: behind → next.op.isBranch = false)
    (isCut : cut rest [] [] = .ok cuts) :
    cut (.instr (.branch op label) :: rest) labels instrs =
      .ok (⟨labels, instrs, .ofConditional op label none⟩ :: cuts) := by
  have noJump : ∀ next behind, rest = .instr next :: behind → jumpLabel? next = none := by
    intro next behind isRest
    have straight := alone next behind isRest
    refine if_neg fun isJump => ?_
    rw [isJump] at straight
    cases straight
  have unfolded : cut (.instr (.branch op label) :: rest) labels instrs =
      (do pure (⟨labels, instrs, .ofConditional op label none⟩ :: (← cut rest [] []))) := by
    rcases conditional with rfl | rfl <;> rcases rest with _ | ⟨_ | next, behind⟩
    case inl.cons.instr | inr.cons.instr =>
      rw [cut.eq_def]
      simp [Instr.branch, Instr.label?, Operand.label?, noJump next behind rfl]
    all_goals rfl
  rw [unfolded, isCut]
  rfl

/-- A label ends a stretch that has instructions, and starts the next one. -/
theorem cut_label (some' : instrs ≠ []) (isCut : cut (.label label :: rest) [] [] = .ok cuts) :
    cut (.label label :: rest) labels instrs = .ok (⟨labels, instrs, .fall⟩ :: cuts) := by
  obtain ⟨first, others, rfl⟩ := List.exists_cons_of_ne_nil some'
  rw [cut, List.nil_append] at isCut
  rw [cut, isCut]
  · rfl
  · simp

end FlatCode

namespace Graph

open FlatCode

variable {graph : Graph} {entry id : BlockId} {order : List BlockId} {placed : List Placed}
  {position : Nat} {branches : List Branch} {target : BlockId}

/-! ## The stretches of a layout -/

/-- The end of the stretch that a block with the given branches becomes. -/
def endOf (block : Block) : List Branch → StretchEnd
  | [] => if block.exits then .leave else .fall
  | [branch] =>
      if branch.op = .b then .jump ⟨branch.target, ""⟩
      else .ofConditional branch.op ⟨branch.target, ""⟩ none
  | first :: second :: _ =>
      .ofConditional first.op ⟨first.target, ""⟩ (some ⟨second.target, ""⟩)

/-- The stretch that the block at a position becomes. -/
def stretchOf (graph : Graph) (referenced : List Nat) (position : Nat) (placed : Placed) :
    OpenStretch :=
  ⟨if position ∈ referenced then [⟨position, ""⟩] else [], (graph.block placed.1).instrs,
    endOf (graph.block placed.1) placed.2⟩

/-- The stretches of a layout. -/
def stretchesOf (graph : Graph) (placed : List Placed) : List OpenStretch :=
  placed.zipIdx.map fun entry => graph.stretchOf (targets placed) entry.2 entry.1

/-- A layout in which the end of every block can be seen: every block has code, nothing stands
behind an instruction that leaves the routine, and a block that control falls through to has a
label. -/
structure Delimited (graph : Graph) (entry : BlockId) (order : List BlockId)
    (placed : List Placed) : Prop extends graph.Laid entry order placed where
  nonempty : ∀ id ∈ graph.reachable entry, (graph.block id).instrs ≠ []
  early : ∀ id ∈ graph.reachable entry, ∀ instr ∈ (graph.block id).instrs.dropLast,
    instr.op.isExit = false
  labelled : ∀ position id, placed[position]? = some (id, []) →
    (graph.block id).exits = false → position + 1 ∈ targets placed

/-- The code of the blocks from a position on. -/
def codeFrom (graph : Graph) (placed : List Placed) (position : Nat) : FlatCode :=
  ((placed.drop position).zipIdx position).flatMap fun entry =>
    graph.emit (targets placed) entry.2 entry.1

theorem drop_zipIdx (found : placed[position]? = some (id, branches)) :
    (placed.drop position).zipIdx position =
      ((id, branches), position) :: (placed.drop (position + 1)).zipIdx (position + 1) := by
  obtain ⟨bound, atPosition⟩ := List.getElem?_eq_some_iff.mp found
  rw [List.drop_eq_getElem_cons bound, atPosition, List.zipIdx_cons]

theorem codeFrom_of_getElem? (found : placed[position]? = some (id, branches)) :
    graph.codeFrom placed position =
      graph.emit (targets placed) position (id, branches) ++ graph.codeFrom placed (position + 1) := by
  rw [codeFrom, drop_zipIdx found, List.flatMap_cons]
  rfl

theorem codeFrom_of_length_le (beyond : placed.length ≤ position) :
    graph.codeFrom placed position = [] := by
  simp [codeFrom, List.drop_of_length_le beyond]

namespace Delimited

variable (delimited : graph.Delimited entry order placed)
include delimited

/-- No branch stands where the code of a block starts. -/
theorem codeFrom_ne_branch {next : Instr} {behind : FlatCode}
    (starts : graph.codeFrom placed position = .instr next :: behind) :
    next.op.isBranch = false := by
  by_cases inside : position < placed.length
  · have found : placed[position]? = some (placed[position].1, placed[position].2) :=
      List.getElem?_eq_getElem inside
    have reached := delimited.reached found
    rw [codeFrom_of_getElem? found, emit] at starts
    obtain ⟨first, others, isFirst⟩ := List.exists_cons_of_ne_nil (delimited.nonempty _ reached)
    split at starts
    next => cases starts
    next =>
      simp only [isFirst, List.nil_append, List.cons_append, List.map_cons, List.cons.injEq,
        Item.instr.injEq] at starts
      exact starts.1 ▸ delimited.branchless _ reached first (isFirst ▸ List.mem_cons_self ..)
  · rw [codeFrom_of_length_le (Nat.le_of_not_lt inside)] at starts
    cases starts

/-- The last instruction of a block decides whether the block leaves the routine. -/
theorem exists_last (reached : id ∈ graph.reachable entry) :
    ∃ last, (graph.block id).instrs.dropLast ++ [last] = (graph.block id).instrs ∧
      (graph.block id).exits = last.op.isExit := by
  have nonempty := delimited.nonempty id reached
  refine ⟨_, List.dropLast_concat_getLast nonempty, ?_⟩
  rw [Block.exits, List.getLast?_eq_some_getLast nonempty, Option.any_some]

/-- The code of a block that leaves the routine is a stretch. -/
theorem cut_exiting (found : placed[position]? = some (id, branches))
    (exits : (graph.block id).exits = true) {rest : FlatCode} {cuts : List OpenStretch}
    (isCut : cut rest [] [] = .ok cuts) (labels : List Label) :
    cut ((graph.block id).instrs.map .instr ++ rest) labels [] =
      .ok (⟨labels, (graph.block id).instrs, .leave⟩ :: cuts) := by
  have reached := delimited.reached found
  obtain ⟨last, split, isExit⟩ := delimited.exists_last reached
  have straight := delimited.branchless id reached
  rw [← split, List.forall_mem_append, List.forall_mem_singleton] at straight
  rw [← split, List.map_append, List.append_assoc,
    cut_straight straight.1 (delimited.early id reached), List.nil_append]
  rw [List.map_singleton, List.singleton_append, cut_instr straight.2, if_pos (isExit ▸ exits),
    isCut]
  rfl

/-- The code of a block that goes on is gathered. -/
theorem cut_going (found : placed[position]? = some (id, branches))
    (going : (graph.block id).exits = false) (rest : FlatCode) (labels : List Label) :
    cut ((graph.block id).instrs.map .instr ++ rest) labels [] =
      cut rest labels (graph.block id).instrs := by
  have reached := delimited.reached found
  obtain ⟨last, split, isExit⟩ := delimited.exists_last reached
  refine cut_straight (delimited.branchless id reached) ?_
  rw [← split, List.forall_mem_append, List.forall_mem_singleton]
  exact ⟨delimited.early id reached, isExit ▸ going⟩

/-- The code of a block and its branches are one stretch. -/
theorem cut_body (found : placed[position]? = some (id, branches)) {cuts : List OpenStretch}
    (isCut : cut (graph.codeFrom placed (position + 1)) [] [] = .ok cuts)
    (labels : List Label) :
    cut (((graph.block id).instrs ++ branches.map Branch.instr).map .instr ++
        graph.codeFrom placed (position + 1)) labels [] =
      .ok (⟨labels, (graph.block id).instrs, endOf (graph.block id) branches⟩ :: cuts) := by
  have nonempty := delimited.nonempty id (delimited.reached found)
  rw [List.map_append, List.append_assoc]
  cases delimited.leads found with
  | exit exits =>
    rw [endOf, if_pos exits]
    exact delimited.cut_exiting found exits isCut labels
  | fall going shape follows =>
    -- The block that follows starts with its label.
    obtain ⟨others, isPlaced⟩ := delimited.placed_of_order follows
    rw [delimited.cut_going found going, endOf, going, if_neg nofun]
    rw [codeFrom_of_getElem? isPlaced, emit,
      if_pos (delimited.labelled position id found going)] at isCut ⊢
    exact cut_label nonempty isCut
  | jump going =>
    rw [delimited.cut_going found going]
    exact cut_jump isCut
  | ifTrue going | ifFalse going =>
    rw [delimited.cut_going found going]
    exact cut_conditional (by simp) (fun _ _ => delimited.codeFrom_ne_branch) isCut
  | both going =>
    rw [delimited.cut_going found going]
    exact cut_both (.inl rfl) isCut

/-- Cutting the code from a position on gives the stretches of the blocks from there on. -/
theorem cut_codeFrom {count : Nat} (few : placed.length ≤ position + count) :
    cut (graph.codeFrom placed position) [] [] =
      .ok (((placed.drop position).zipIdx position).map fun entry =>
        graph.stretchOf (targets placed) entry.2 entry.1) := by
  induction count generalizing position with
  | zero =>
    rw [Nat.add_zero] at few
    rw [codeFrom_of_length_le few, List.drop_of_length_le few]
    rfl
  | succ count ih =>
    by_cases inside : position < placed.length
    · have found : placed[position]? = some (placed[position].1, placed[position].2) :=
        List.getElem?_eq_getElem inside
      have isCut : cut (graph.codeFrom placed (position + 1)) [] [] = .ok _ :=
        ih (by omega)
      rw [drop_zipIdx found, List.map_cons, codeFrom_of_getElem? found, emit, stretchOf]
      by_cases referenced : position ∈ targets placed
      · rw [if_pos referenced, if_pos referenced]
        exact delimited.cut_body found isCut [⟨position, ""⟩]
      · rw [if_neg referenced, if_neg referenced]
        exact delimited.cut_body found isCut []
    · have beyond := Nat.le_of_not_lt inside
      rw [codeFrom_of_length_le beyond, List.drop_of_length_le beyond]
      rfl

end Delimited

/-! ## The successors of the stretches -/

theorem getElem?_stretchesOf (found : placed[position]? = some (id, branches)) :
    (graph.stretchesOf placed)[position]? =
      some (graph.stretchOf (targets placed) position (id, branches)) := by
  simp [stretchesOf, zipIdx_getElem? found]

/-- The stretch at a position has no label but that of the position. -/
theorem labels_stretchesOf {stretch : OpenStretch} {label : Label}
    (found : (graph.stretchesOf placed)[position]? = some stretch)
    (stands : label ∈ stretch.labels) : label = ⟨position, ""⟩ := by
  simp only [stretchesOf, List.getElem?_map, List.getElem?_zipIdx, Option.map_map,
    Option.map_eq_some_iff, Function.comp_apply, Nat.zero_add] at found
  obtain ⟨entry, _, rfl⟩ := found
  simp only [stretchOf] at stands
  split at stands
  next => simpa using stands
  next => cases stands

theorem labelled_stretchesOf (found : placed[position]? = some (id, branches))
    (referenced : position ∈ targets placed) :
    FlatCode.labelled (graph.stretchesOf placed) ⟨position, ""⟩ = .ok position := by
  refine labelled_of_unique (getElem?_stretchesOf found) ?_ fun other stretch there stands => ?_
  · simp [stretchOf, referenced]
  · cases labels_stretchesOf there stands
    rfl

namespace Laid

variable (laid : graph.Laid entry order placed)
include laid

theorem idxOf_eq (found : order[position]? = some target) :
    order.idxOf target = position := by
  obtain ⟨bound, rfl⟩ := List.getElem?_eq_some_iff.mp found
  exact laid.nodup.idxOf_getElem position bound

/-- A branch leads to the stretch of the block it aims at. -/
theorem labelled_branch (found : placed[position]? = some (id, branches)) {branch : Branch}
    (member : branch ∈ branches) (atTarget : order[branch.target]? = some target) :
    FlatCode.labelled (graph.stretchesOf placed) ⟨branch.target, ""⟩ = .ok (order.idxOf target) := by
  obtain ⟨others, isPlaced⟩ := laid.placed_of_order atTarget
  rw [laid.idxOf_eq atTarget]
  exact labelled_stretchesOf isPlaced (mem_targets found member)

/-- Control that falls through comes to the stretch of the block that follows. -/
theorem behind_stretch {next : BlockId} (follows : order[position + 1]? = some next) :
    position + 1 < (graph.stretchesOf placed).length ∧ order.idxOf next = position + 1 := by
  have bound := (List.getElem?_eq_some_iff.mp follows).1
  refine ⟨?_, laid.idxOf_eq follows⟩
  simpa [stretchesOf, ← (place_eq_ok.mp laid.isPlaced).length_eq] using bound

/-- The successors of a stretch are the positions of the successors of its block. -/
theorem successors_stretchesOf (found : placed[position]? = some (id, branches)) :
    FlatCode.successors (graph.stretchesOf placed) position (endOf (graph.block id) branches) =
      .ok ((graph.successors id).map order.idxOf) := by
  cases laid.leads found with
  | exit exits => simp [endOf, exits, FlatCode.successors, Graph.successors, Block.successors]
  | fall going shape follows =>
    obtain ⟨inside, here⟩ := laid.behind_stretch follows
    simp [endOf, going, FlatCode.successors, inside, successors_of_shape going shape, Shape.targets,
      here]
  | jump going shape atTarget =>
    have leads := laid.labelled_branch found (List.mem_singleton_self _) atTarget
    simp [endOf, FlatCode.successors, leads, successors_of_shape going shape, Shape.targets]
  | ifTrue going shape atTarget follows | ifFalse going shape follows atTarget =>
    obtain ⟨inside, here⟩ := laid.behind_stretch follows
    have leads := laid.labelled_branch found (List.mem_singleton_self _) atTarget
    simp [endOf, StretchEnd.ofConditional, FlatCode.successors, behind, inside, leads,
      successors_of_shape going shape, Shape.targets, here]
  | both going shape atTrue atFalse =>
    have onTrue := laid.labelled_branch found (List.mem_cons_self ..) atTrue
    have onFalse := laid.labelled_branch found (List.mem_cons_of_mem _ (List.mem_singleton_self _))
      atFalse
    simp [endOf, StretchEnd.ofConditional, FlatCode.successors, onTrue, onFalse,
      successors_of_shape going shape, Shape.targets]

theorem map_placed : placed.zipIdx.map (fun entry => entry.1.1) = order := by
  calc placed.zipIdx.map (fun entry => entry.1.1)
      = (placed.zipIdx.map Prod.fst).map Prod.fst := by rw [List.map_map]; rfl
    _ = order := by rw [List.zipIdx_map_fst, map_fst_of_place laid.isPlaced]

end Laid

theorem zipIdx_stretchesOf : (graph.stretchesOf placed).zipIdx =
    placed.zipIdx.map fun entry => (graph.stretchOf (targets placed) entry.2 entry.1, entry.2) := by
  apply List.ext_getElem?
  intro position
  simp only [stretchesOf, List.getElem?_zipIdx, List.getElem?_map, Option.map_map]
  rfl

/-- The stretches of a delimited layout are its blocks. -/
theorem Delimited.stretches_listing (delimited : graph.Delimited entry order placed) :
    (graph.listing placed).stretches = .ok (placed.zipIdx.map fun entry =>
      ⟨if entry.2 ∈ targets placed then [⟨entry.2, ""⟩] else [], (graph.block entry.1.1).instrs,
        (graph.successors entry.1.1).map order.idxOf⟩) := by
  have isCut : cut (graph.listing placed) [] [] = .ok (graph.stretchesOf placed) :=
    delimited.cut_codeFrom (Nat.le_add_left _ 0)
  rw [stretches, isCut, Fallible.ok_bind, zipIdx_stretchesOf, List.mapM_map]
  refine Fallible.mapM_eq_ok_map fun entry member => ?_
  obtain ⟨⟨id, branches⟩, position⟩ := entry
  have found := List.mem_zipIdx_iff_getElem?.mp member
  simp only [Function.comp_apply, stretchOf, delimited.successors_stretchesOf found, Fallible.ok_bind]
  rfl

/-! ## Merged graphs -/

/-- An edge of a listed block is one that control falls through or one of its branches. -/
theorem Leads.edge_cases (leads : graph.Leads order position id branches)
    (edge : target ∈ graph.successors id) :
    order[position + 1]? = some target ∨
      ∃ branch ∈ branches, order[branch.target]? = some target := by
  have among : ∀ {shape : Shape}, (graph.block id).exits = false →
      (graph.block id).shape = shape → target ∈ shape.targets :=
    fun going isShape => successors_of_shape going isShape ▸ edge
  cases leads with
  | exit exits => simp [Graph.successors, Block.successors, exits] at edge
  | fall going shape follows =>
    cases List.mem_singleton.mp (among going shape)
    exact .inl follows
  | jump going shape atTarget =>
    cases List.mem_singleton.mp (among going shape)
    exact .inr ⟨_, List.mem_singleton_self _, atTarget⟩
  | ifTrue going shape atTarget follows =>
    rcases List.mem_pair.mp (among going shape) with rfl | rfl
    · exact .inr ⟨_, List.mem_singleton_self _, atTarget⟩
    · exact .inl follows
  | ifFalse going shape follows atTarget =>
    rcases List.mem_pair.mp (among going shape) with rfl | rfl
    · exact .inl follows
    · exact .inr ⟨_, List.mem_singleton_self _, atTarget⟩
  | both going shape atTrue atFalse =>
    rcases List.mem_pair.mp (among going shape) with rfl | rfl
    · exact .inr ⟨_, List.mem_cons_self .., atTrue⟩
    · exact .inr ⟨_, List.mem_cons_of_mem _ (List.mem_singleton_self _), atFalse⟩

/-- Where nothing is left to merge, a block that control falls through to has a label: another
edge leads to it, and that one needs a branch. -/
theorem Laid.labelled_of_merged (laid : graph.Laid entry order placed)
    (tallied : graph.Tallied entry) (done : graph.mergePair? entry = none)
    (found : placed[position]? = some (id, [])) (going : (graph.block id).exits = false) :
    position + 1 ∈ targets placed := by
  cases laid.leads found with
  | exit exits => simp [exits] at going
  | @fall next _ shape follows =>
    have atPosition := (place_getElem? laid.isPlaced found).1
    have apart : next ≠ id := by
      rintro rfl
      have same := (laid.idxOf_eq follows).symm.trans (laid.idxOf_eq atPosition)
      omega
    have notEntry : next ≠ entry := by
      rintro rfl
      have first : order[0]? = some next := by
        rw [← List.head?_eq_getElem?]
        exact laid.first
      have same := (laid.idxOf_eq follows).symm.trans (laid.idxOf_eq first)
      omega
    obtain ⟨other, reached, different, edge⟩ :=
      tallied.exists_other_edge done (laid.reached found) shape going apart notEntry
    obtain ⟨place, atPlace⟩ := List.mem_iff_getElem?.mp ((laid.complete other).mpr reached)
    obtain ⟨others, isPlaced⟩ := laid.placed_of_order atPlace
    rcases (laid.leads isPlaced).edge_cases edge with falls | ⟨branch, member, aims⟩
    · have same := (laid.idxOf_eq falls).symm.trans (laid.idxOf_eq follows)
      cases Nat.succ.inj same
      cases atPlace.symm.trans atPosition
      exact absurd rfl different
    · have same := (laid.idxOf_eq aims).symm.trans (laid.idxOf_eq follows)
      exact same ▸ mem_targets isPlaced member

/-- Flat code gives its graph back: once the predecessors of a graph have been recorded and
checked and its blocks have been merged, every listing of the reachable blocks that starts with the
entry can be laid out and cut again, and the stretches are the blocks of the listing, in order: the
instructions are the same, and the successors are the positions of the successors. -/
theorem stretches_reconstruct_blocks {raw graph : Graph} {entry : BlockId} {order : List BlockId}
    (valid : (raw.recordIncoming entry).validate entry = .ok ())
    (merged : graph = ((raw.recordIncoming entry).normalize entry).1)
    (nonempty : ∀ id ∈ graph.reachable entry, (graph.block id).instrs ≠ [])
    (branchless : ∀ id ∈ graph.reachable entry, ∀ instr ∈ (graph.block id).instrs,
      instr.op.isBranch = false)
    (early : ∀ id ∈ graph.reachable entry, ∀ instr ∈ (graph.block id).instrs.dropLast,
      instr.op.isExit = false)
    (ending : ∀ id ∈ graph.reachable entry, graph.successors id = [] →
      (graph.block id).exits = true)
    (nodup : order.Nodup) (complete : ∀ id, id ∈ order ↔ id ∈ graph.reachable entry)
    (first : order.head? = some entry) :
    ∃ code stretches, graph.flatten order = .ok code ∧ code.stretches = .ok stretches ∧
      stretches.map (fun stretch => (stretch.instrs, stretch.successors)) =
        order.map fun id => ((graph.block id).instrs, (graph.successors id).map order.idxOf) := by
  have stillValid : graph.validate entry = .ok () := merged ▸ validate_normalize valid
  have flowing : graph.Flowing entry := ⟨.of_validate stillValid, ending, branchless⟩
  have lists : graph.Lists entry order := ⟨nodup, complete, first⟩
  obtain ⟨placed, isPlaced⟩ := exists_place flowing lists
  have laid : graph.Laid entry order placed := ⟨flowing, lists, isPlaced⟩
  have delimited : graph.Delimited entry order placed := ⟨laid, nonempty, early, fun _ _ =>
    laid.labelled_of_merged (validate_iff_tallied.mp stillValid)
      (merged ▸ mergePair?_normalize valid)⟩
  refine ⟨graph.listing placed, _, flatten_eq_ok.mpr ⟨placed, isPlaced, rfl⟩,
    delimited.stretches_listing, ?_⟩
  calc (placed.zipIdx.map _).map (fun stretch : Stretch => (stretch.instrs, stretch.successors))
      = (placed.zipIdx.map (fun entry => entry.1.1)).map (fun id =>
          ((graph.block id).instrs, (graph.successors id).map order.idxOf)) := by
        rw [List.map_map, List.map_map]
        rfl
    _ = _ := by rw [laid.map_placed]

theorem stretches_reconstruct_blocks_countdown :
    ∃ graph code stretches, graph = ((countdown.recordIncoming 0).normalize 0).1 ∧
      graph.flatten [0, 2, 1, 3] = .ok code ∧ code.stretches = .ok stretches ∧
        stretches.map (fun stretch => (stretch.instrs, stretch.successors)) =
          [([.int 3], [2]), ([.int 1, ⟨.sub, []⟩], [2]), ([⟨.dup, []⟩], [1, 3]),
            ([⟨.ret, []⟩], [])] := by
  have listed : List.Perm [0, 2, 1, 3]
      (((countdown.recordIncoming 0).normalize 0).1.reachable 0) := by decide
  obtain ⟨code, stretches, isFlat, isCut, blocks⟩ :=
    @stretches_reconstruct_blocks countdown _ 0 [0, 2, 1, 3] (by decide) rfl (by decide) (by decide)
      (by decide) (by decide) (by decide) (fun _ => listed.mem_iff) rfl
  exact ⟨_, code, stretches, rfl, isFlat, isCut, blocks.trans (by decide)⟩

end Graph

end ContractBackend
