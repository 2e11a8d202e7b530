import ContractBackend.FlatCode.Layout
import ContractBackend.Proofs.Control
import ContractBackend.Proofs.Fallible

/-!
# The listing of placed blocks

Flat code is the concatenation of what the blocks emit. This module says where the
code of each block starts, what stands at each position, and that every label
stands in one place only.
-/

namespace ContractBackend

/-! ## Positions in a concatenation -/

namespace Concat

variable {α β : Type}

/-- Where the part of the element at a position starts. -/
def start (part : α → List β) (elements : List α) (position : Nat) : Nat :=
  ((elements.take position).flatMap part).length

variable (part : α → List β) {elements : List α} {position : Nat} {element : α}

@[simp] theorem start_zero : start part elements 0 = 0 := by
  simp [start]

theorem start_succ (found : elements[position]? = some element) :
    start part elements (position + 1) =
      start part elements position + (part element).length := by
  simp [start, List.take_add_one, found]

theorem start_length : start part elements elements.length = (elements.flatMap part).length := by
  simp [start]

theorem start_mono {lower upper : Nat} (ordered : lower ≤ upper) :
    start part elements lower ≤ start part elements upper := by
  obtain ⟨extra, rfl⟩ := Nat.exists_eq_add_of_le ordered
  simp [start, List.take_add]

theorem getElem?_start_add (found : elements[position]? = some element) {offset : Nat}
    (inside : offset < (part element).length) :
    (elements.flatMap part)[start part elements position + offset]? =
      (part element)[offset]? := by
  obtain ⟨bound, atPosition⟩ := List.getElem?_eq_some_iff.mp found
  have split : elements = elements.take position ++ element :: elements.drop (position + 1) := by
    rw [← atPosition, List.getElem_cons_drop, List.take_append_drop]
  have whole : elements.flatMap part = (elements.take position).flatMap part ++
      (part element ++ (elements.drop (position + 1)).flatMap part) := by
    conv_lhs => rw [split]
    simp
  rw [whole, start, List.getElem?_append_right (by omega), Nat.add_sub_cancel_left,
    List.getElem?_append_left inside]

theorem exists_start_add {index : Nat} (inside : index < (elements.flatMap part).length) :
    ∃ position element offset, elements[position]? = some element ∧
      offset < (part element).length ∧
        index = start part elements position + offset := by
  induction elements generalizing index with
  | nil => simp at inside
  | cons head tail ih =>
    by_cases early : index < (part head).length
    · exact ⟨0, head, index, by simp, early, by simp⟩
    · have later : index - (part head).length < (tail.flatMap part).length := by
        simp only [List.flatMap_cons, List.length_append] at inside
        omega
      obtain ⟨position, element, offset, found, bound, equal⟩ := ih later
      refine ⟨position + 1, element, offset, by simpa using found, bound, ?_⟩
      simp only [start, List.take_succ_cons, List.flatMap_cons, List.length_append] at equal ⊢
      omega

end Concat

/-! ## The last element of a kind -/

section Last

variable {α : Type} {elements : List α} (kind : α → Prop) [DecidablePred kind]

/-- What a fold that keeps the last position of a kind comes to. -/
theorem foldl_last_cases {offset position : Nat} {found : Option Nat}
    (last : (elements.zipIdx offset).foldl
      (fun found entry => if kind entry.1 then some entry.2 else found) found = some position) :
    found = some position ∨ ∃ index element, elements[index]? = some element ∧ kind element ∧
      position = offset + index := by
  induction elements generalizing offset found with
  | nil => exact .inl last
  | cons head tail ih =>
    rw [List.zipIdx_cons, List.foldl_cons] at last
    rcases ih last with here | ⟨index, element, atIndex, isKind, rfl⟩
    · split at here
      next isKind =>
        cases here
        exact .inr ⟨0, head, rfl, isKind, rfl⟩
      next => exact .inl here
    · exact .inr ⟨index + 1, element, by simpa using atIndex, isKind, by omega⟩

/-- Nothing of the kind stands behind what the fold comes to. -/
theorem exists_foldl_last {offset bound : Nat} {found : Option Nat}
    (present : (∃ earlier, found = some earlier ∧ bound ≤ earlier ∧ bound ≤ offset) ∨
      ∃ index element, elements[index]? = some element ∧ kind element ∧ bound ≤ offset + index) :
    ∃ position, (elements.zipIdx offset).foldl
      (fun found entry => if kind entry.1 then some entry.2 else found) found = some position ∧
        bound ≤ position := by
  induction elements generalizing offset found with
  | nil =>
    obtain ⟨earlier, rfl, behind, _⟩ | ⟨_, _, absent, _⟩ := present
    · exact ⟨earlier, rfl, behind⟩
    · simp at absent
  | cons head tail ih =>
    rw [List.zipIdx_cons, List.foldl_cons]
    apply ih
    obtain ⟨earlier, rfl, behind, _⟩ | ⟨index, element, atIndex, isKind, behind⟩ := present
    · left
      split
      next => exact ⟨offset, rfl, by omega, by omega⟩
      next => exact ⟨earlier, rfl, by omega, by omega⟩
    · cases index with
      | zero =>
        obtain rfl : head = element := by simpa using atIndex
        exact .inl ⟨offset, if_pos isKind, by omega, by omega⟩
      | succ index =>
        exact .inr ⟨index, element, by simpa using atIndex, isKind, by omega⟩

end Last

/-! ## Positions of labels -/

namespace FlatCode

variable {code : FlatCode} {label : Label} {position : Nat}

theorem getElem?_of_labelPosition? (found : code.labelPosition? label = some position) :
    code[position]? = some (.label label) := by
  simp only [labelPosition?, Option.map_eq_some_iff] at found
  obtain ⟨entry, isLast, rfl⟩ := found
  have isLabel := List.find?_some isLast
  have member := List.mem_reverse.mp (List.mem_of_find?_eq_some isLast)
  rw [List.mem_zipIdx_iff_getElem?] at member
  rw [member]
  simpa using isLabel

/-- A label is found in the last place it stands in. -/
theorem le_of_labelPosition? (found : code.labelPosition? label = some position) {other : Nat}
    (there : code[other]? = some (.label label)) : other ≤ position := by
  simp only [labelPosition?, Option.map_eq_some_iff] at found
  obtain ⟨entry, isLast, rfl⟩ := found
  obtain ⟨_, index, bound, atIndex, others⟩ := List.find?_eq_some_iff_getElem.mp isLast
  by_contra behind
  have inside := (List.getElem?_eq_some_iff.mp there).1
  simp only [List.length_reverse, List.length_zipIdx] at bound
  have isEntry : entry.2 = code.length - 1 - index := by
    rw [← atIndex, List.getElem_reverse]
    simp
  have earlier := others (code.length - 1 - other) (by omega)
  rw [List.getElem_reverse] at earlier
  have same : code.length - 1 - (code.length - 1 - other) = other := by omega
  simp only [List.length_zipIdx, same, List.getElem_zipIdx] at earlier
  simp [(List.getElem?_eq_some_iff.mp there).2] at earlier

theorem exists_labelPosition? (member : .label label ∈ code) :
    ∃ position, code.labelPosition? label = some position := by
  obtain ⟨index, here⟩ := List.mem_iff_getElem?.mp member
  have present : (code.labelPosition? label).isSome := by
    simp only [labelPosition?, Option.isSome_map, List.find?_isSome, List.mem_reverse]
    exact ⟨(.label label, index), List.mem_zipIdx_iff_getElem?.mpr here, by simp⟩
  exact Option.isSome_iff_exists.mp present

/-- A label is found in the last place it stands in, and nowhere else. -/
theorem labelPosition?_of_last (here : code[position]? = some (.label label))
    (last : ∀ other, code[other]? = some (.label label) → other ≤ position) :
    code.labelPosition? label = some position := by
  obtain ⟨other, found⟩ := exists_labelPosition? (List.mem_of_getElem? here)
  have before := last other (getElem?_of_labelPosition? found)
  have behind := le_of_labelPosition? found here
  rw [found, Nat.le_antisymm before behind]

end FlatCode

namespace Graph

/-! ## Placed blocks -/

/-- The positions that the branches of the placed blocks aim at. -/
def targets (placed : List Placed) : List Nat :=
  placed.flatMap fun entry => entry.2.map Branch.target

/-- The code of placed blocks. -/
def listing (graph : Graph) (placed : List Placed) : FlatCode :=
  placed.zipIdx.flatMap fun entry => graph.emit (targets placed) entry.2 entry.1

variable {graph : Graph} {placed : List Placed}

/-- A layout has the instructions of the placed blocks and their branches. -/
theorem mem_listing {instr : Instr} (member : .instr instr ∈ graph.listing placed) :
    ∃ (position : Nat) (id : BlockId) (branches : List Branch),
      placed[position]? = some (id, branches) ∧
        (instr ∈ (graph.block id).instrs ∨ ∃ branch ∈ branches, instr = branch.instr) := by
  obtain ⟨⟨⟨id, branches⟩, position⟩, isPlaced, emitted⟩ := List.mem_flatMap.mp member
  refine ⟨position, id, branches, List.mem_zipIdx_iff_getElem?.mp isPlaced, ?_⟩
  rw [emit, List.mem_append] at emitted
  rcases emitted with isLabel | isInstr
  · split at isLabel <;> simp at isLabel
  · obtain ⟨other, isOther, same⟩ := List.mem_map.mp isInstr
    cases same
    rcases List.mem_append.mp isOther with inBlock | isBranch
    · exact .inl inBlock
    · obtain ⟨branch, inBranches, rfl⟩ := List.mem_map.mp isBranch
      exact .inr ⟨branch, inBranches, rfl⟩

/-- The blocks of an order with the branches they need. -/
def place (graph : Graph) (order : List BlockId) : Except CompileError (List Placed) :=
  order.zipIdx.mapM fun entry => do
    pure (entry.1, ← graph.branches order entry.2 entry.1)

variable {order : List BlockId}

theorem flatten_eq_ok {code : FlatCode} :
    graph.flatten order = .ok code ↔
      ∃ placed, graph.place order = .ok placed ∧ graph.listing placed = code := by
  have unfolded : graph.flatten order =
    (graph.place order >>= fun placed => pure (graph.listing placed)) := rfl
  simp only [unfolded, Fallible.bind_eq_ok, Fallible.pure_eq_ok]

theorem place_eq_ok :
    graph.place order = .ok placed ↔
      List.Forall₂ (fun entry place =>
        graph.branches order entry.2 entry.1 = .ok place.2 ∧ entry.1 = place.1)
      order.zipIdx placed := by
  simp only [place, Fallible.mapM_eq_ok, Fallible.bind_eq_ok, Fallible.pure_eq_ok]
  constructor
  · intro related
    refine related.imp ?_
    rintro entry place ⟨branches, isOk, rfl⟩
    exact ⟨isOk, rfl⟩
  · intro related
    refine related.imp ?_
    rintro entry ⟨id, branches⟩ ⟨isOk, equal⟩
    exact ⟨branches, isOk, by rw [equal]⟩

theorem map_fst_of_place (isPlaced : graph.place order = .ok placed) :
    placed.map Prod.fst = order := by
  have blocks : order.zipIdx.map Prod.fst = placed.map Prod.fst := by
    rw [← List.forall₂_eq_eq_eq, List.forall₂_map_left_iff, List.forall₂_map_right_iff]
    exact (place_eq_ok.mp isPlaced).imp fun _ _ => And.right
  rw [← blocks, List.zipIdx_map_fst]

/-- Placing keeps the blocks of the order where they are. -/
theorem getElem?_place (isPlaced : graph.place order = .ok placed) {position : Nat} {id : BlockId}
    (found : order[position]? = some id) :
    ∃ branches, placed[position]? = some (id, branches) ∧
      graph.branches order position id = .ok branches := by
  have here : order.zipIdx[position]? = some (id, position) := by simp [List.getElem?_zipIdx, found]
  obtain ⟨⟨_, branches⟩, atPosition, isOk, rfl⟩ :=
    Fallible.exists_related (place_eq_ok.mp isPlaced) here
  exact ⟨branches, atPosition, isOk⟩

theorem place_getElem? (isPlaced : graph.place order = .ok placed) {position : Nat} {id : BlockId}
    {branches : List Branch} (found : placed[position]? = some (id, branches)) :
    order[position]? = some id ∧ graph.branches order position id = .ok branches := by
  have here : order[position]? = some id := by
    rw [← map_fst_of_place isPlaced, List.getElem?_map, found, Option.map_some]
  obtain ⟨others, otherFound, isOk⟩ := getElem?_place isPlaced here
  cases found.symm.trans otherFound
  exact ⟨here, isOk⟩

/-! ## Where things stand -/

section Listing

variable (graph : Graph) (placed : List Placed)

/-- Where the code of the block at a position starts. -/
def startOf (position : Nat) : Nat :=
  Concat.start (fun entry => graph.emit (targets placed) entry.2 entry.1) placed.zipIdx position

/-- Where the instructions of the block at a position start, behind its label. -/
def bodyOf (position : Nat) : Nat :=
  graph.startOf placed position + if position ∈ targets placed then 1 else 0

variable {graph placed} {position : Nat} {id : BlockId} {branches : List Branch}

theorem zipIdx_getElem? (found : placed[position]? = some (id, branches)) :
    placed.zipIdx[position]? = some ((id, branches), position) := by
  simp [List.getElem?_zipIdx, found]

theorem emit_length (referenced : List Nat) :
    (graph.emit referenced position (id, branches)).length =
      (if position ∈ referenced then 1 else 0) +
        ((graph.block id).instrs.length + branches.length) := by
  simp only [emit]
  split <;> simp [Nat.add_comm, Nat.add_left_comm]

theorem startOf_succ (graph : Graph) (found : placed[position]? = some (id, branches)) :
    graph.startOf placed (position + 1) =
      graph.bodyOf placed position + (graph.block id).instrs.length + branches.length := by
  rw [startOf, Concat.start_succ _ (zipIdx_getElem? found), emit_length, bodyOf, startOf]
  simp only [Nat.add_assoc]

theorem startOf_length : graph.startOf placed placed.length = (graph.listing placed).length := by
  have equal : Concat.start _ placed.zipIdx placed.zipIdx.length =
      (graph.listing placed).length := Concat.start_length _
  rwa [List.length_zipIdx] at equal

theorem startOf_mono {lower upper : Nat} (ordered : lower ≤ upper) :
    graph.startOf placed lower ≤ graph.startOf placed upper :=
  Concat.start_mono _ ordered

theorem listing_startOf_add (graph : Graph) (found : placed[position]? = some (id, branches))
    {offset : Nat}
    (inside : offset < (graph.emit (targets placed) position (id, branches)).length) :
    (graph.listing placed)[graph.startOf placed position + offset]? =
      (graph.emit (targets placed) position (id, branches))[offset]? :=
  Concat.getElem?_start_add _ (zipIdx_getElem? found) inside

theorem listing_label (found : placed[position]? = some (id, branches))
    (referenced : position ∈ targets placed) :
    (graph.listing placed)[graph.startOf placed position]? = some (.label ⟨position, ""⟩) := by
  have here := listing_startOf_add graph found (by simp [emit, referenced] : 0 < _)
  rw [Nat.add_zero] at here
  rw [here]
  simp [emit, referenced]

theorem listing_instr (found : placed[position]? = some (id, branches)) {offset : Nat}
    {instr : Instr}
    (atOffset : ((graph.block id).instrs ++ branches.map Branch.instr)[offset]? = some instr) :
    (graph.listing placed)[graph.bodyOf placed position + offset]? = some (.instr instr) := by
  have bound := (List.getElem?_eq_some_iff.mp atOffset).1
  rw [List.length_append, List.length_map] at bound
  have inside : (if position ∈ targets placed then 1 else 0) + offset <
      (graph.emit (targets placed) position (id, branches)).length := by
    rw [emit_length]
    omega
  have item : (((graph.block id).instrs ++ branches.map Branch.instr).map Item.instr)[offset]? =
      some (.instr instr) := by
    rw [List.getElem?_map, atOffset]
    rfl
  rw [bodyOf, Nat.add_assoc, listing_startOf_add graph found inside, emit]
  by_cases referenced : position ∈ targets placed
  · rw [if_pos referenced, if_pos referenced, Nat.add_comm 1]
    exact item
  · rw [if_neg referenced, if_neg referenced, Nat.zero_add]
    exact item

/-- Every position of the listing is a label or an instruction of one of the blocks. -/
theorem listing_cases {index : Nat} (inside : index < (graph.listing placed).length) :
    ∃ position id branches, placed[position]? = some (id, branches) ∧
      ((position ∈ targets placed ∧ index = graph.startOf placed position) ∨
        ∃ offset, offset < (graph.block id).instrs.length + branches.length ∧
          index = graph.bodyOf placed position + offset) := by
  obtain ⟨position, ⟨⟨id, branches⟩, number⟩, offset, found, bound, equal⟩ :=
    Concat.exists_start_add _ inside
  rw [List.getElem?_zipIdx, Option.map_eq_some_iff] at found
  obtain ⟨place, placedFound, pairEq⟩ := found
  simp only [Nat.zero_add, Prod.mk.injEq] at pairEq
  obtain ⟨rfl, rfl⟩ := pairEq
  rw [emit_length] at bound
  refine ⟨position, id, branches, placedFound, ?_⟩
  by_cases referenced : position ∈ targets placed
  · simp only [referenced, if_true] at bound
    cases offset with
    | zero => exact .inl ⟨referenced, equal⟩
    | succ offset =>
      refine .inr ⟨offset, by omega, ?_⟩
      simp only [bodyOf, referenced, if_true]
      rw [equal, startOf]
      omega
  · simp only [referenced, if_false] at bound
    exact .inr ⟨offset, by omega, by simpa [bodyOf, referenced, startOf] using equal⟩

/-- Labels stand only where the code of their block starts. -/
theorem eq_startOf_of_listing_label {index : Nat} {label : Label}
    (here : (graph.listing placed)[index]? = some (.label label)) :
    ∃ position, position < placed.length ∧ position ∈ targets placed ∧
      label = ⟨position, ""⟩ ∧ index = graph.startOf placed position := by
  have inside := (List.getElem?_eq_some_iff.mp here).1
  obtain ⟨position, id, branches, found, ⟨referenced, rfl⟩ | ⟨offset, bound, rfl⟩⟩ :=
    listing_cases inside
  · rw [listing_label found referenced] at here
    cases here
    exact ⟨position, (List.getElem?_eq_some_iff.mp found).1, referenced, rfl, rfl⟩
  · have isInstr := List.getElem?_eq_getElem
      (l := (graph.block id).instrs ++ branches.map Branch.instr) (i := offset)
      (by simpa using bound)
    rw [listing_instr found isInstr] at here
    cases here

theorem labelPosition?_listing (found : placed[position]? = some (id, branches))
    (referenced : position ∈ targets placed) :
    (graph.listing placed).labelPosition? ⟨position, ""⟩ =
      some (graph.startOf placed position) := by
  apply FlatCode.labelPosition?_of_last (listing_label found referenced)
  intro other otherLabel
  obtain ⟨otherPosition, _, _, labelEq, rfl⟩ := eq_startOf_of_listing_label otherLabel
  cases labelEq
  exact Nat.le_refl _

end Listing

end Graph

end ContractBackend
