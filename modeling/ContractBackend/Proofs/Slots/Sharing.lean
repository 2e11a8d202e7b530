import ContractBackend.Proofs.Slots.Locals

/-!
# Sharing of cells

Merging goes on until no two groups are left that could share their cells: for any two groups, some
member of the one can be active together with some member of the other. Reserved slots take no part
in it and keep the cells they ask for.
-/

namespace ContractBackend

namespace SharingGroup

variable {graph : CallGraph} {group other : SharingGroup} {groups fewer : List SharingGroup}
  {ids : List SubroutineId}

/-! ## Merging comes to an end -/

theorem mergeOnce?_eq_none : mergeOnce? groups = none ↔
    groups.Pairwise fun left right => left.accepts right = false := by
  induction groups with
  | nil => simp [mergeOnce?]
  | cons head tail ih =>
    rw [mergeOnce?, List.pairwise_cons]
    cases found : tail.find? head.accepts with
    | some other =>
      have accepted := List.find?_some found
      refine iff_of_false (Option.some_ne_none _) fun refused => ?_
      rw [refused.1 other (List.mem_of_find?_eq_some found)] at accepted
      cases accepted
    | none =>
      have refused : ∀ other ∈ tail, head.accepts other = false := fun other member =>
        Bool.not_eq_true _ ▸ List.find?_eq_none.mp found other member
      rw [Option.map_eq_none_iff, ih]
      exact ⟨fun rest => ⟨refused, rest⟩, And.right⟩

/-- Each merge leaves one group less. -/
theorem length_mergeOnce? (merged : mergeOnce? groups = some fewer) :
    fewer.length + 1 = groups.length := by
  obtain ⟨group, other, rest, split, _, result⟩ := mergeOnce?_eq_some merged
  rw [split.length_eq, result.length_eq, List.length_cons, List.length_cons, List.length_cons]

/-- With as many rounds as there are groups, no group accepts a later one in the end. -/
theorem mergeWithin_pairwise {count : Nat} (enough : groups.length ≤ count) :
    (mergeWithin count groups).Pairwise fun left right => left.accepts right = false := by
  induction count generalizing groups with
  | zero =>
    rw [List.eq_nil_of_length_eq_zero (Nat.le_zero.mp enough)]
    exact .nil
  | succ count ih =>
    rw [mergeWithin]
    split
    next fewer merged =>
      have shorter := length_mergeOnce? merged
      rw [sort_perm.length_eq] at shorter
      exact ih (by omega)
    next done => exact mergeOnce?_eq_none.mp done

/-! ## What could be merged is merged -/

/-- A group knows every subroutine that it could take in. -/
structure Informed (graph : CallGraph) (ids : List SubroutineId) (group : SharingGroup) : Prop where
  members : ∀ id ∈ group.members, id ∈ ids
  exclusive : ∀ id ∈ ids, (∀ member ∈ group.members, graph.exclusive member id = true) →
    id ∈ group.exclusive

theorem Informed.absorb (informed : group.Informed graph ids)
    (otherInformed : other.Informed graph ids) : (group.absorb other).Informed graph ids where
  members := by
    intro id member
    exact (Ascending.mem_union.mp member).elim (informed.members id) (otherInformed.members id)
  exclusive := by
    intro id isId apart
    have first := informed.exclusive id isId fun member isMember =>
      apart member (Ascending.mem_union.mpr (.inl isMember))
    have second := otherInformed.exclusive id isId fun member isMember =>
      apart member (Ascending.mem_union.mpr (.inr isMember))
    exact List.mem_filter.mpr ⟨first, decide_eq_true second⟩

/-- All members of a group could share cells with all members of another one. -/
def Compatible (graph : CallGraph) (group other : SharingGroup) : Prop :=
  ∀ left ∈ group.members, ∀ right ∈ other.members, graph.exclusive left right = true

theorem Compatible.symm (compatible : Compatible graph group other) :
    Compatible graph other group :=
  fun left isLeft right isRight => CallGraph.exclusive_symm (compatible right isRight left isLeft)

/-- A group accepts every group that it could share cells with. -/
theorem Informed.accepts (informed : group.Informed graph ids)
    (otherInformed : other.Informed graph ids) (compatible : Compatible graph group other) :
    group.accepts other = true := by
  refine List.all_eq_true.mpr fun id isMember => decide_eq_true ?_
  exact informed.exclusive id (otherInformed.members id isMember) fun member isOwn =>
    compatible member isOwn id isMember

end SharingGroup

namespace SlotAssignment

open SharingGroup (Informed Compatible)

variable {graph : CallGraph} {usage : SlotUsage} {sharing : List (SubroutineId × List Slot)}
  {slot : Slot} {cell : Cell}

theorem groups_informed : ∀ group ∈ groups graph sharing,
    group.Informed graph (sharing.map Prod.fst) := by
  refine forall_groups (fun _ _ informed otherInformed _ => informed.absorb otherInformed) ?_
  intro entry isEntry
  constructor
  · simpa using ⟨_, isEntry⟩
  · intro id isId apart
    exact List.mem_filter.mpr ⟨isId, apart entry.1 (List.mem_singleton.mpr rfl)⟩

/-- No two groups could share their cells. -/
theorem groups_pairwise : (groups graph sharing).Pairwise fun left right =>
    ¬ Compatible graph left right := by
  have symm : ∀ {left right : SharingGroup}, ¬ Compatible graph left right →
      ¬ Compatible graph right left := fun clash compatible => clash compatible.symm
  refine (List.Perm.pairwise_iff symm SharingGroup.sort_perm).mpr ?_
  refine (SharingGroup.mergeWithin_pairwise (Nat.le_refl _)).imp_of_mem ?_
  intro left right isLeft isRight refused compatible
  have accepted := (groups_informed left (SharingGroup.sort_perm.mem_iff.mpr isLeft)).accepts
    (groups_informed right (SharingGroup.sort_perm.mem_iff.mpr isRight)) compatible
  rw [refused] at accepted
  cases accepted

/-! ## Reserved slots -/

/-- A reserved slot has the cell it asks for. -/
theorem cell?_of_requested {share : Bool} {assignment : SlotAssignment}
    (assigned : assign usage graph share = .ok assignment) (inUse : slot ∈ usage.all)
    (requested : slot.requested = some cell) : assignment.cell? slot = some cell := by
  obtain ⟨found, isFound⟩ := exists_cell assigned inUse
  have isReserved : slot.isReserved = true := by simp [Slot.isReserved, requested]
  obtain ⟨_, _, shared, sharedOk, rfl⟩ := assign_eq_ok.mp assigned
  have member := Keyed.mem_of_lookup_ofList isFound
  rw [List.mem_append, List.mem_append] at member
  rcases member with (isRequest | isAlone) | isShared
  · rw [isFound, ← (mem_requests.mp isRequest).2, requested]
  · have notReserved := (List.mem_filter.mp (List.of_mem_zip isAlone).1).2
    simp [isReserved] at notReserved
  · obtain ⟨id, isSlot⟩ := (mem_of_assignGroups sharedOk _ isShared).1
    cases share with
    | false => cases isSlot
    | true =>
      have isPrivate := SlotUsage.mem_privateSlots.mp (mem_privateSlots_of_slotsIn isSlot)
      rw [isReserved] at isPrivate
      cases isPrivate.2.2.1

/-- Sharing never aliases live slots: if cells are assigned with sharing, every slot in use has
a cell, and every reserved slot has the one it asks for. Two slots have the same cell only if
neither is reserved or pushed as an index and they are local to two subroutines that are never
active at the same time. Every subroutine that shares is in a group, the members of a group are
never active at the same time, and no two groups are left that could be merged. -/
theorem sharing_never_aliases {assignment : SlotAssignment}
    (assigned : assign usage graph true = .ok assignment) :
    (∀ slot ∈ usage.all, ∃ cell, assignment.cell? slot = some cell) ∧
    (∀ slot ∈ usage.all, ∀ cell, slot.requested = some cell →
      assignment.cell? slot = some cell) ∧
    (∀ left right cell, left ≠ right → assignment.cell? left = some cell →
      assignment.cell? right = some cell → ∃ first second, first ≠ second ∧
        graph.exclusive first second = true ∧
        (left ∈ (usage.locals.lookup (.subroutine first)).getD [] ∧ left.isReserved = false ∧
          left ∉ usage.dynamic) ∧
        right ∈ (usage.locals.lookup (.subroutine second)).getD [] ∧ right.isReserved = false ∧
          right ∉ usage.dynamic) ∧
    (∀ entry ∈ shareable usage, ∃ group ∈ groups graph (shareable usage),
      entry.1 ∈ group.members) ∧
    (∀ group ∈ groups graph (shareable usage), ∀ left ∈ group.members, ∀ right ∈ group.members,
      left ≠ right → graph.exclusive left right = true) ∧
    (groups graph (shareable usage)).Pairwise fun group other =>
      ¬ ∀ left ∈ group.members, ∀ right ∈ other.members, graph.exclusive left right = true := by
  refine ⟨fun slot => exists_cell assigned,
    fun slot inUse cell => cell?_of_requested assigned inUse,
    fun left right cell different leftAt rightAt => ?_, fun entry isEntry => ?_,
    fun group isGroup => (groups_sound group isGroup).members, groups_pairwise⟩
  · obtain ⟨first, second, inFirst, inSecond, apart⟩ :=
      exclusive_of_same_cell assigned leftAt rightAt different
    simp only [SlotUsage.privateSlots, List.mem_filter, Bool.and_eq_true, Bool.not_eq_true',
      decide_eq_true_eq] at inFirst inSecond
    refine ⟨first, second, ?_, apart, inFirst, inSecond⟩
    rintro rfl
    simp [CallGraph.exclusive] at apart
  · obtain ⟨group, isGroup, isMember, _⟩ := holds_groups isEntry
    exact ⟨group, isGroup, isMember⟩

/-- The entry code has a reserved slot, one subroutine two slots and each of two others one. -/
def threeHelpers : SlotUsage where
  perRoutine := [(.main, [⟨0, some (Fin.last 255)⟩]), (.subroutine 0, [⟨1, none⟩, ⟨2, none⟩]),
    (.subroutine 1, [⟨3, none⟩]), (.subroutine 2, [⟨4, none⟩])]
  dynamic := []

/-- The entry code calls two of the subroutines, of which the first calls the third. -/
def helperCalls : CallGraph where
  edges := [(.main, [0, 1]), (.subroutine 0, [2]), (.subroutine 1, []), (.subroutine 2, [])]

theorem sharing_never_aliases_threeHelpers :
    (groups helperCalls (shareable threeHelpers)).map SharingGroup.members = [[0, 1], [2]] ∧
    ∃ assignment cell, assign threeHelpers helperCalls true = .ok assignment ∧
      assignment.cell? ⟨0, some (Fin.last 255)⟩ = some (Fin.last 255) ∧
      (assignment.cell? ⟨1, none⟩ = some cell ∧ assignment.cell? ⟨3, none⟩ = some cell) ∧
      ∃ first second, first ≠ second ∧ helperCalls.exclusive first second = true ∧
        ⟨1, none⟩ ∈ (threeHelpers.locals.lookup (.subroutine first)).getD [] ∧
        ⟨3, none⟩ ∈ (threeHelpers.locals.lookup (.subroutine second)).getD [] := by
  have alike : ((assign threeHelpers helperCalls true).map fun assignment =>
      decide (assignment.cell? ⟨1, none⟩ = assignment.cell? ⟨3, none⟩)) = .ok true := by
    decide +kernel
  cases assigned : assign threeHelpers helperCalls true with
  | error problem =>
      rw [assigned] at alike
      cases alike
  | ok assignment =>
      rw [assigned] at alike
      have same := of_decide_eq_true (Except.ok.inj alike)
      obtain ⟨covered, reserved, aliased, _⟩ := sharing_never_aliases assigned
      obtain ⟨cell, isCell⟩ := covered ⟨1, none⟩ (by decide)
      obtain ⟨first, second, different, apart, left, right⟩ :=
        aliased ⟨1, none⟩ ⟨3, none⟩ cell (by decide) isCell (same ▸ isCell)
      exact ⟨by decide, assignment, cell, rfl, reserved _ (by decide) _ rfl,
        ⟨isCell, same ▸ isCell⟩, first, second, different, apart, left.1, right.1⟩

end SlotAssignment

end ContractBackend
