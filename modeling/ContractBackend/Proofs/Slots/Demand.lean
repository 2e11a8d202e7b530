import ContractBackend.Proofs.Slots.Sharing

/-!
# The demand for cells

Without sharing, the slots in use get cells exactly if no two reserved ones ask for the same cell
and there are no more slots than cells. Sharing never needs more cells than that.
-/

namespace ContractBackend

namespace SlotUsage

variable {usage : SlotUsage}

/-- The slots in use that are not reserved, in creation order. -/
def unreserved (usage : SlotUsage) : List Slot := usage.all.filter fun slot => !slot.isReserved

/-- Two slots in use ask for the same cell. -/
def Collides (usage : SlotUsage) (cell : Cell) : Prop :=
  ∃ left ∈ usage.all, ∃ right ∈ usage.all, left ≠ right ∧ left.requested = some cell ∧
    right.requested = some cell

theorem nodup_all : usage.all.Nodup := Slot.nodup_of_pairwise (Slot.pairwise_ofList _)

end SlotUsage

namespace SlotAssignment

variable {graph : CallGraph} {usage : SlotUsage} {sharing : List (SubroutineId × List Slot)}
  {assignment : SlotAssignment}

/-! ## Counting -/

theorem length_freeCells {taken : List Cell} (nodup : taken.Nodup) :
    (freeCells taken).length + taken.length = cellCount := by
  have apart : (freeCells taken ++ taken).Nodup := by
    refine ((List.nodup_finRange cellCount).filter _).append nodup fun cell isFree isTaken => ?_
    exact of_decide_eq_true (List.mem_filter.mp isFree).2 isTaken
  have all : (freeCells taken ++ taken).Perm (List.finRange cellCount) := by
    refine (List.perm_ext_iff_of_nodup apart (List.nodup_finRange cellCount)).mpr fun cell => ?_
    simp [freeCells, or_comm, Classical.em]
  rw [← List.length_append, all.length_eq, List.length_finRange]

theorem requests_perm (usage : SlotUsage) :
    ((requests usage.all).map Prod.fst ++ usage.unreserved).Perm usage.all := by
  have reserved : (requests usage.all).map Prod.fst = usage.all.filter Slot.isReserved := by
    rw [requests, List.map_filterMap, ← List.filterMap_eq_filter]
    refine List.filterMap_congr fun slot _ => ?_
    cases requested : slot.requested <;> simp [Slot.isReserved, requested, Option.guard]
  rw [reserved]
  exact List.filter_append_perm _ _

/-- As many slots as there are cells: those for which reserved slots ask and the others. -/
theorem enough_iff (nodup : ((requests usage.all).map Prod.snd).Nodup) :
    usage.unreserved.length ≤ (openCells usage).length ↔ usage.all.length ≤ cellCount := by
  have slots := (requests_perm usage).length_eq
  have cells := length_freeCells nodup
  rw [List.length_append, List.length_map] at slots
  rw [List.length_map] at cells
  rw [openCells]
  omega

theorem openCells_eq : openCells usage = (List.finRange cellCount).filter fun cell =>
    ∀ slot ∈ usage.all, slot.requested ≠ some cell := by
  rw [openCells, freeCells]
  refine List.filter_congr fun cell _ => decide_eq_decide.mpr ?_
  simp only [List.mem_map, Prod.exists, mem_requests, exists_eq_right]
  constructor
  · exact fun unasked slot inUse asks => unasked ⟨slot, inUse, asks⟩
  · rintro unasked ⟨slot, inUse, asks⟩
    exact unasked slot inUse asks

/-! ## Without sharing -/

theorem alone_false : alone usage false = usage.unreserved := by
  simp [alone, sharingOf, SlotUsage.unreserved]

theorem assign_unshared : assign usage graph false = .ok assignment ↔
    ((requests usage.all).map Prod.snd).Nodup ∧
    usage.unreserved.length ≤ (openCells usage).length ∧
    assignment = ⟨Keyed.ofList (requests usage.all ++
      usage.unreserved.zip ((openCells usage).take usage.unreserved.length))⟩ := by
  rw [assign_eq_ok, alone_false]
  refine and_congr_right fun _ => and_congr_right fun _ => ?_
  constructor
  · rintro ⟨_, ⟨⟩, rfl⟩
    rw [List.append_nil]
  · rintro rfl
    exact ⟨[], rfl, by rw [List.append_nil]⟩

theorem nodup_requests_iff :
    ((requests usage.all).map Prod.snd).Nodup ↔ ∀ cell, ¬ usage.Collides cell := by
  have keys := (requests_perm usage).nodup_iff.mpr SlotUsage.nodup_all
  have nodup : (requests usage.all).Nodup := .of_map Prod.fst (List.nodup_append.mp keys).1
  rw [List.nodup_map_iff_inj_on nodup]
  constructor
  · rintro apart cell ⟨left, isLeft, right, isRight, different, leftAsks, rightAsks⟩
    exact different (congrArg Prod.fst (apart (left, cell) (mem_requests.mpr ⟨isLeft, leftAsks⟩)
      (right, cell) (mem_requests.mpr ⟨isRight, rightAsks⟩) rfl))
  · rintro apart ⟨left, cell⟩ isLeft ⟨right, _⟩ isRight rfl
    obtain ⟨isLeft, leftAsks⟩ := mem_requests.mp isLeft
    obtain ⟨isRight, rightAsks⟩ := mem_requests.mp isRight
    by_contra different
    exact apart cell ⟨left, isLeft, right, isRight, fun same => different (by rw [same]), leftAsks,
      rightAsks⟩

/-- Where reserving fails, a slot asks for a cell that an earlier one has. -/
theorem reserve_eq_error {slots : List Slot} {entries : List (Slot × Cell)} {problem : CompileError}
    (failed : reserve slots entries = .error problem) :
    ∃ cell before slot after, problem = .reservedSlotCollision cell ∧
      slots = before ++ slot :: after ∧ slot.requested = some cell ∧
      cell ∈ (entries ++ requests before).map Prod.snd := by
  induction slots generalizing entries with
  | nil => cases failed
  | cons slot rest ih =>
    rw [reserve] at failed
    split at failed
    next none =>
      obtain ⟨cell, before, later, after, isCollision, rfl, asks, taken⟩ := ih failed
      refine ⟨cell, slot :: before, later, after, isCollision, rfl, asks, ?_⟩
      rwa [requests, List.filterMap_cons, none]
    next cell requested =>
      split at failed
      next taken =>
        cases failed
        refine ⟨cell, [], slot, rest, rfl, rfl, requested, ?_⟩
        rwa [requests, List.filterMap_nil, List.append_nil]
      next =>
        obtain ⟨other, before, later, after, isCollision, rfl, asks, taken⟩ := ih failed
        refine ⟨other, slot :: before, later, after, isCollision, rfl, asks, ?_⟩
        rw [requests, List.filterMap_cons, requested]
        rwa [List.append_assoc] at taken

theorem assign_of_collides {cell : Cell} (collides : usage.Collides cell) : ∃ clash,
    usage.Collides clash ∧ assign usage graph false = .error (.reservedSlotCollision clash) := by
  cases reserved : reserve (usage.all.filter Slot.isReserved) [] with
  | ok entries =>
    obtain ⟨rfl, nodup⟩ := reserve_all.mp reserved
    exact absurd collides (nodup_requests_iff.mp nodup cell)
  | error problem =>
    obtain ⟨clash, before, slot, after, rfl, split, asks, taken⟩ := reserve_eq_error reserved
    refine ⟨clash, ?_, by simp [assign, reserved]⟩
    obtain ⟨⟨earlier, _⟩, isRequest, rfl⟩ := List.mem_map.mp taken
    obtain ⟨isEarlier, asksToo⟩ := mem_requests.mp isRequest
    have listed : ∀ other ∈ before ++ slot :: after, other ∈ usage.all :=
      fun other member => List.mem_of_mem_filter (split ▸ member)
    refine ⟨earlier, listed _ (by simp [isEarlier]), slot, listed _ (by simp), ?_, asksToo, asks⟩
    rintro rfl
    have nodup := split ▸ SlotUsage.nodup_all.filter Slot.isReserved
    exact (List.nodup_append.mp nodup).2.2 _ isEarlier _ List.mem_cons_self rfl

theorem assign_of_crowded (apart : ∀ cell, ¬ usage.Collides cell)
    (crowded : cellCount < usage.all.length) :
    assign usage graph false = .error (.slotSpaceExhausted (cellCount + 1)) := by
  have nodup := nodup_requests_iff.mpr apart
  have reserved := reserve_all.mpr ⟨rfl, nodup⟩
  have short : ¬ (alone usage false).length ≤ (openCells usage).length := by
    rw [alone_false, enough_iff nodup]
    exact Nat.not_le.mpr crowded
  rw [assign, reserved, Fallible.ok_bind]
  exact congrArg (· >>= _) (if_neg short)

/-- No two slots have the same cell. -/
theorem eq_of_same_cell (assigned : assign usage graph false = .ok assignment) {left right : Slot}
    {cell : Cell} (leftAt : assignment.cell? left = some cell)
    (rightAt : assignment.cell? right = some cell) : left = right := by
  refine (assign_separate assigned leftAt rightAt).resolve_right ?_
  rintro ⟨_, _, isLeft, _⟩
  cases isLeft

/-- The slots that are not reserved have the lowest cells that are left, in order. -/
theorem cells_of_unreserved (assigned : assign usage graph false = .ok assignment) :
    usage.unreserved.map assignment.cell? =
      ((openCells usage).take usage.unreserved.length).map some := by
  obtain ⟨_, enough, rfl⟩ := assign_unshared.mp assigned
  have length := (List.length_take_of_le enough).symm
  have keys : ((requests usage.all ++ usage.unreserved.zip
      ((openCells usage).take usage.unreserved.length)).map Prod.fst).Nodup := by
    rw [List.map_append, List.map_fst_zip (Nat.le_of_eq length)]
    exact (requests_perm usage).nodup_iff.mpr SlotUsage.nodup_all
  rw [← List.forall₂_eq_eq_eq, List.forall₂_map_left_iff, List.forall₂_map_right_iff,
    List.forall₂_iff_zip]
  exact ⟨length, fun paired => Keyed.lookup_ofList_of_mem keys (List.mem_append_right _ paired)⟩

/-- Assignment without sharing is exact: the slots in use, which stand in creation order, get
cells if and only if no two of them ask for the same cell and there are no more of them than cells.
Then exactly they have cells, no two of them the same one, every reserved slot the one it asks for,
and the others, one after the other, the lowest cells that none asks for. Otherwise the error is
a collision at a cell that two slots ask for, if there is such a cell, and exhaustion if not. -/
theorem unshared_assignment_exact (usage : SlotUsage) (graph : CallGraph) :
    usage.all.Pairwise (· < ·) ∧
    ((∃ assignment, assign usage graph false = .ok assignment) ↔
      (∀ cell, ¬ usage.Collides cell) ∧ usage.all.length ≤ cellCount) ∧
    (∀ assignment, assign usage graph false = .ok assignment →
      (∀ slot, (∃ cell, assignment.cell? slot = some cell) ↔ slot ∈ usage.all) ∧
      (∀ left right cell, assignment.cell? left = some cell → assignment.cell? right = some cell →
        left = right) ∧
      (∀ slot ∈ usage.all, ∀ cell, slot.requested = some cell →
        assignment.cell? slot = some cell) ∧
      usage.unreserved.map assignment.cell? =
        (((List.finRange cellCount).filter fun cell =>
          ∀ slot ∈ usage.all, slot.requested ≠ some cell).take usage.unreserved.length).map some) ∧
    (∀ cell, usage.Collides cell → ∃ clash, usage.Collides clash ∧
      assign usage graph false = .error (.reservedSlotCollision clash)) ∧
    ((∀ cell, ¬ usage.Collides cell) → cellCount < usage.all.length →
      assign usage graph false = .error (.slotSpaceExhausted (cellCount + 1))) := by
  refine ⟨Slot.pairwise_ofList _, ?_, fun assignment assigned => ⟨fun slot => ?_, ?_, ?_, ?_⟩,
    fun cell => assign_of_collides, assign_of_crowded⟩
  · simp only [assign_unshared, exists_and_left, exists_eq, and_true]
    rw [← nodup_requests_iff]
    exact and_congr_right enough_iff
  · refine ⟨?_, exists_cell assigned⟩
    rintro ⟨cell, isCell⟩
    exact mem_all_of_cell? assigned isCell
  · exact fun left right cell => eq_of_same_cell assigned
  · exact fun slot inUse cell => cell?_of_requested assigned inUse
  · rw [cells_of_unreserved assigned, openCells_eq]

/-- Reserved slots at both ends, a slot of two routines and a slot that is pushed as an index. -/
def scattered : SlotUsage where
  perRoutine := [(.main, [⟨0, some (Fin.ofNat 256 0)⟩, ⟨1, none⟩, ⟨2, some (Fin.ofNat 256 2)⟩,
    ⟨3, none⟩]), (.subroutine 0, [⟨1, none⟩, ⟨4, some (Fin.last 255)⟩, ⟨5, none⟩])]
  dynamic := [⟨3, none⟩]

/-- Two routines that reserve the same cell. -/
def doubled : SlotUsage where
  perRoutine := [(.main, [⟨0, some (Fin.last 255)⟩]), (.subroutine 0, [⟨1, some (Fin.last 255)⟩])]
  dynamic := []

theorem unshared_assignment_exact_scattered :
    (∃ assignment, assign scattered helperCalls false = .ok assignment ∧
      (scattered.unreserved.map assignment.cell?).map (Option.map Fin.val) =
        [some 1, some 3, some 4]) ∧
    ∃ clash, assign doubled helperCalls false = .error (.reservedSlotCollision clash) := by
  obtain ⟨_, succeeds, assigned, _⟩ := unshared_assignment_exact scattered helperCalls
  obtain ⟨assignment, isOk⟩ := succeeds.mpr ⟨nodup_requests_iff.mp (by decide), by decide⟩
  obtain ⟨_, _, _, cells⟩ := assigned assignment isOk
  obtain ⟨_, _, _, collides, _⟩ := unshared_assignment_exact doubled helperCalls
  have both : doubled.Collides (Fin.last 255) :=
    ⟨⟨0, some (Fin.last 255)⟩, by decide, ⟨1, some (Fin.last 255)⟩, by decide, by decide, rfl, rfl⟩
  obtain ⟨clash, _, failed⟩ := collides _ both
  exact ⟨⟨assignment, isOk, cells ▸ by decide +kernel⟩, clash, failed⟩

/-! ## With sharing -/

theorem sum_size_groups : ((groups graph sharing).map SharingGroup.size).sum ≤
    (sharing.flatMap Prod.snd).length := by
  refine groups_keep (fun groups => (groups.map SharingGroup.size).sum ≤ _) ?_ ?_ ?_
  · intro groups others same bound
    rwa [← (same.map SharingGroup.size).sum_nat]
  · intro group other rest _ bound
    simp only [List.map_cons, List.sum_cons, SharingGroup.absorb] at bound ⊢
    omega
  · rw [List.map_map, List.length_flatMap]
    exact Nat.le_refl _

theorem exists_assignGroups {groups : List SharingGroup} {free : List Cell}
    (enough : (groups.map SharingGroup.size).sum ≤ free.length) :
    ∃ entries, assignGroups sharing groups free = .ok entries := by
  induction groups generalizing free with
  | nil => exact ⟨[], rfl⟩
  | cons group rest ih =>
    rw [List.map_cons, List.sum_cons] at enough
    have behind : (rest.map SharingGroup.size).sum ≤ (free.drop group.size).length := by
      rw [List.length_drop]
      omega
    obtain ⟨entries, isOk⟩ := ih behind
    exact ⟨_, assignGroups_cons.mpr ⟨by omega, entries, isOk, rfl⟩⟩

end SlotAssignment

/-- A table with one entry for each routine, in which every slot stands once. -/
structure SlotUsage.IsTable (usage : SlotUsage) : Prop where
  routines : (usage.perRoutine.map Prod.fst).Nodup
  slots : ∀ entry ∈ usage.perRoutine, entry.2.Nodup

namespace SlotAssignment

variable {graph : CallGraph} {usage : SlotUsage} {plain : SlotAssignment}

theorem nodup_shareable (isTable : usage.IsTable) : ((shareable usage).flatMap Prod.snd).Nodup := by
  have ids : (shareable usage).Pairwise fun left right => left.1 ≠ right.1 := by
    refine (List.pairwise_map.mp isTable.routines).filterMap _ ?_
    intro entry other different shared isShared sharedToo isSharedToo same
    refine different ?_
    rw [(shareable_eq_some isShared).1, (shareable_eq_some isSharedToo).1, same]
  rw [List.nodup_flatMap]
  refine ⟨fun entry isEntry => ?_, ?_⟩
  · rw [slots_of_mem_shareable isEntry]
    exact (SlotUsage.nodup_locals isTable.slots).filter _
  · refine ids.imp_of_mem fun {left right} isLeft isRight different slot inLeft inRight => ?_
    rw [slots_of_mem_shareable isLeft, SlotUsage.mem_privateSlots] at inLeft
    rw [slots_of_mem_shareable isRight, SlotUsage.mem_privateSlots] at inRight
    have same := SlotUsage.eq_of_mem_slotsOf inLeft.2.1 inLeft.1 inRight.1
    exact different (Routine.subroutine.inj same)

/-- Slots with a cell of their own and slots that share are no more than all together. -/
theorem length_alone_add (isTable : usage.IsTable) : (alone usage true).length +
    ((shareable usage).flatMap Prod.snd).length ≤ usage.unreserved.length := by
  rw [← List.length_append]
  refine List.Subperm.length_le (List.Nodup.subperm ?_ ?_)
  · refine (SlotUsage.nodup_all.filter _).append (nodup_shareable isTable) ?_
    intro slot isAlone isShared
    have apart := (List.mem_filter.mp isAlone).2
    simp [sharingOf, isShared] at apart
  · intro slot member
    rcases List.mem_append.mp member with isAlone | isShared
    · obtain ⟨inUse, notReserved⟩ := List.mem_filter.mp isAlone
      rw [Bool.and_eq_true] at notReserved
      exact List.mem_filter.mpr ⟨inUse, notReserved.1⟩
    · obtain ⟨entry, isEntry, isSlot⟩ := List.mem_flatMap.mp isShared
      have shares := slotsIn_shareable isEntry ▸ isSlot
      have isPrivate := SlotUsage.mem_privateSlots.mp (slots_of_mem_shareable isEntry ▸ isSlot)
      refine List.mem_filter.mpr ⟨(mem_all_iff true).mpr (.inr (.inr ⟨entry.1, shares⟩)), ?_⟩
      rw [isPrivate.2.2.1]
      rfl

/-- The cells in use are those that reserved slots ask for and the first of the others. -/
theorem length_cells_le {share : Bool} {assignment : SlotAssignment}
    (assigned : assign usage graph share = .ok assignment) : assignment.cells.length ≤
      (requests usage.all).length + ((alone usage share).length +
        ((groups graph (sharingOf usage share)).map SharingGroup.size).sum) := by
  have inside : ∀ cell ∈ assignment.cells, cell ∈ (requests usage.all).map Prod.snd ++
      (openCells usage).take ((alone usage share).length +
        ((groups graph (sharingOf usage share)).map SharingGroup.size).sum) := by
    intro cell isUsed
    obtain ⟨entry, isEntry, rfl⟩ := List.mem_map.mp (Ascending.mem_ofList.mp isUsed)
    obtain ⟨_, _, shared, isShared, rfl⟩ := assign_eq_ok.mp assigned
    have member := Keyed.mem_of_mem_ofList isEntry
    rw [List.mem_append, List.mem_append] at member
    rw [List.take_add, List.mem_append, List.mem_append]
    rcases member with (isRequest | isAlone) | inGroup
    · exact .inl (List.mem_map_of_mem isRequest)
    · exact .inr (.inl (List.of_mem_zip isAlone).2)
    · exact .inr (.inr (mem_of_assignGroups isShared entry inGroup).2)
  refine Nat.le_trans (nodup_cells.subperm inside).length_le ?_
  rw [List.length_append, List.length_map]
  exact Nat.add_le_add_left (List.length_take_le _ _) _

/-- Sharing never costs cells: where every slot gets a cell without sharing, it gets one with
sharing, too. The same slots have cells then, the reserved ones the same cells, and no more cells
are in use. -/
theorem sharing_never_costs (isTable : usage.IsTable)
    (assigned : assign usage graph false = .ok plain) :
    ∃ shared, assign usage graph true = .ok shared ∧ shared.cells.length ≤ plain.cells.length ∧
      (∀ slot, (shared.cell? slot).isSome = (plain.cell? slot).isSome) ∧
      ∀ slot, slot.isReserved = true → shared.cell? slot = plain.cell? slot := by
  obtain ⟨nodup, enough, _⟩ := assign_unshared.mp assigned
  have fits := length_alone_add isTable
  have sizes : ((groups graph (shareable usage)).map SharingGroup.size).sum ≤ _ := sum_size_groups
  have room : ((groups graph (shareable usage)).map SharingGroup.size).sum ≤
      ((openCells usage).drop (alone usage true).length).length := by
    rw [List.length_drop]
    omega
  obtain ⟨entries, isOk⟩ := exists_assignGroups room
  obtain ⟨shared, sharedOk⟩ : ∃ shared, assign usage graph true = .ok shared :=
    ⟨_, assign_eq_ok.mpr ⟨nodup, by omega, entries, isOk, rfl⟩⟩
  have covered : ∀ slot, (∃ cell, shared.cell? slot = some cell) ↔
      ∃ cell, plain.cell? slot = some cell := by
    intro slot
    constructor
    · rintro ⟨cell, isCell⟩
      exact exists_cell assigned (mem_all_of_cell? sharedOk isCell)
    · rintro ⟨cell, isCell⟩
      exact exists_cell sharedOk (mem_all_of_cell? assigned isCell)
  refine ⟨shared, sharedOk, ?_, fun slot => ?_, fun slot isReserved => ?_⟩
  · have slots := (requests_perm usage).length_eq
    rw [List.length_append, List.length_map] at slots
    have most : shared.cells.length ≤ _ := length_cells_le sharedOk
    have least : usage.all.length ≤ plain.cells.length :=
      length_le_cells SlotUsage.nodup_all (fun slot => exists_cell assigned)
        fun left _ right _ cell => eq_of_same_cell assigned
    simp only [sharingOf, if_pos] at most
    omega
  · rw [Bool.eq_iff_iff, Option.isSome_iff_exists, Option.isSome_iff_exists]
    exact covered slot
  · obtain ⟨cell, asks⟩ := Option.isSome_iff_exists.mp isReserved
    by_cases inUse : slot ∈ usage.all
    · rw [cell?_of_requested sharedOk inUse asks, cell?_of_requested assigned inUse asks]
    · have absent : ∀ {share assignment}, assign usage graph share = .ok assignment →
          assignment.cell? slot = none := fun isOk =>
        Option.eq_none_iff_forall_not_mem.mpr fun _ isCell => inUse (mem_all_of_cell? isOk isCell)
      rw [absent sharedOk, absent assigned]

theorem sharing_never_costs_threeHelpers :
    ((assign threeHelpers helperCalls false).map fun plain => plain.cells.length) = .ok 5 ∧
    ((assign threeHelpers helperCalls true).map fun shared => shared.cells.length) = .ok 4 ∧
    ∃ plain shared, assign threeHelpers helperCalls false = .ok plain ∧
      assign threeHelpers helperCalls true = .ok shared ∧
      shared.cells.length ≤ plain.cells.length ∧
      shared.cell? ⟨0, some (Fin.last 255)⟩ = plain.cell? ⟨0, some (Fin.last 255)⟩ := by
  refine ⟨by decide +kernel, by decide +kernel, ?_⟩
  obtain ⟨plain, isOk⟩ : ∃ plain, assign threeHelpers helperCalls false = .ok plain :=
    ⟨_, assign_unshared.mpr ⟨by decide, by decide +kernel, rfl⟩⟩
  obtain ⟨shared, sharedOk, fewer, _, reserved⟩ :=
    sharing_never_costs ⟨by decide, by decide⟩ isOk
  exact ⟨plain, shared, isOk, sharedOk, fewer, reserved _ rfl⟩

end SlotAssignment

end ContractBackend
