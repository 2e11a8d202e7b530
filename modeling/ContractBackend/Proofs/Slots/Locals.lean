import Mathlib.Data.Fintype.Card
import ContractBackend.Proofs.Slots.Assignment

/-!
# The cells of slots

Whatever slots share their cells, an assignment that succeeds gives a cell to every slot that some
routine mentions. A routine lists each of its slots once, and these do not share cells, so that it
cannot have more of them than there are cells. Code that mentions fewer slots of its own, and the
same slots that several routines share, has the same global slots and fewer local ones.
-/

namespace ContractBackend

/-- Some group has a place for a subroutine with a number of slots. -/
def SharingGroup.Holds (groups : List SharingGroup) (id : SubroutineId) (count : Nat) : Prop :=
  ∃ group ∈ groups, id ∈ group.members ∧ count ≤ group.size

namespace SlotAssignment

open SharingGroup (Holds)

variable {graph : CallGraph} {usage : SlotUsage} {sharing : List (SubroutineId × List Slot)}
  {slot : Slot}

theorem holds_groups {id : SubroutineId} {slots : List Slot} (member : (id, slots) ∈ sharing) :
    Holds (groups graph sharing) id slots.length := by
  refine groups_keep (Holds · id slots.length) ?_ ?_
    ⟨_, List.mem_map_of_mem member, List.mem_singleton.mpr rfl, Nat.le_refl _⟩
  · rintro groups others same ⟨group, isGroup, fits⟩
    exact ⟨group, same.mem_iff.mp isGroup, fits⟩
  · rintro group other rest - ⟨holder, isGroup, isMember, fits⟩
    rcases List.mem_cons.mp isGroup with rfl | isGroup
    · exact ⟨_, List.mem_cons_self, Ascending.mem_union.mpr (.inl isMember),
        Nat.le_trans fits (Nat.le_max_left ..)⟩
    · rcases List.mem_cons.mp isGroup with rfl | later
      · exact ⟨_, List.mem_cons_self, Ascending.mem_union.mpr (.inr isMember),
          Nat.le_trans fits (Nat.le_max_right ..)⟩
      · exact ⟨holder, List.mem_cons_of_mem _ later, isMember, fits⟩

theorem mem_assignGroups {groups : List SharingGroup} {free : List Cell}
    {entries : List (Slot × Cell)} {id : SubroutineId}
    (assigned : assignGroups sharing groups free = .ok entries)
    (holds : Holds groups id (slotsIn sharing id).length) (member : slot ∈ slotsIn sharing id) :
    slot ∈ entries.map Prod.fst := by
  induction groups generalizing free entries with
  | nil =>
    obtain ⟨_, absent, _⟩ := holds
    cases absent
  | cons group rest ih =>
    obtain ⟨enough, others, restAssigned, rfl⟩ := assignGroups_cons.mp assigned
    rw [List.map_append, List.mem_append]
    obtain ⟨holding, isGroup, isMember, fits⟩ := holds
    rcases List.mem_cons.mp isGroup with rfl | later
    · left
      rw [List.map_flatMap, List.mem_flatMap]
      refine ⟨id, isMember, ?_⟩
      rwa [List.map_fst_zip (by rwa [List.length_take_of_le enough])]
    · exact .inr (ih restAssigned ⟨holding, later, isMember, fits⟩)

/-- A subroutine shares all of its private slots or none. -/
theorem slotsIn_shareable {entry : SubroutineId × List Slot} (member : entry ∈ shareable usage) :
    slotsIn (shareable usage) entry.1 = entry.2 := by
  rw [slotsIn]
  cases found : (shareable usage).lookup entry.1 with
  | none =>
    have different := List.lookup_eq_none_iff.mp found _ member
    simp at different
  | some others =>
    rw [slots_of_mem_shareable member]
    exact slots_of_mem_shareable (mem_of_lookup found)

/-- Every slot in use is reserved, alone or shared. -/
theorem mem_all_iff (share : Bool) : slot ∈ usage.all ↔
    (∃ cell, (slot, cell) ∈ requests usage.all) ∨ slot ∈ alone usage share ∨
      ∃ id, slot ∈ slotsIn (sharingOf usage share) id := by
  constructor
  · intro inUse
    cases requested : slot.requested with
    | some cell => exact .inl ⟨cell, mem_requests.mpr ⟨inUse, requested⟩⟩
    | none =>
      right
      by_cases shares : slot ∈ (sharingOf usage share).flatMap Prod.snd
      · right
        obtain ⟨entry, member, isSlot⟩ := List.mem_flatMap.mp shares
        cases share with
        | false => cases member
        | true => exact ⟨entry.1, slotsIn_shareable member ▸ isSlot⟩
      · refine .inl (List.mem_filter.mpr ⟨inUse, ?_⟩)
        simpa [Slot.isReserved, requested] using shares
  · rintro (⟨cell, isRequest⟩ | isAlone | ⟨id, isShared⟩)
    · exact (mem_requests.mp isRequest).1
    · exact List.mem_of_mem_filter isAlone
    · cases share with
      | false => cases isShared
      | true =>
        have isPrivate := SlotUsage.mem_privateSlots.mp (mem_privateSlots_of_slotsIn isShared)
        obtain ⟨slots, listed, member⟩ := SlotUsage.mem_perRoutine_of_slotsOf isPrivate.1
        exact SlotUsage.mem_all.mpr ⟨_, listed, member⟩

/-- Every slot in use has a cell. -/
theorem exists_cell {share : Bool} {assignment : SlotAssignment}
    (assigned : assign usage graph share = .ok assignment) (inUse : slot ∈ usage.all) :
    ∃ cell, assignment.cell? slot = some cell := by
  obtain ⟨_, enough, shared, isShared, rfl⟩ := assign_eq_ok.mp assigned
  refine Option.ne_none_iff_exists'.mp (Keyed.lookup_ofList_ne_none ?_)
  simp only [List.map_append, List.mem_append]
  rcases (mem_all_iff share).mp inUse with ⟨cell, isRequest⟩ | isAlone | ⟨id, isSlot⟩
  · exact .inl (.inl (List.mem_map_of_mem isRequest))
  · rw [List.map_fst_zip (Nat.le_of_eq (List.length_take_of_le enough).symm)]
    exact .inl (.inr isAlone)
  · refine .inr (mem_assignGroups isShared ?_ isSlot)
    rw [slotsIn] at isSlot ⊢
    cases found : (sharingOf usage share).lookup id with
    | none => simp [found] at isSlot
    | some slots => exact holds_groups (mem_of_lookup found)

/-- Only slots in use have cells. -/
theorem mem_all_of_cell? {share : Bool} {assignment : SlotAssignment} {cell : Cell}
    (assigned : assign usage graph share = .ok assignment)
    (isCell : assignment.cell? slot = some cell) : slot ∈ usage.all := by
  obtain ⟨_, _, shared, isShared, rfl⟩ := assign_eq_ok.mp assigned
  have member := Keyed.mem_of_lookup_ofList isCell
  rw [List.mem_append, List.mem_append] at member
  refine (mem_all_iff share).mpr ?_
  rcases member with (isRequest | isAlone) | inGroup
  · exact .inl ⟨cell, isRequest⟩
  · exact .inr (.inl (List.of_mem_zip isAlone).1)
  · exact .inr (.inr (mem_of_assignGroups isShared _ inGroup).1)

end SlotAssignment

/-! ## The slots of one routine -/

variable {left right : Slot} {graph : CallGraph} {share : Bool} {slots : SlotAssignment}

/-- Creation order, by the number of a slot and its request. -/
theorem Slot.lt_iff : left < right ↔
    left.id < right.id ∨ (left.id = right.id ∧ left.requestRank < right.requestRank) :=
  Iff.rfl

theorem Slot.eq_of_requestRank (ids : left.id = right.id)
    (ranks : left.requestRank = right.requestRank) : left = right := by
  obtain ⟨_, leftCell⟩ := left
  obtain ⟨_, rightCell⟩ := right
  cases ids
  cases leftCell <;> cases rightCell <;> simp_all [Slot.requestRank, Fin.val_inj]

theorem Slot.lt_trans {first second third : Slot} (less : first < second) (further : second < third) :
    first < third := by
  rw [Slot.lt_iff] at less further ⊢
  omega

theorem Slot.lt_of_not_lt (different : left ≠ right) (notLess : ¬ left < right) : right < left := by
  have apart : left.id ≠ right.id ∨ left.requestRank ≠ right.requestRank := by
    by_contra same
    rw [not_or, not_ne_iff, not_ne_iff] at same
    exact different (Slot.eq_of_requestRank same.1 same.2)
  rw [Slot.lt_iff] at notLess ⊢
  omega

theorem Slot.pairwise_ofList (slots : List Slot) : (Ascending.ofList slots).Pairwise (· < ·) :=
  Ascending.pairwise_ofList Slot.lt_trans Slot.lt_of_not_lt slots

/-- No slot is listed twice. -/
theorem Slot.nodup_of_pairwise {slots : List Slot} (ascending : slots.Pairwise (· < ·)) :
    slots.Nodup := by
  refine ascending.imp fun {left right} less same => ?_
  rw [same, Slot.lt_iff] at less
  omega

namespace SlotAssignment

variable {assignment : SlotAssignment} {slots : List Slot}

theorem nodup_cells : assignment.cells.Nodup :=
  (Ascending.pairwise_ofList lt_trans (fun different notLess =>
    lt_of_le_of_ne (not_lt.mp notLess) different.symm) _).imp ne_of_lt

/-- Slots that do not share cells take up as many cells. -/
theorem length_le_cells (nodup : slots.Nodup)
    (covered : ∀ slot ∈ slots, ∃ cell, assignment.cell? slot = some cell)
    (apart : ∀ left ∈ slots, ∀ right ∈ slots, ∀ cell, assignment.cell? left = some cell →
      assignment.cell? right = some cell → left = right) :
    slots.length ≤ assignment.cells.length := by
  have cells : (slots.map assignment.cell?).Nodup := by
    refine nodup.map_on fun left isLeft right isRight same => ?_
    obtain ⟨cell, leftAt⟩ := covered left isLeft
    exact apart left isLeft right isRight cell leftAt (same ▸ leftAt)
  have inside : ∀ found ∈ slots.map assignment.cell?, found ∈ assignment.cells.map some := by
    intro found member
    obtain ⟨slot, isSlot, rfl⟩ := List.mem_map.mp member
    obtain ⟨cell, isCell⟩ := covered slot isSlot
    rw [isCell]
    have isUsed := List.mem_map_of_mem (f := Prod.snd) (mem_of_lookup isCell)
    exact List.mem_map_of_mem (Ascending.mem_ofList.mpr isUsed)
  simpa using (cells.subperm inside).length_le

end SlotAssignment

namespace SlotUsage

variable {usage : SlotUsage} {flat : RoutineTable FlatCode} {routine : Routine}

theorem nodup_locals (sets : ∀ entry ∈ usage.perRoutine, entry.2.Nodup) :
    ((usage.locals.lookup routine).getD []).Nodup := by
  rw [locals, lookup_mapValue fun _ (slots : List Slot) =>
    slots.filter fun slot => !usage.isGlobal slot]
  cases found : usage.perRoutine.lookup routine with
  | none => exact List.nodup_nil
  | some slots => exact (sets _ (mem_of_lookup found)).filter _

/-- A routine lists each of its slots once. -/
theorem nodup_ofRoutines : ∀ entry ∈ (ofRoutines flat).perRoutine, entry.2.Nodup :=
  List.forall_mem_map.mpr fun _ _ => Slot.nodup_of_pairwise (Slot.pairwise_ofList _)

/-- Every slot that a routine mentions has a cell. -/
theorem exists_cell {slot : Slot}
    (assigned : SlotAssignment.assign (ofRoutines flat) graph share = .ok slots)
    (mentioned : slot ∈ (ofRoutines flat).slotsOf routine) :
    ∃ cell, slots.cell? slot = some cell := by
  obtain ⟨listed, member, isSlot⟩ := mem_perRoutine_of_slotsOf mentioned
  exact SlotAssignment.exists_cell assigned (mem_all.mpr ⟨_, member, isSlot⟩)

/-- Slots of one routine do not share cells. -/
theorem eq_of_same_cell {cell : Cell}
    (assigned : SlotAssignment.assign (ofRoutines flat) graph share = .ok slots)
    (hasLeft : left ∈ (ofRoutines flat).slotsOf routine)
    (hasRight : right ∈ (ofRoutines flat).slotsOf routine) (leftAt : slots.cell? left = some cell)
    (rightAt : slots.cell? right = some cell) : left = right := by
  by_contra different
  obtain ⟨first, second, inFirst, inSecond, exclusive⟩ :=
    SlotAssignment.exclusive_of_same_cell assigned leftAt rightAt different
  rw [mem_privateSlots] at inFirst inSecond
  have one := eq_of_mem_slotsOf inFirst.2.1 hasLeft inFirst.1
  have two := eq_of_mem_slotsOf inSecond.2.1 hasRight inSecond.1
  cases one.symm.trans two
  simp [CallGraph.exclusive] at exclusive

/-- A routine has no more slots of its own than there are cells. -/
theorem length_locals_le
    (assigned : SlotAssignment.assign (ofRoutines flat) graph share = .ok slots) :
    (((ofRoutines flat).locals.lookup routine).getD []).length ≤ cellCount := by
  have few : slots.cells.length ≤ cellCount := by
    simpa using (SlotAssignment.nodup_cells.subperm fun cell _ => List.mem_finRange cell).length_le
  refine Nat.le_trans (SlotAssignment.length_le_cells (nodup_locals nodup_ofRoutines) ?_ ?_) few
  · exact fun slot isLocal => exists_cell assigned (mem_locals.mp isLocal).1
  · exact fun left isLeft right isRight cell =>
      eq_of_same_cell assigned (mem_locals.mp isLeft).1 (mem_locals.mp isRight).1

end SlotUsage

/-! ## Less usage -/

namespace SlotUsage

variable {usage : SlotUsage} {routine other : Routine} {slot : Slot}

theorem isGlobal_of_ne (different : routine ≠ other) (mentioned : slot ∈ usage.slotsOf routine)
    (mentionedToo : slot ∈ usage.slotsOf other) : usage.isGlobal slot = true := by
  by_contra isLocal
  exact different (eq_of_mem_slotsOf (Bool.eq_false_of_not_eq_true isLocal) mentioned mentionedToo)

theorem exists_of_isGlobal (nodup : (usage.perRoutine.map Prod.fst).Nodup)
    (isGlobal : usage.isGlobal slot = true) :
    ∃ first second, first ≠ second ∧ slot ∈ usage.slotsOf first ∧ slot ∈ usage.slotsOf second := by
  have many : 1 < (usage.perRoutine.filter fun entry => decide (slot ∈ entry.2)).length := by
    rw [← List.countP_eq_length_filter]
    simpa [SlotUsage.isGlobal] using isGlobal
  have part : (usage.perRoutine.filter fun entry => decide (slot ∈ entry.2)).Sublist
      usage.perRoutine := List.filter_sublist
  have each : ∀ entry ∈ usage.perRoutine.filter fun entry => decide (slot ∈ entry.2),
      slot ∈ usage.slotsOf entry.1 := by
    intro entry member
    rw [List.mem_filter, decide_eq_true_eq] at member
    rw [slotsOf, lookup_of_mem nodup member.1]
    exact member.2
  rcases found : usage.perRoutine.filter fun entry => decide (slot ∈ entry.2) with
    _ | ⟨first, _ | ⟨second, rest⟩⟩ <;> rw [found] at many part each
  · cases many
  · exact absurd many (Nat.lt_irrefl 1)
  · refine ⟨first.1, second.1, ?_, each first (by simp), each second (by simp)⟩
    have apart := (part.map Prod.fst).nodup nodup
    simp only [List.map_cons, List.nodup_cons, List.mem_cons, not_or] at apart
    exact apart.1.1

theorem keys_ofRoutines (flat : RoutineTable FlatCode) :
    (ofRoutines flat).perRoutine.map Prod.fst = flat.map Prod.fst := by
  simp [ofRoutines]

end SlotUsage

/-- Routines whose code does without some slots of its own. -/
structure Trims (before after : RoutineTable FlatCode) : Prop where
  keys : after.map Prod.fst = before.map Prod.fst
  less : ∀ routine, ∀ slot ∈ (SlotUsage.ofRoutines after).slotsOf routine,
    slot ∈ (SlotUsage.ofRoutines before).slotsOf routine
  keeps : ∀ routine slot, (SlotUsage.ofRoutines before).isGlobal slot = true →
    slot ∈ (SlotUsage.ofRoutines before).slotsOf routine →
    slot ∈ (SlotUsage.ofRoutines after).slotsOf routine
  calls : CallGraph.ofRoutines after = CallGraph.ofRoutines before

namespace Trims

variable {before middle after : RoutineTable FlatCode} {slot : Slot} {routine other : Routine}

theorem refl (flat : RoutineTable FlatCode) : Trims flat flat :=
  ⟨rfl, fun _ _ mentioned => mentioned, fun _ _ _ mentioned => mentioned, rfl⟩

theorem isGlobal_eq (trims : Trims before after) (nodup : (before.map Prod.fst).Nodup) :
    (SlotUsage.ofRoutines after).isGlobal slot = (SlotUsage.ofRoutines before).isGlobal slot := by
  rw [Bool.eq_iff_iff]
  constructor
  · intro isGlobal
    obtain ⟨first, second, different, inFirst, inSecond⟩ := SlotUsage.exists_of_isGlobal
      (by rwa [SlotUsage.keys_ofRoutines, trims.keys]) isGlobal
    exact SlotUsage.isGlobal_of_ne different (trims.less _ _ inFirst) (trims.less _ _ inSecond)
  · intro isGlobal
    obtain ⟨first, second, different, inFirst, inSecond⟩ := SlotUsage.exists_of_isGlobal
      (by rwa [SlotUsage.keys_ofRoutines]) isGlobal
    exact SlotUsage.isGlobal_of_ne different (trims.keeps _ _ isGlobal inFirst)
      (trims.keeps _ _ isGlobal inSecond)

theorem trans (first : Trims before middle) (second : Trims middle after)
    (nodup : (before.map Prod.fst).Nodup) : Trims before after where
  keys := second.keys.trans first.keys
  less routine slot mentioned := first.less routine slot (second.less routine slot mentioned)
  keeps routine slot isGlobal mentioned :=
    second.keeps routine slot ((first.isGlobal_eq nodup).trans isGlobal)
      (first.keeps routine slot isGlobal mentioned)
  calls := second.calls.trans first.calls

/-- A slot that is still in use is local to the routine that it was local to. -/
theorem mem_locals_iff (trims : Trims before after) (nodup : (before.map Prod.fst).Nodup)
    (mentioned : slot ∈ (SlotUsage.ofRoutines after).slotsOf other) :
    slot ∈ ((SlotUsage.ofRoutines after).locals.lookup routine).getD [] ↔
      slot ∈ ((SlotUsage.ofRoutines before).locals.lookup routine).getD [] := by
  rw [SlotUsage.mem_locals, SlotUsage.mem_locals, trims.isGlobal_eq nodup]
  refine and_congr_left fun isLocal => ⟨trims.less routine slot, fun mentionedToo => ?_⟩
  cases SlotUsage.eq_of_mem_slotsOf isLocal mentionedToo (trims.less other slot mentioned)
  exact mentioned

theorem length_locals_le (trims : Trims before after) (nodup : (before.map Prod.fst).Nodup) :
    (((SlotUsage.ofRoutines after).locals.lookup routine).getD []).length ≤
      (((SlotUsage.ofRoutines before).locals.lookup routine).getD []).length := by
  refine ((SlotUsage.nodup_locals SlotUsage.nodup_ofRoutines).subperm fun slot isLocal => ?_).length_le
  exact (trims.mem_locals_iff nodup (SlotUsage.mem_locals.mp isLocal).1).mp isLocal

end Trims

end ContractBackend
