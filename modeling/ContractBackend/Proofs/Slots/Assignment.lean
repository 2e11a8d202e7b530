import ContractBackend.Proofs.CallGraph
import ContractBackend.Slots.Assignment
import Mathlib.Algebra.GroupWithZero.Nat
import Mathlib.Data.List.Sort

/-!
# Which slots share a cell

Two slots have the same cell only if each is the private slot of a subroutine, and the
two subroutines are never active at the same time.
-/

namespace ContractBackend

/-- Elements paired with the same one of some distinct elements are the same. -/
theorem zip_inj {α β : Type} {left : List α} {right : List β} (nodup : right.Nodup)
    {first second : α} {shared : β} (firstPaired : (first, shared) ∈ left.zip right)
    (secondPaired : (second, shared) ∈ left.zip right) : first = second := by
  induction left generalizing right with
  | nil => simp at firstPaired
  | cons head tail ih =>
    cases right with
    | nil => simp at firstPaired
    | cons other others =>
      rw [List.zip_cons_cons, List.mem_cons, Prod.mk.injEq] at firstPaired secondPaired
      obtain ⟨absent, nodup⟩ := List.nodup_cons.mp nodup
      rcases firstPaired with ⟨rfl, rfl⟩ | firstLater <;>
        rcases secondPaired with ⟨rfl, equal⟩ | secondLater
      · rfl
      · exact absurd (List.of_mem_zip secondLater).2 absent
      · subst equal
        exact absurd (List.of_mem_zip firstLater).2 absent
      · exact ih nodup firstLater secondLater

namespace CallGraph

theorem exclusive_symm {graph : CallGraph} {left right : SubroutineId}
    (apart : graph.exclusive left right = true) : graph.exclusive right left = true := by
  simp only [exclusive, ne_eq, decide_not, Bool.and_eq_true, Bool.not_eq_true',
    decide_eq_false_iff_not] at apart ⊢
  exact ⟨⟨fun equal => apart.1.1 equal.symm, apart.2⟩, apart.1.2⟩

end CallGraph

namespace SharingGroup

/-- The members of a group are never active at the same time, neither with each other nor with
the subroutines that the group may still take in. -/
structure Sound (graph : CallGraph) (group : SharingGroup) : Prop where
  members : ∀ left ∈ group.members, ∀ right ∈ group.members, left ≠ right →
    graph.exclusive left right = true
  exclusive : ∀ left ∈ group.members, ∀ right ∈ group.exclusive,
    graph.exclusive left right = true

variable {graph : CallGraph} {group other : SharingGroup} {groups : List SharingGroup}
  {before : SharingGroup → SharingGroup → Bool}

theorem Sound.absorb (sound : group.Sound graph) (otherSound : other.Sound graph)
    (accepts : group.accepts other = true) : (group.absorb other).Sound graph := by
  have apart : ∀ left ∈ group.members, ∀ right ∈ other.members,
      graph.exclusive left right = true := by
    intro left isMember right isOther
    have accepted := List.all_eq_true.mp accepts right isOther
    exact sound.exclusive left isMember right (of_decide_eq_true accepted)
  constructor
  · simp only [SharingGroup.absorb, Ascending.mem_union]
    rintro left (inGroup | inOther) right (inGroup' | inOther') different
    · exact sound.members left inGroup right inGroup' different
    · exact apart left inGroup right inOther'
    · exact CallGraph.exclusive_symm (apart right inGroup' left inOther)
    · exact otherSound.members left inOther right inOther' different
  · simp only [SharingGroup.absorb, Ascending.mem_union, List.mem_filter, decide_eq_true_eq]
    rintro left (inGroup | inOther) right ⟨ofGroup, ofOther⟩
    · exact sound.exclusive left inGroup right ofGroup
    · exact otherSound.exclusive left inOther right ofOther

/-- Groups are put in order as by the sort of the library. -/
theorem sort_eq_insertionSort :
    sort before groups = groups.insertionSort fun left right => before left right := by
  have placed : ∀ group sorted, insert before group sorted =
      sorted.orderedInsert (fun left right => before left right) group := by
    intro group sorted
    induction sorted with
    | nil => rfl
    | cons head tail ih => rw [insert, List.orderedInsert, ih]
  induction groups with
  | nil => rfl
  | cons head tail ih =>
    rw [List.insertionSort_cons, ← ih, ← placed]
    rfl

theorem sort_perm : (sort before groups).Perm groups :=
  sort_eq_insertionSort ▸ List.perm_insertionSort _ groups

/-- A merge makes one group of a group and another one that it accepts. -/
theorem mergeOnce?_eq_some {fewer : List SharingGroup} (merged : mergeOnce? groups = some fewer) :
    ∃ group other rest, groups.Perm (group :: other :: rest) ∧ group.accepts other = true ∧
      fewer.Perm (group.absorb other :: rest) := by
  induction groups generalizing fewer with
  | nil => cases merged
  | cons head tail ih =>
    rw [mergeOnce?] at merged
    split at merged
    next other found =>
      cases merged
      have member := List.mem_of_find?_eq_some found
      exact ⟨head, other, tail.erase other, (List.perm_cons_erase member).cons head,
        List.find?_some found, .refl _⟩
    next =>
      obtain ⟨later, laterMerged, rfl⟩ := Option.map_eq_some_iff.mp merged
      obtain ⟨group, other, rest, split, accepts, result⟩ := ih laterMerged
      refine ⟨group, other, head :: rest, ?_, accepts, ?_⟩
      · exact (split.cons head).trans ((List.Perm.swap group head _).trans
          ((List.Perm.swap other head rest).cons group))
      · exact (result.cons head).trans (.swap _ head rest)

/-- What holds of groups in any order and is kept where two of them are merged holds at the end. -/
theorem mergeWithin_keeps {property : List SharingGroup → Prop}
    (reorder : ∀ {groups others}, groups.Perm others → property groups → property others)
    (merge : ∀ {group other rest}, group.accepts other = true →
      property (group :: other :: rest) → property (group.absorb other :: rest))
    (holds : property groups) (count : Nat) : property (mergeWithin count groups) := by
  induction count generalizing groups with
  | zero => exact reorder sort_perm.symm holds
  | succ count ih =>
    have sorted : property (sort SharingGroup.before groups) := reorder sort_perm.symm holds
    rw [mergeWithin]
    split
    next fewer merged =>
      obtain ⟨group, other, rest, split, accepts, result⟩ := mergeOnce?_eq_some merged
      exact ih (reorder result.symm (merge accepts (reorder split sorted)))
    next => exact sorted

end SharingGroup

namespace SlotAssignment

open SharingGroup (Sound)

variable {graph : CallGraph} {usage : SlotUsage} {sharing : List (SubroutineId × List Slot)}
  {assignment : SlotAssignment} {entries : List (Slot × Cell)} {free cells : List Cell}
  {cell : Cell} {share : Bool}

/-! ## What assignment is made of -/

theorem take_eq_ok {count : Nat} {rest : List Cell} :
    take count free = .ok (cells, rest) ↔
      count ≤ free.length ∧ cells = free.take count ∧ rest = free.drop count := by
  rw [take]
  split
  next enough => simp [enough, eq_comm]
  next short => simp [short]

/-- The reserved ones among some slots, with the cells they ask for. -/
def requests (slots : List Slot) : List (Slot × Cell) :=
  slots.filterMap fun slot => slot.requested.map (Prod.mk slot)

theorem mem_requests {slots : List Slot} {slot : Slot} :
    (slot, cell) ∈ requests slots ↔ slot ∈ slots ∧ slot.requested = some cell := by
  simp only [requests, List.mem_filterMap, Option.map_eq_some_iff, Prod.mk.injEq]
  constructor
  · rintro ⟨_, member, _, requested, rfl, rfl⟩
    exact ⟨member, requested⟩
  · rintro ⟨member, requested⟩
    exact ⟨slot, member, cell, requested, rfl, rfl⟩

/-- Reserved slots get the cells they ask for if no two of them ask for the same one. -/
theorem reserve_eq_ok {slots : List Slot} {result : List (Slot × Cell)}
    (nodup : (entries.map Prod.snd).Nodup) :
    reserve slots entries = .ok result ↔
      result = entries ++ requests slots ∧ (result.map Prod.snd).Nodup := by
  induction slots generalizing entries with
  | nil =>
    rw [reserve, requests, List.filterMap_nil, List.append_nil, Except.ok.injEq]
    exact ⟨fun same => ⟨same.symm, same ▸ nodup⟩, fun same => same.1.symm⟩
  | cons slot rest ih =>
    rw [reserve]
    split
    next none =>
      rw [ih nodup, requests, requests, List.filterMap_cons, none, Option.map_none]
    next cell requested =>
      have first : requests (slot :: rest) = (slot, cell) :: requests rest := by
        rw [requests, List.filterMap_cons, requested, Option.map_some]
        rfl
      rw [first]
      split
      next taken =>
        refine iff_of_false (by simp) ?_
        rintro ⟨rfl, apart⟩
        rw [List.map_append, List.map_cons, List.nodup_append] at apart
        exact apart.2.2 cell taken cell List.mem_cons_self rfl
      next fresh =>
        rw [ih, List.append_assoc, List.singleton_append]
        rw [List.map_append, List.map_singleton, List.nodup_append]
        refine ⟨nodup, List.nodup_singleton _, ?_⟩
        rintro other isOther _ same rfl
        obtain rfl := List.mem_singleton.mp same
        exact fresh isOther

theorem reserve_all {reserved : List (Slot × Cell)} :
    reserve (usage.all.filter Slot.isReserved) [] = .ok reserved ↔
      reserved = requests usage.all ∧ (reserved.map Prod.snd).Nodup := by
  have same : requests (usage.all.filter Slot.isReserved) = requests usage.all := by
    rw [requests, List.filterMap_filter, requests]
    refine List.filterMap_congr fun slot _ => ?_
    cases requested : slot.requested <;> simp [Slot.isReserved, requested]
  rw [← same]
  exact reserve_eq_ok List.nodup_nil

/-- The slots that share cells, if they are to. -/
def sharingOf (usage : SlotUsage) (share : Bool) : List (SubroutineId × List Slot) :=
  if share then shareable usage else []

/-- The slots with a cell to themselves that are not reserved. -/
def alone (usage : SlotUsage) (share : Bool) : List Slot :=
  usage.all.filter fun slot => !slot.isReserved && slot ∉ (sharingOf usage share).flatMap Prod.snd

/-- The cells that no reserved slot asks for. -/
def openCells (usage : SlotUsage) : List Cell := freeCells ((requests usage.all).map Prod.snd)

theorem nodup_openCells : (openCells usage).Nodup := by
  rw [openCells, freeCells]
  exact (List.nodup_finRange cellCount).filter _

/-- Slots have cells if the reserved ones do not clash and there are cells enough for the others. -/
theorem assign_eq_ok :
    assign usage graph share = .ok assignment ↔
      ((requests usage.all).map Prod.snd).Nodup ∧
      (alone usage share).length ≤ (openCells usage).length ∧
      ∃ shared, assignGroups (sharingOf usage share) (groups graph (sharingOf usage share))
          ((openCells usage).drop (alone usage share).length) = .ok shared ∧
        assignment = ⟨Keyed.ofList (requests usage.all ++ (alone usage share).zip
          ((openCells usage).take (alone usage share).length) ++ shared)⟩ := by
  simp only [assign, Fallible.bind_eq_ok, Prod.exists, reserve_all, take_eq_ok, Fallible.pure_eq_ok]
  constructor
  · rintro ⟨_, ⟨rfl, nodup⟩, _, _, ⟨enough, rfl, rfl⟩, shared, sharedOk, rfl⟩
    exact ⟨nodup, enough, shared, sharedOk, rfl⟩
  · rintro ⟨nodup, enough, shared, sharedOk, rfl⟩
    exact ⟨_, ⟨rfl, nodup⟩, _, _, ⟨enough, rfl, rfl⟩, shared, sharedOk, rfl⟩

/-! ## Groups -/

/-- What holds of single subroutines and is kept by merging holds of the groups. -/
theorem groups_keep (property : List SharingGroup → Prop)
    (reorder : ∀ {groups others}, groups.Perm others → property groups → property others)
    (merge : ∀ {group other rest}, group.accepts other = true →
      property (group :: other :: rest) → property (group.absorb other :: rest))
    (single : property (sharing.map fun entry =>
      { members := [entry.1]
        size := entry.2.length
        exclusive := (sharing.map Prod.fst).filter (graph.exclusive entry.1) })) :
    property (groups graph sharing) :=
  reorder SharingGroup.sort_perm.symm (SharingGroup.mergeWithin_keeps reorder merge single _)

theorem forall_groups {property : SharingGroup → Prop}
    (kept : ∀ group other, property group → property other → group.accepts other = true →
      property (group.absorb other))
    (single : ∀ entry ∈ sharing, property
      { members := [entry.1]
        size := entry.2.length
        exclusive := (sharing.map Prod.fst).filter (graph.exclusive entry.1) }) :
    ∀ group ∈ groups graph sharing, property group := by
  refine groups_keep (fun groups => ∀ group ∈ groups, property group)
    (fun same every group member => every group (same.mem_iff.mpr member))
    (fun {group other rest} accepts every => ?_) (List.forall_mem_map.mpr single)
  rw [List.forall_mem_cons, List.forall_mem_cons] at every
  exact List.forall_mem_cons.mpr ⟨kept group other every.1 every.2.1 accepts, every.2.2⟩

theorem groups_sound : ∀ group ∈ groups graph sharing, group.Sound graph := by
  refine forall_groups (fun group other sound otherSound => sound.absorb otherSound) ?_
  intro entry _
  constructor
  · simp +contextual
  · simp only [List.mem_singleton, List.mem_filter]
    rintro _ rfl right ⟨_, apart⟩
    exact apart

/-- The slots of a subroutine that take part in sharing. -/
def slotsIn (sharing : List (SubroutineId × List Slot)) (id : SubroutineId) : List Slot :=
  (sharing.lookup id).getD []

/-- Two slots that may have the same cell. -/
def Tolerates (graph : CallGraph) (sharing : List (SubroutineId × List Slot))
    (left right : Slot) : Prop :=
  ∃ first second, left ∈ slotsIn sharing first ∧ right ∈ slotsIn sharing second ∧
    graph.exclusive first second = true

/-- Entries that give one cell only to slots that tolerate it. -/
def Separate (graph : CallGraph) (sharing : List (SubroutineId × List Slot))
    (entries : List (Slot × Cell)) : Prop :=
  ∀ left right cell, (left, cell) ∈ entries → (right, cell) ∈ entries →
    left = right ∨ Tolerates graph sharing left right

/-- Entries with cells of their own. -/
theorem Separate.append {others : List (Slot × Cell)} (first : Separate graph sharing entries)
    (second : Separate graph sharing others)
    (disjoint : ∀ entry ∈ entries, ∀ other ∈ others, entry.2 ≠ other.2) :
    Separate graph sharing (entries ++ others) := by
  intro left right cell leftIn rightIn
  rcases List.mem_append.mp leftIn with leftIn | leftIn <;>
    rcases List.mem_append.mp rightIn with rightIn | rightIn
  · exact first left right cell leftIn rightIn
  · exact (disjoint _ leftIn _ rightIn rfl).elim
  · exact (disjoint _ rightIn _ leftIn rfl).elim
  · exact second left right cell leftIn rightIn

theorem separate_zip (slots : List Slot) (nodup : cells.Nodup) :
    Separate graph sharing (slots.zip cells) :=
  fun _ _ _ leftIn rightIn => .inl (zip_inj nodup leftIn rightIn)

theorem separate_group {group : SharingGroup} (sound : group.Sound graph) (nodup : cells.Nodup) :
    Separate graph sharing (group.members.flatMap fun member =>
      (slotsIn sharing member).zip cells) := by
  intro left right cell leftIn rightIn
  obtain ⟨first, isFirst, leftPaired⟩ := List.mem_flatMap.mp leftIn
  obtain ⟨second, isSecond, rightPaired⟩ := List.mem_flatMap.mp rightIn
  by_cases same : first = second
  · subst same
    exact .inl (zip_inj nodup leftPaired rightPaired)
  · exact .inr ⟨first, second, (List.of_mem_zip leftPaired).1, (List.of_mem_zip rightPaired).1,
      sound.members first isFirst second isSecond same⟩

theorem assignGroups_cons {group : SharingGroup} {rest : List SharingGroup} :
    assignGroups sharing (group :: rest) free = .ok entries ↔ group.size ≤ free.length ∧
      ∃ others, assignGroups sharing rest (free.drop group.size) = .ok others ∧
        entries = (group.members.flatMap fun member =>
          (slotsIn sharing member).zip (free.take group.size)) ++ others := by
  simp only [assignGroups, Fallible.bind_eq_ok, Prod.exists, take_eq_ok, Fallible.pure_eq_ok]
  constructor
  · rintro ⟨_, _, ⟨enough, rfl, rfl⟩, others, isOk, rfl⟩
    exact ⟨enough, others, isOk, rfl⟩
  · rintro ⟨enough, others, isOk, rfl⟩
    exact ⟨_, _, ⟨enough, rfl, rfl⟩, others, isOk, rfl⟩

/-- Groups give shared slots the first cells, as many as the sizes of the groups add up to. -/
theorem mem_of_assignGroups {groups : List SharingGroup}
    (assigned : assignGroups sharing groups free = .ok entries) :
    ∀ entry ∈ entries, (∃ id, entry.1 ∈ slotsIn sharing id) ∧
      entry.2 ∈ free.take (groups.map SharingGroup.size).sum := by
  induction groups generalizing free entries with
  | nil =>
    cases assigned
    exact List.forall_mem_nil _
  | cons group rest ih =>
    obtain ⟨_, others, restAssigned, rfl⟩ := assignGroups_cons.mp assigned
    rw [List.map_cons, List.sum_cons, List.take_add]
    refine List.forall_mem_append.mpr ⟨fun entry isEntry => ?_, fun entry isEntry => ?_⟩
    · obtain ⟨id, _, paired⟩ := List.mem_flatMap.mp isEntry
      exact ⟨⟨id, (List.of_mem_zip paired).1⟩, List.mem_append_left _ (List.of_mem_zip paired).2⟩
    · obtain ⟨isShared, inside⟩ := ih restAssigned entry isEntry
      exact ⟨isShared, List.mem_append_right _ inside⟩

theorem separate_assignGroups {groups : List SharingGroup}
    (sound : ∀ group ∈ groups, group.Sound graph) (nodup : free.Nodup)
    (assigned : assignGroups sharing groups free = .ok entries) :
    Separate graph sharing entries := by
  induction groups generalizing free entries with
  | nil =>
    cases assigned
    simp [Separate]
  | cons group rest ih =>
    rw [List.forall_mem_cons] at sound
    obtain ⟨_, others, restAssigned, rfl⟩ := assignGroups_cons.mp assigned
    rw [← List.take_append_drop group.size free] at nodup
    obtain ⟨firstNodup, restNodup, apart⟩ := List.nodup_append.mp nodup
    refine (separate_group sound.1 firstNodup).append (ih sound.2 restNodup restAssigned) ?_
    intro entry inGroup other inRest
    obtain ⟨_, _, paired⟩ := List.mem_flatMap.mp inGroup
    exact apart _ (List.of_mem_zip paired).2 _
      (List.mem_of_mem_take (mem_of_assignGroups restAssigned other inRest).2)

theorem separate_of_nodup (nodup : (entries.map Prod.snd).Nodup) :
    Separate graph sharing entries := by
  intro left right cell leftIn rightIn
  have same := List.inj_on_of_nodup_map nodup leftIn rightIn rfl
  exact .inl (congrArg Prod.fst same)

/-- Slots get the same cell only if they tolerate it. -/
theorem assign_separate (assigned : assign usage graph share = .ok assignment) {left right : Slot}
    (leftAt : assignment.cell? left = some cell) (rightAt : assignment.cell? right = some cell) :
    left = right ∨ Tolerates graph (sharingOf usage share) left right := by
  obtain ⟨nodup, _, shared, isShared, rfl⟩ := assign_eq_ok.mp assigned
  have free : (openCells usage).Nodup := nodup_openCells
  have outside : ∀ cell ∈ openCells usage, cell ∉ (requests usage.all).map Prod.snd :=
    fun cell member => of_decide_eq_true (List.mem_filter.mp member).2
  rw [← List.take_append_drop (alone usage share).length (openCells usage)] at free outside
  obtain ⟨firstNodup, restNodup, apart⟩ := List.nodup_append.mp free
  have inside : ∀ entry ∈ shared,
      entry.2 ∈ (openCells usage).drop (alone usage share).length := fun entry isEntry =>
    List.mem_of_mem_take (mem_of_assignGroups isShared entry isEntry).2
  refine Separate.append (.append (separate_of_nodup nodup) (separate_zip _ firstNodup) ?_)
    (separate_assignGroups groups_sound restNodup isShared) ?_ left right cell
    (Keyed.mem_of_lookup_ofList leftAt) (Keyed.mem_of_lookup_ofList rightAt)
  · intro entry isRequest other paired equal
    exact outside _ (List.mem_append_left _ (List.of_mem_zip paired).2)
      (List.mem_map.mpr ⟨entry, isRequest, equal⟩)
  · intro entry isEntry other isOther equal
    rcases List.mem_append.mp isEntry with isRequest | paired
    · exact outside _ (List.mem_append_right _ (inside other isOther))
        (List.mem_map.mpr ⟨entry, isRequest, equal⟩)
    · exact apart _ (List.of_mem_zip paired).2 _ (inside other isOther) equal

/-- What a subroutine shares are its private slots. -/
theorem shareable_eq_some {entry : Routine × List Slot} {shared : SubroutineId × List Slot}
    (made : (do
      let id ← entry.1.subroutine?
      let slots := usage.privateSlots entry.1
      if slots.isEmpty then none else some (id, slots)) = some shared) :
    entry.1 = .subroutine shared.1 ∧ shared.2 = usage.privateSlots (.subroutine shared.1) := by
  obtain ⟨routine, _⟩ := entry
  cases routine with
  | main => cases made
  | subroutine id =>
    simp only [Routine.subroutine?, Option.bind_eq_bind, Option.bind_some] at made
    split at made
    next => cases made
    next =>
      cases made
      exact ⟨rfl, rfl⟩

theorem slots_of_mem_shareable {entry : SubroutineId × List Slot}
    (member : entry ∈ shareable usage) : entry.2 = usage.privateSlots (.subroutine entry.1) := by
  obtain ⟨_, _, made⟩ := List.mem_filterMap.mp member
  exact (shareable_eq_some made).2

theorem mem_privateSlots_of_slotsIn {id : SubroutineId} {slot : Slot}
    (shared : slot ∈ slotsIn (shareable usage) id) :
    slot ∈ usage.privateSlots (.subroutine id) := by
  rw [slotsIn] at shared
  cases found : (shareable usage).lookup id with
  | none => simp [found] at shared
  | some slots =>
    rw [found] at shared
    exact slots_of_mem_shareable (mem_of_lookup found) ▸ shared

/-- Cells: two slots with the same cell are private slots of subroutines that are never active
at the same time. -/
theorem exclusive_of_same_cell (assigned : assign usage graph share = .ok assignment)
    {left right : Slot} (leftAt : assignment.cell? left = some cell)
    (rightAt : assignment.cell? right = some cell) (different : left ≠ right) :
    ∃ first second, left ∈ usage.privateSlots (.subroutine first) ∧
      right ∈ usage.privateSlots (.subroutine second) ∧ graph.exclusive first second = true := by
  obtain ⟨first, second, leftIn, rightIn, apart⟩ :=
    (assign_separate assigned leftAt rightAt).resolve_left different
  cases share with
  | false => cases leftIn
  | true =>
    exact ⟨first, second, mem_privateSlots_of_slotsIn leftIn, mem_privateSlots_of_slotsIn rightIn,
      apart⟩

end SlotAssignment

end ContractBackend
