import ContractBackend.Proofs.Fallible
import ContractBackend.Slots.Initialized

/-!
# Which slots are set where a stretch starts

The rounds over the stretches come to an end, and what they leave is exact: a checked slot is
missing at the start of a stretch if and only if some path from the start of the routine comes there
without a store to it. So the check refuses code if and only if a path comes to a load of a
checked slot too early.
-/

namespace ContractBackend.SlotInit

/-- Control can come to the start of a stretch through the given instructions. -/
inductive Arrives (stretches : List Stretch) : Nat → List Instr → Prop where
  | start : Arrives stretches 0 []
  | onward {number target : Nat} {passed : List Instr} {stretch : Stretch} :
      Arrives stretches number passed → stretches[number]? = some stretch →
      target ∈ stretch.successors → Arrives stretches target (passed ++ stretch.instrs)

/-- Control can come to the start of a stretch with nothing stored to a slot before. -/
def Unset (stretches : List Stretch) (slot : Slot) (number : Nat) : Prop :=
  ∃ passed, Arrives stretches number passed ∧ ∀ instr ∈ passed, instr.storesTo slot = false

/-- Some path from the start of the routine comes to a load of a slot with nothing stored to the
slot before. -/
def ReachesEarlyLoad (stretches : List Stretch) (slot : Slot) : Prop :=
  ∃ number passed stretch before instr after, Arrives stretches number passed ∧
    stretches[number]? = some stretch ∧ stretch.instrs = before ++ instr :: after ∧
    instr.loadsFrom slot = true ∧ ∀ other ∈ passed ++ before, other.storesTo slot = false

variable {stretches : List Stretch} {checked : List Slot} {sets lower : EntrySets} {slot : Slot}
  {position : Nat} {stretch : Stretch} {set : List Slot}

theorem stores_eq_false :
    stores stretch slot = false ↔ ∀ instr ∈ stretch.instrs, instr.storesTo slot = false := by
  simp [stores]

theorem Unset.start : Unset stretches slot 0 := ⟨[], .start, List.forall_mem_nil _⟩

theorem Unset.onward {target : Nat} (unset : Unset stretches slot position)
    (found : stretches[position]? = some stretch) (edge : target ∈ stretch.successors)
    (quiet : stores stretch slot = false) : Unset stretches slot target := by
  obtain ⟨passed, arrives, noStore⟩ := unset
  refine ⟨_, arrives.onward found edge, List.forall_mem_append.mpr ⟨noStore, ?_⟩⟩
  exact stores_eq_false.mp quiet

/-! ## One update -/

theorem slotsAt_set_self (inside : position < sets.length) (slots : List Slot) :
    EntrySets.slotsAt (sets.set position slots) position = slots := by
  simp [EntrySets.slotsAt, inside]

theorem slotsAt_set_of_ne {other : Nat} (different : other ≠ position) (slots : List Slot) :
    EntrySets.slotsAt (sets.set position slots) other = sets.slotsAt other := by
  rw [EntrySets.slotsAt, List.getElem?_set_ne different.symm, EntrySets.slotsAt]

theorem mem_meet : slot ∈ meet stretches checked sets position ↔ slot ∈ checked ∧
    ∀ number stretch, stretches[number]? = some stretch → position ∈ stretch.successors →
      slot ∈ sets.slotsAt number ∨ stores stretch slot = true := by
  simp only [meet, sources, leavesSet, List.mem_filter, List.all_eq_true, Bool.or_eq_true,
    decide_eq_true_eq, Prod.forall, List.mem_zipIdx_iff_getElem?, and_imp]
  exact and_congr_right fun _ => forall_comm

/-- Where fewer slots count as set, predecessors leave fewer slots set. -/
theorem meet_mono (below : ∀ number, lower.slotsAt number ⊆ sets.slotsAt number) :
    (meet stretches checked lower position).Sublist (meet stretches checked sets position) := by
  refine List.monotone_filter_right checked fun slot leaves => ?_
  simp only [List.all_eq_true, leavesSet, Bool.or_eq_true, decide_eq_true_eq] at leaves ⊢
  exact fun source isSource => (leaves source isSource).imp_left fun isSet => below _ isSet

/-- What holds while sets are brought up to date. -/
structure Approximates (stretches : List Stretch) (checked : List Slot) (sets : EntrySets) :
    Prop where
  length : sets.length = stretches.length
  first : sets.slotsAt 0 = []
  /-- Bringing a set up to date can only take slots away. -/
  above : ∀ position, position ≠ 0 → position < stretches.length →
    (meet stretches checked sets position).Sublist (sets.slotsAt position)
  /-- A slot is taken away for a reason. -/
  unset : ∀ slot ∈ checked, ∀ position < stretches.length, slot ∉ sets.slotsAt position →
    Unset stretches slot position

/-- The number of slots in all sets together. -/
def total (sets : EntrySets) : Nat := sets.flatten.length

theorem total_set_lt {slots : List Slot} (inside : position < sets.length)
    (fewer : slots.length < (sets.slotsAt position).length) :
    total (sets.set position slots) < total sets := by
  obtain ⟨before, after, whole, _, changed⟩ : ∃ before after, sets = before ++ sets[position] :: after ∧
      before.length = position ∧ sets.set position slots = before ++ slots :: after :=
    List.exists_of_set inside
  have here : sets.slotsAt position = sets[position] := by simp [EntrySets.slotsAt, inside]
  rw [total, total, changed, congrArg List.flatten whole]
  simp only [List.flatten_append, List.flatten_cons, List.length_append]
  rw [here] at fewer
  omega

namespace Approximates

variable (approximates : Approximates stretches checked sets) (notFirst : position ≠ 0)
  (inside : position < stretches.length)
include approximates notFirst inside

theorem below_update (number : Nat) :
    EntrySets.slotsAt (update stretches checked sets position) number ⊆ sets.slotsAt number := by
  by_cases same : number = position
  · subst same
    rw [update, slotsAt_set_self (approximates.length ▸ inside)]
    exact (approximates.above number notFirst inside).subset
  · rw [update, slotsAt_set_of_ne same]
    exact List.Subset.refl _

theorem of_update : Approximates stretches checked (update stretches checked sets position) := by
  have here : EntrySets.slotsAt (update stretches checked sets position) position =
      meet stretches checked sets position := slotsAt_set_self (approximates.length ▸ inside) _
  have elsewhere : ∀ other, other ≠ position →
      EntrySets.slotsAt (update stretches checked sets position) other =
        sets.slotsAt other := fun other different => slotsAt_set_of_ne different _
  refine ⟨?_, ?_, fun other otherNotFirst otherInside => ?_, fun slot isChecked other otherInside => ?_⟩
  · rw [update, List.length_set, approximates.length]
  · rw [elsewhere 0 notFirst.symm, approximates.first]
  · refine (meet_mono (approximates.below_update notFirst inside)).trans ?_
    by_cases same : other = position
    · rw [same, here]
    · rw [elsewhere other same]
      exact approximates.above other otherNotFirst otherInside
  · by_cases same : other = position
    · subst same
      rw [here, mem_meet]
      intro missing
      simp only [isChecked, true_and, not_forall, not_or, Bool.not_eq_true] at missing
      obtain ⟨number, stretch, found, edge, notSet, quiet⟩ := missing
      have before := approximates.unset slot isChecked number
        (List.getElem?_eq_some_iff.mp found).1 notSet
      exact before.onward found edge quiet
    · rw [elsewhere other same]
      exact approximates.unset slot isChecked other otherInside

/-- An update changes nothing or takes a slot away. -/
theorem update_cases :
    update stretches checked sets position = sets ∧
        meet stretches checked sets position = sets.slotsAt position ∨
      total (update stretches checked sets position) < total sets := by
  have fewer := approximates.above position notFirst inside
  have within : position < sets.length := approximates.length ▸ inside
  rcases Nat.lt_or_eq_of_le fewer.length_le with less | same
  · exact .inr (total_set_lt within less)
  · have equal := fewer.eq_of_length same
    refine .inl ⟨?_, equal⟩
    rw [update, equal, EntrySets.slotsAt, List.getElem?_eq_getElem within, Option.getD_some,
      List.set_getElem_self]

end Approximates

/-! ## All rounds -/

/-- Updating some sets leaves them all as they are, up to date, or takes a slot away. -/
theorem Approximates.foldl_update (approximates : Approximates stretches checked sets)
    {positions : List Nat}
    (inside : ∀ position ∈ positions, position ≠ 0 ∧ position < stretches.length) :
    Approximates stretches checked (positions.foldl (update stretches checked) sets) ∧
      (positions.foldl (update stretches checked) sets = sets ∧
          (∀ position ∈ positions, meet stretches checked sets position = sets.slotsAt position) ∨
        total (positions.foldl (update stretches checked) sets) < total sets) := by
  induction positions generalizing sets with
  | nil => exact ⟨approximates, .inl ⟨rfl, List.forall_mem_nil _⟩⟩
  | cons position rest ih =>
    rw [List.forall_mem_cons] at inside
    obtain ⟨notFirst, within⟩ := inside.1
    obtain ⟨kept, changes⟩ := ih (approximates.of_update notFirst within) inside.2
    rw [List.foldl_cons]
    refine ⟨kept, ?_⟩
    rcases approximates.update_cases notFirst within with ⟨same, settled⟩ | less
    · rw [same] at changes ⊢
      refine changes.imp_left fun unchanged => ⟨unchanged.1, ?_⟩
      exact List.forall_mem_cons.mpr ⟨settled, unchanged.2⟩
    · rcases changes with ⟨same, _⟩ | further
      · right
        rwa [same]
      · exact .inr (Nat.lt_trans further less)

/-- Sets that another round does not change. -/
def Settled (stretches : List Stretch) (checked : List Slot) (sets : EntrySets) : Prop :=
  ∀ position, position ≠ 0 → position < stretches.length →
    meet stretches checked sets position = sets.slotsAt position

/-- A round changes nothing, and the sets are settled, or it takes a slot away. -/
theorem Approximates.of_round (approximates : Approximates stretches checked sets) :
    Approximates stretches checked (round stretches checked sets) ∧
      (round stretches checked sets = sets ∧ Settled stretches checked sets ∨
        total (round stretches checked sets) < total sets) := by
  have range : ∀ position, position ∈ List.range' 1 (stretches.length - 1) ↔
      position ≠ 0 ∧ position < stretches.length := by
    intro position
    rw [List.mem_range'_1]
    omega
  obtain ⟨kept, changes⟩ := approximates.foldl_update fun position => (range position).mp
  refine ⟨kept, changes.imp_left fun unchanged => ⟨unchanged.1, fun position notFirst inside => ?_⟩⟩
  exact unchanged.2 position ((range position).mpr ⟨notFirst, inside⟩)

/-- With as many rounds as there are slots in the sets, the rounds come to an end. -/
theorem Approximates.of_settle {count : Nat} (approximates : Approximates stretches checked sets)
    (enough : total sets ≤ count) :
    Approximates stretches checked (settle stretches checked count sets) ∧
      Settled stretches checked (settle stretches checked count sets) := by
  induction count generalizing sets with
  | zero =>
    rcases approximates.of_round.2 with ⟨_, settled⟩ | less
    · exact ⟨approximates, settled⟩
    · omega
  | succ count ih =>
    obtain ⟨kept, changes⟩ := approximates.of_round
    simp only [settle]
    split
    next same =>
      rcases changes with ⟨_, settled⟩ | less
      · exact ⟨approximates, settled⟩
      · rw [same] at less
        omega
    next changed =>
      rcases changes with ⟨same, _⟩ | less
      · exact absurd same changed
      · exact ih kept (by omega)

/-- The sets at the beginning: nothing is set at the start of the routine, and everything
everywhere else. -/
theorem Approximates.initial :
    Approximates stretches checked ((List.replicate stretches.length checked).set 0 []) := by
  have later : ∀ position, position ≠ 0 → position < stretches.length →
      EntrySets.slotsAt ((List.replicate stretches.length checked).set 0 []) position = checked := by
    intro position notFirst inside
    rw [slotsAt_set_of_ne notFirst, EntrySets.slotsAt, List.getElem?_replicate, if_pos inside,
      Option.getD_some]
  have first : EntrySets.slotsAt ((List.replicate stretches.length checked).set 0 []) 0 = [] := by
    cases stretches <;> rfl
  refine ⟨by simp, first, fun position notFirst inside => ?_, fun slot isChecked position inside => ?_⟩
  · rw [later position notFirst inside]
    exact List.filter_sublist
  · by_cases isFirst : position = 0
    · exact fun _ => isFirst ▸ Unset.start
    · rw [later position isFirst inside]
      exact fun missing => absurd isChecked missing

theorem total_initial_le : total ((List.replicate stretches.length checked).set 0 []) ≤
    stretches.length * checked.length := by
  cases stretches with
  | nil => simp [total]
  | cons _ rest =>
    have shape : (List.replicate (rest.length + 1) checked).set 0 [] =
        [] :: List.replicate rest.length checked := rfl
    rw [List.length_cons, shape, total, List.flatten_cons, List.nil_append,
      List.length_flatten, List.map_replicate, List.sum_replicate_nat]
    exact Nat.mul_le_mul_right _ (Nat.le_succ _)

/-- In settled sets, a slot that a path leaves unset is missing at the end of the path. -/
theorem Settled.not_mem (settled : Settled stretches checked sets) (first : sets.slotsAt 0 = [])
    (length : sets.length = stretches.length) (unset : Unset stretches slot position) :
    slot ∉ sets.slotsAt position := by
  obtain ⟨passed, arrives, quiet⟩ := unset
  induction arrives with
  | start => simp [first]
  | @onward number target passed stretch _ found edge ih =>
    rw [List.forall_mem_append] at quiet
    by_cases isFirst : target = 0
    · simp [isFirst, first]
    · by_cases inside : target < stretches.length
      · rw [← settled target isFirst inside, mem_meet]
        rintro ⟨_, every⟩
        rcases every number stretch found edge with isSet | stored
        · exact ih quiet.1 isSet
        · rw [stores_eq_false.mpr quiet.2] at stored
          cases stored
      · rw [EntrySets.slotsAt, List.getElem?_eq_none (by omega)]
        exact List.not_mem_nil

theorem length_entrySets : (entrySets stretches checked).length = stretches.length :=
  (Approximates.initial.of_settle total_initial_le).1.length

/-- The entry sets are exact: a checked slot is missing at the start of a stretch if and only
if some path comes there with nothing stored to it. -/
theorem not_mem_entrySets_iff (isChecked : slot ∈ checked) (inside : position < stretches.length) :
    slot ∉ (entrySets stretches checked).slotsAt position ↔ Unset stretches slot position := by
  have start : Approximates stretches checked ((List.replicate stretches.length checked).set 0 []) :=
    .initial
  obtain ⟨approximates, settled⟩ := start.of_settle total_initial_le
  exact ⟨approximates.unset slot isChecked position inside,
    settled.not_mem approximates.first approximates.length⟩

/-! ## Early loads -/

/-- What the search through a straight piece of code finds is loaded there with no store before. -/
theorem firstUnset?_eq_some {instrs : List Instr}
    (found : firstUnset? checked set instrs = some slot) :
    slot ∈ checked ∧ slot ∉ set ∧ ∃ before instr after, instrs = before ++ instr :: after ∧
      instr.loadsFrom slot = true ∧ ∀ other ∈ before, other.storesTo slot = false := by
  induction instrs generalizing set with
  | nil => cases found
  | cons head rest ih =>
    -- A head that does not store to the slot stands in front of what is found behind it.
    have extend : ∀ {set' : List Slot}, set ⊆ set' → head.storesTo slot = false →
        firstUnset? checked set' rest = some slot →
        slot ∈ checked ∧ slot ∉ set ∧ ∃ before instr after, head :: rest = before ++ instr :: after ∧
          instr.loadsFrom slot = true ∧ ∀ other ∈ before, other.storesTo slot = false := by
      intro set' more quiet later
      obtain ⟨isChecked, notSet, before, instr, after, rfl, loads, early⟩ := ih later
      exact ⟨isChecked, fun isSet => notSet (more isSet), head :: before, instr, after, rfl, loads,
        List.forall_mem_cons.mpr ⟨quiet, early⟩⟩
    simp only [firstUnset?] at found
    split at found
    next other direct =>
      split at found
      next isStore =>
        have notSet := (ih found).2.1
        rw [List.mem_cons, not_or] at notSet
        refine extend (List.subset_cons_self ..) ?_ found
        simp [Instr.storesTo, isStore, direct, Ne.symm notSet.1]
      next notStore =>
        split at found
        next early =>
          cases found
          simp only [Bool.and_eq_true, decide_eq_true_eq] at early
          exact ⟨early.1.2, early.2, [], head, rest, rfl, by simp [Instr.loadsFrom, early.1.1, direct],
            List.forall_mem_nil _⟩
        next => exact extend (List.Subset.refl _) (by simp [Instr.storesTo, notStore]) found
    next indirect => exact extend (List.Subset.refl _) (by simp [Instr.storesTo, indirect]) found

/-- A load with no store before is found, unless another one is found before. -/
theorem isSome_firstUnset? (isChecked : slot ∈ checked) (notSet : slot ∉ set)
    {before after : List Instr} {instr : Instr}
    (quiet : ∀ other ∈ before, other.storesTo slot = false) (loads : instr.loadsFrom slot = true) :
    (firstUnset? checked set (before ++ instr :: after)).isSome := by
  induction before generalizing set with
  | nil =>
    rw [Instr.loadsFrom_iff] at loads
    simp [firstUnset?, loads.1, loads.2, isChecked, notSet]
  | cons head tail ih =>
    rw [List.forall_mem_cons] at quiet
    simp only [List.cons_append, firstUnset?]
    split
    next other direct =>
      split
      next isStore =>
        have different : other ≠ slot := by
          simpa [Instr.storesTo, isStore, direct] using quiet.1
        refine ih ?_ quiet.2
        rw [List.mem_cons, not_or]
        exact ⟨different.symm, notSet⟩
      next =>
        split
        next => rfl
        next => exact ih notSet quiet.2
    next => exact ih notSet quiet.2

theorem mem_zip_entrySets :
    (stretch, set) ∈ stretches.zip (entrySets stretches checked) ↔
      ∃ number, stretches[number]? = some stretch ∧
        (entrySets stretches checked).slotsAt number = set := by
  simp only [List.mem_iff_getElem?, List.getElem?_zip_eq_some]
  refine exists_congr fun number => and_congr_right fun found => ?_
  have inside : number < (entrySets stretches checked).length :=
    length_entrySets ▸ (List.getElem?_eq_some_iff.mp found).1
  rw [EntrySets.slotsAt, List.getElem?_eq_getElem inside, Option.getD_some, Option.some_inj]

/-- A slot that is reported is checked, and some path comes to a load of it too early. -/
theorem reachesEarlyLoad_of_earlyLoad? (found : earlyLoad? stretches checked = some slot) :
    slot ∈ checked ∧ ReachesEarlyLoad stretches slot := by
  obtain ⟨⟨stretch, set⟩, member, isFound⟩ := List.exists_of_findSome?_eq_some found
  obtain ⟨number, atNumber, rfl⟩ := mem_zip_entrySets.mp member
  obtain ⟨isChecked, notSet, before, instr, after, whole, loads, quiet⟩ :=
    firstUnset?_eq_some isFound
  have inside := (List.getElem?_eq_some_iff.mp atNumber).1
  obtain ⟨passed, arrives, noStore⟩ := (not_mem_entrySets_iff isChecked inside).mp notSet
  exact ⟨isChecked, number, passed, stretch, before, instr, after, arrives, atNumber, whole, loads,
    List.forall_mem_append.mpr ⟨noStore, quiet⟩⟩

/-- If some path comes to a load of a checked slot too early, a slot is reported. -/
theorem earlyLoad?_ne_none (isChecked : slot ∈ checked) (early : ReachesEarlyLoad stretches slot) :
    earlyLoad? stretches checked ≠ none := by
  obtain ⟨number, passed, stretch, before, instr, after, arrives, found, whole, loads, quiet⟩ := early
  rw [List.forall_mem_append] at quiet
  have notSet : slot ∉ (entrySets stretches checked).slotsAt number :=
    (not_mem_entrySets_iff isChecked (List.getElem?_eq_some_iff.mp found).1).mpr
      ⟨passed, arrives, quiet.1⟩
  have caught : (firstUnset? checked _ (before ++ instr :: after)).isSome :=
    isSome_firstUnset? isChecked notSet quiet.2 loads
  intro none
  have missed := List.findSome?_eq_none_iff.mp none (stretch, _)
    (mem_zip_entrySets.mpr ⟨number, found, rfl⟩)
  rw [← whole, missed] at caught
  cases caught

theorem earlyLoad?_eq_none : earlyLoad? stretches checked = none ↔
    ∀ slot ∈ checked, ¬ ReachesEarlyLoad stretches slot := by
  constructor
  · exact fun none slot isChecked early => earlyLoad?_ne_none isChecked early none
  · intro inOrder
    rw [Option.eq_none_iff_forall_ne_some]
    intro slot found
    obtain ⟨isChecked, early⟩ := reachesEarlyLoad_of_earlyLoad? found
    exact inOrder slot isChecked early

/-- What the check says of code that can be cut. -/
theorem check_of_stretches {code : FlatCode} (isOk : code.stretches = .ok stretches)
    (routine : String) (checked : List Slot) : check routine code checked =
      (earlyLoad? stretches checked).elim (.ok ()) fun slot =>
        .error (.uninitializedRead slot routine) := by
  rw [check, isOk, Fallible.ok_bind]
  split
  next empty =>
    rw [List.isEmpty_iff] at empty
    rw [earlyLoad?_eq_none.mpr (empty ▸ List.forall_mem_nil _), Option.elim_none]
  next => cases earlyLoad? stretches checked <;> rfl

theorem check_eq_ok {code : FlatCode} (isOk : code.stretches = .ok stretches) {routine : String} :
    check routine code checked = .ok () ↔ ∀ slot ∈ checked, ¬ ReachesEarlyLoad stretches slot := by
  rw [check_of_stretches isOk, ← earlyLoad?_eq_none]
  cases earlyLoad? stretches checked <;> simp

/-- The check is exact: code that can be cut passes if and only if no path through its
stretches comes to a load of a checked slot with nothing stored to the slot before. Otherwise a read
before the first store is reported, of a checked slot that such a path leads to. -/
theorem check_exact {code : FlatCode} {stretches : List Stretch}
    (recovered : code.stretches = .ok stretches) (routine : String) (checked : List Slot) :
    (check routine code checked = .ok () ↔
      ∀ slot ∈ checked, ¬ ReachesEarlyLoad stretches slot) ∧
    ((∃ slot ∈ checked, ReachesEarlyLoad stretches slot) → ∃ slot ∈ checked,
      check routine code checked = .error (.uninitializedRead slot routine)) ∧
    ∀ error, check routine code checked = .error error → ∃ slot ∈ checked,
      error = .uninitializedRead slot routine ∧ ReachesEarlyLoad stretches slot := by
  refine ⟨check_eq_ok recovered, ?_, fun error refused => ?_⟩
  · rintro ⟨slot, isChecked, early⟩
    obtain ⟨reported, isReported⟩ :=
      Option.ne_none_iff_exists'.mp (earlyLoad?_ne_none isChecked early)
    refine ⟨reported, (reachesEarlyLoad_of_earlyLoad? isReported).1, ?_⟩
    rw [check_of_stretches recovered, isReported, Option.elim_some]
  · rw [check_of_stretches recovered] at refused
    cases found : earlyLoad? stretches checked with
    | none => simp [found] at refused
    | some slot =>
        obtain ⟨isChecked, early⟩ := reachesEarlyLoad_of_earlyLoad? found
        rw [found, Option.elim_some, Except.error.injEq] at refused
        exact ⟨slot, isChecked, refused.symm, early⟩

/-- Code that jumps over the only store to a slot, and behind its end loads another one. -/
def skippedStore (skipped unreached : Slot) : FlatCode :=
  [.instr (.int 1), .instr (.branch .bnz ⟨0, ""⟩), .instr (.int 5), .instr (.store skipped),
    .label ⟨0, ""⟩, .instr (.load skipped), .instr ⟨.ret, []⟩,
    .instr (.load unreached), .instr ⟨.ret, []⟩]

theorem check_exact_skippedStore : ∃ stretches,
    (skippedStore ⟨0, none⟩ ⟨1, none⟩).stretches = .ok stretches ∧
    check "main" (skippedStore ⟨0, none⟩ ⟨1, none⟩) [⟨0, none⟩, ⟨1, none⟩] =
      .error (.uninitializedRead ⟨0, none⟩ "main") ∧
    ReachesEarlyLoad stretches ⟨0, none⟩ ∧ ¬ ReachesEarlyLoad stretches ⟨1, none⟩ := by
  have refused : check "main" (skippedStore ⟨0, none⟩ ⟨1, none⟩) [⟨0, none⟩, ⟨1, none⟩] =
      .error (.uninitializedRead ⟨0, none⟩ "main") := by decide
  have passes : check "main" (skippedStore ⟨0, none⟩ ⟨1, none⟩) [⟨1, none⟩] = .ok () := by decide
  obtain ⟨stretches, recovered⟩ : ∃ stretches,
      (skippedStore ⟨0, none⟩ ⟨1, none⟩).stretches = .ok stretches := ⟨_, rfl⟩
  obtain ⟨slot, _, same, early⟩ := (check_exact recovered "main" _).2.2 _ refused
  cases same
  exact ⟨stretches, recovered, refused, early,
    (check_exact recovered "main" [⟨1, none⟩]).1.mp passes _ (List.mem_singleton.mpr rfl)⟩

end ContractBackend.SlotInit
