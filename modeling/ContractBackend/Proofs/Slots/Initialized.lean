import ContractBackend.Proofs.FlatCode.Stretches
import ContractBackend.Proofs.Slots.EntrySets

/-!
# Slots are set before they are read

Code that passes the check stores to a slot on every way from its start to a load of the
slot.
-/

namespace ContractBackend

/-- Control can come to a position of flat code with nothing stored to a slot before. -/
inductive FlatCode.Unset (code : FlatCode) (slot : Slot) : Nat → Prop where
  | start : Unset code slot 0
  | step {position target : Nat} : Unset code slot position →
      (∀ instr, code[position]? = some (.instr instr) → instr.storesTo slot = false) →
      code.Follows position target → Unset code slot target

namespace FlatCode

theorem Follows.inside {code : FlatCode} {position target : Nat}
    (follows : code.Follows position target) : position < code.length := by
  cases follows with
  | label here | next here | jump here => exact (List.getElem?_eq_some_iff.mp here).1

/-- Control goes on from an instruction that does not store to the slot. -/
theorem Unset.past {code : FlatCode} {slot : Slot} {position target : Nat} {instr : Instr}
    (unset : code.Unset slot position) (here : code[position]? = some (.instr instr))
    (noStore : instr.storesTo slot = false) (follows : code.Follows position target) :
    code.Unset slot target := by
  refine .step unset (fun other there => ?_) follows
  rw [here] at there
  cases there
  exact noStore

end FlatCode

namespace SlotInit

variable {slot : Slot} {code : FlatCode} {cuts : List OpenStretch} {pieces : List (List Item)}
  {stretches : List Stretch} {position : Nat}

/-- Control that comes to a position with nothing stored to the slot comes to the stretch of the
position with nothing stored to it. -/
theorem exists_open (divided : code.Divided cuts pieces stretches)
    (unset : code.Unset slot position) (inside : position < code.length) :
    ∃ number offset items, FlatCode.Lies pieces position number offset items ∧
      Unset stretches slot number ∧
        ∀ instr, .instr instr ∈ items.take offset → instr.storesTo slot = false := by
  obtain rfl := divided.whole
  induction unset with
  | start =>
    obtain ⟨number, offset, items, lies⟩ := FlatCode.exists_lies inside
    have bound := (List.getElem?_eq_some_iff.mp lies.found).1
    have first := List.getElem?_eq_getElem (Nat.zero_lt_of_lt bound)
    have full := FlatCode.forall_ne_nil divided.spelled _ (List.mem_of_getElem? first)
    exact ⟨0, 0, _, ⟨first, List.length_pos_iff.mpr full, by simp⟩, .start, by simp⟩
  | @step position target _ stores follows ih =>
    obtain ⟨number, offset, items, lies, reached, unset⟩ := ih follows.inside
    obtain ⟨stretch, isCut, _⟩ := FlatCode.exists_spells divided.spelled lies.found
    obtain ⟨targets, isTargets, found⟩ := divided.resolved number stretch isCut
    -- Nothing up to the position stores to the slot.
    have unset' : ∀ instr, .instr instr ∈ items.take (offset + 1) →
        instr.storesTo slot = false := by
      intro instr member
      rw [List.take_add_one, List.mem_append] at member
      rcases member with before | here
      · exact unset instr before
      · exact stores instr (by simpa [lies.getElem?] using here)
    obtain same | ⟨all, next, member, behind, more, arrival, early⟩ :=
      follows.onward divided.spelled inside lies isCut isTargets
    · exact ⟨number, offset + 1, items, same, reached, unset'⟩
    · refine ⟨next, behind, more, arrival, ?_, fun instr isEarly => absurd isEarly (early instr)⟩
      have quiet : SlotInit.stores ⟨stretch.labels, stretch.instrs, targets⟩ slot = false :=
        stores_eq_false.mpr fun instr isInstr => unset' instr (all instr isInstr)
      exact reached.onward found member quiet

theorem exists_stretches {routine : String} {checked : List Slot}
    (passes : check routine code checked = .ok ()) (member : slot ∈ checked) :
    ∃ stretches, code.stretches = .ok stretches := by
  have some : checked.isEmpty = false := by
    rw [List.isEmpty_eq_false_iff_exists_mem]
    exact ⟨slot, member⟩
  simp only [check, some, Bool.false_eq_true, if_false, Fallible.bind_eq_ok] at passes
  exact ⟨_, passes.choose_spec.1⟩

/-- In code that has been checked, the label that a branch names is there. -/
theorem exists_label {routine : String} {checked : List Slot}
    (passes : check routine code checked = .ok ()) (member : slot ∈ checked) {instr : Instr}
    (here : code[position]? = some (.instr instr)) (branches : instr.op.isBranch = true) :
    ∃ label, instr.label? = some label ∧ .label label ∈ code := by
  obtain ⟨stretches, isOk⟩ := exists_stretches passes member
  obtain ⟨cuts, pieces, divided⟩ := FlatCode.exists_divided isOk
  obtain rfl := divided.whole
  obtain ⟨number, offset, items, lies⟩ :=
    FlatCode.exists_lies (List.getElem?_eq_some_iff.mp here).1
  obtain ⟨stretch, isCut, spells⟩ := FlatCode.exists_spells divided.spelled lies.found
  obtain ⟨targets, isTargets, _⟩ := divided.resolved number stretch isCut
  rw [lies.getElem?] at here
  obtain ⟨⟨label, aimed, isLabel⟩, _⟩ := spells.of_branch here branches
  obtain ⟨target, _, isTarget⟩ := FlatCode.labelled_of_aims isTargets aimed
  obtain ⟨⟨there, isThere, labels⟩, _⟩ := FlatCode.labelled_eq_ok isTarget
  obtain ⟨piece, isPiece, spells⟩ := Fallible.exists_related divided.spelled isThere
  obtain ⟨place, atPlace⟩ := spells.exists_label labels
  exact ⟨label, isLabel, List.mem_flatten.mpr
    ⟨piece, List.mem_of_getElem? isPiece, List.mem_of_getElem? atPlace⟩⟩

/-- The check is sound: in code that passes it, no load of a checked slot can be reached
with nothing stored to the slot before. -/
theorem loadsFrom_eq_false {routine : String} {checked : List Slot}
    (passes : check routine code checked = .ok ()) (member : slot ∈ checked)
    (unset : code.Unset slot position) {instr : Instr}
    (here : code[position]? = some (.instr instr)) : instr.loadsFrom slot = false := by
  obtain ⟨stretches, isOk⟩ := exists_stretches passes member
  obtain ⟨cuts, pieces, divided⟩ := FlatCode.exists_divided isOk
  obtain ⟨number, offset, items, lies, reached, free⟩ :=
    exists_open divided unset (List.getElem?_eq_some_iff.mp here).1
  obtain ⟨stretch, isCut, spells⟩ := FlatCode.exists_spells divided.spelled lies.found
  obtain ⟨targets, _, found⟩ := divided.resolved number stretch isCut
  by_contra loads
  rw [Bool.not_eq_false] at loads
  have straight : instr.op.isBranch = false := by
    rw [(Instr.loadsFrom_iff.mp loads).1]
    rfl
  rw [divided.whole, lies.getElem?] at here
  obtain ⟨before, after, isInstrs, early⟩ := spells.of_instr here straight
  obtain ⟨passed, arrives, noStore⟩ := reached
  refine (check_eq_ok isOk).mp passes slot member ⟨number, passed, _, before, instr, after, arrives,
    found, isInstrs, loads, List.forall_mem_append.mpr ⟨noStore, fun other isEarly => ?_⟩⟩
  exact free other (early other isEarly)

end SlotInit

end ContractBackend
