import ContractBackend.Proofs.Linking

/-!
# Labels of a listing

Whatever the subroutines are called, no two lines of a linked listing have the same label. A branch
names the label of its target in the same routine, and a call the label before the code of its
subroutine.
-/

namespace ContractBackend

/-- The number of a label. -/
def Item.labelNumber? : Item → Option Nat
  | .label content => some content.index
  | .instr _ => none

namespace FlatCode

/-- The numbers of the labels in some code. -/
def labelNumbers (code : FlatCode) : List Nat := code.filterMap Item.labelNumber?

theorem eq_of_labelNumber {code : FlatCode} (nodup : code.labelNumbers.Nodup)
    {position other : Nat} {label twin : Label} (here : code[position]? = some (.label label))
    (there : code[other]? = some (.label twin)) (same : label.index = twin.index) :
    position = other := by
  rw [labelNumbers, List.Nodup, List.pairwise_filterMap, List.pairwise_iff_getElem] at nodup
  obtain ⟨inside, atPosition⟩ := List.getElem?_eq_some_iff.mp here
  obtain ⟨otherInside, atOther⟩ := List.getElem?_eq_some_iff.mp there
  have first : code[position].labelNumber? = some label.index := by rw [atPosition]; rfl
  have second : code[other].labelNumber? = some twin.index := by rw [atOther]; rfl
  rcases Nat.lt_trichotomy position other with less | equal | greater
  · exact absurd same (nodup position other inside otherInside less _ first _ second)
  · exact equal
  · exact absurd same.symm (nodup other position otherInside inside greater _ second _ first)

end FlatCode

namespace Link

/-- Code of routines into which nothing has been inserted. -/
def unmarked (routines : RoutineTable FlatCode) : RoutineTable (List Element) :=
  routines.map fun entry => (entry.1, entry.2.map fun item => ⟨item, false⟩)

section Unmarked

variable {routines : RoutineTable FlatCode} {routine : Routine} {code : FlatCode}

theorem map_unmarked (code : FlatCode) :
    (code.map fun item => (⟨item, false⟩ : Element)).map Element.item = code := by
  rw [List.map_map]
  exact List.map_id code

theorem items_unmarked : items (unmarked routines) = routines := by
  rw [items, unmarked, List.map_map]
  refine (List.map_congr_left fun entry _ => ?_).trans (List.map_id routines)
  exact Prod.ext rfl (map_unmarked entry.2)

theorem lookup_unmarked {elements : List Element} :
    (unmarked routines).lookup routine = some elements ↔ ∃ code,
      routines.lookup routine = some code ∧ code.map (fun item => ⟨item, false⟩) = elements := by
  rw [unmarked, lookup_mapValue fun _ (code : FlatCode) =>
    code.map fun item => (⟨item, false⟩ : Element), Option.map_eq_some_iff]

end Unmarked

variable {program : Program} {slots : SlotAssignment} {version : Version}
  {routines : RoutineTable FlatCode} {assembly : Assembly}

theorem main_of_link (isOk : link program slots version routines = .ok assembly) :
    .main ∈ routines.map Prod.fst := by
  refine Keyed.mem_keys_iff.mpr fun missing => ?_
  simp [link, missing, Fallible.bind_eq_ok] at isOk

/-- Labels are unique and lead where they should: where routines whose labels have different
numbers are linked, no two lines of the listing have the same label. Every instruction stands on the
line of its place in its routine. An operand that refers to a label names the label on the line
of the label with that number in the same routine, if there is one; an operand that refers to
a subroutine names the label on the line before the code of the subroutine. -/
theorem linked_labels_resolve (ordered : routines.Ordered)
    (numbered : ∀ entry ∈ routines, entry.2.labelNumbers.Nodup)
    (isOk : link program slots version routines = .ok assembly) :
    (∀ (line other : Nat) name comment remark, assembly.lines[line]? = some (.label name comment) →
      assembly.lines[other]? = some (.label name remark) → line = other) ∧
    ∀ routine code, routines.lookup routine = some code →
      ∀ (index : Nat) instr, code[index]? = some (.instr instr) →
        ∃ arguments, assembly.lines[lineOf (unmarked routines) routine index]? =
            some (.instr instr.op arguments) ∧
          (∀ (position : Nat) target, instr.operands[position]? = some (.label target) →
            ∀ (place : Nat) label, code[place]? = some (.label label) → label.index = target.index →
              ∃ name, arguments[position]? = some (.label name) ∧
                assembly.lines[lineOf (unmarked routines) routine place]? =
                  some (.label name none)) ∧
          ∀ (position : Nat) id, instr.operands[position]? = some (.subroutine id) →
            ∃ callee name comment, ∃ line : Nat, routines.lookup (.subroutine id) = some callee ∧
              arguments[position]? = some (.label name) ∧
              assembly.lines[line]? = some (.label name (some comment)) ∧
              line + 1 = lineOf (unmarked routines) (.subroutine id) 0 := by
  have keys : (unmarked routines).map Prod.fst = routines.map Prod.fst := by
    rw [unmarked, List.map_map]
    rfl
  have unmarkedOk : link program slots version (items (unmarked routines)) = .ok assembly := by
    rwa [items_unmarked]
  obtain ⟨named, _, linked⟩ :=
    exists_linked (ordered.congr keys) (keys ▸ main_of_link isOk) unmarkedOk
  refine ⟨fun line other name comment remark here there => ?_,
    fun routine code found index instr here => ?_⟩
  · have thereToo := linked.labelLine there
    cases linked.labelLine here with
    | subroutine isLabel => exact (thereToo.eq_firstLine linked isLabel).symm
    | place found atIndex same =>
        subst same
        obtain ⟨position, twin, atPosition, sameNumber, rfl⟩ := thereToo.exists_twin linked found
        obtain ⟨code, isCode, rfl⟩ := lookup_unmarked.mp found
        rw [map_unmarked] at atIndex atPosition
        have nodup := numbered _ (mem_of_lookup isCode)
        rw [FlatCode.eq_of_labelNumber nodup atIndex atPosition sameNumber.symm]
  · have found := lookup_unmarked.mpr ⟨code, found, rfl⟩
    rw [← map_unmarked code] at here
    obtain ⟨arguments, resolved, onLine⟩ := linked.lineOf_instr found here
    have resolves := Fallible.mapM_eq_ok.mp resolved
    refine ⟨arguments, onLine, fun position target isOperand place label isLabel same => ?_,
      fun position id isOperand => ?_⟩
    · obtain ⟨_, isArgument, ⟨⟩⟩ := Fallible.exists_related resolves isOperand
      rw [← map_unmarked code] at isLabel
      refine ⟨_, isArgument, ?_⟩
      rw [linked.lineOf_label found isLabel, text_eq, text_eq, same]
    · obtain ⟨argument, isArgument, made⟩ := Fallible.exists_related resolves isOperand
      simp only [Resolver.operand] at made
      split at made
      next name isName =>
        cases made
        obtain ⟨elements, isCallee⟩ :=
          Option.ne_none_iff_exists'.mp (Keyed.mem_keys_iff.mp (linked.present isName))
        obtain ⟨other, comment, isOther, heads⟩ := linked.exists_label isCallee
        rw [isName] at isOther
        cases isOther
        obtain ⟨callee, isFound, _⟩ := lookup_unmarked.mp isCallee
        exact ⟨callee, name, comment, _, isFound, isArgument, heads, rfl⟩
      next => cases made

/-- Subroutines whose names look like labels or are the same. -/
def imitators : Program where
  subroutines := #[⟨⟨0, "main_l1", 0, .nothing⟩, [], .missing⟩,
    ⟨⟨1, "", 0, .nothing⟩, [], .missing⟩, ⟨⟨2, "", 0, .nothing⟩, [], .missing⟩]

def imitatorCode : RoutineTable FlatCode :=
  [(.main, [.instr (.branch .b ⟨1, ""⟩), .label ⟨1, ""⟩, .instr (.callsub 0), .instr ⟨.ret, []⟩]),
   (.subroutine 0, [.label ⟨1, ""⟩, .instr (.callsub 2), .instr (.branch .b ⟨1, ""⟩)]),
   (.subroutine 1, [.instr ⟨.retsub, []⟩]), (.subroutine 2, [.instr (.callsub 1)])]

theorem linked_labels_resolve_imitators : ∃ assembly,
    link imitators {} newestVersion imitatorCode = .ok assembly ∧
    assembly.lines.filterMap Line.label? =
      ["main_l1", "main_l1_0", "main_l1_0_l1", "sub_1", "sub_2"] ∧
    (∀ (line other : Nat) name comment remark, assembly.lines[line]? = some (.label name comment) →
      assembly.lines[other]? = some (.label name remark) → line = other) ∧
    ∃ arguments name comment, assembly.lines[6]? = some (.instr .callsub arguments) ∧
      arguments[0]? = some (.label name) ∧
      assembly.lines[10]? = some (.label name (some comment)) := by
  have listed : ((link imitators {} newestVersion imitatorCode).map fun assembly =>
      assembly.lines.filterMap Line.label?) =
        .ok ["main_l1", "main_l1_0", "main_l1_0_l1", "sub_1", "sub_2"] := by decide +kernel
  cases isOk : link imitators {} newestVersion imitatorCode with
  | error problem =>
      rw [isOk] at listed
      cases listed
  | ok assembly =>
      rw [isOk] at listed
      have ordered : imitatorCode.Ordered := by
        unfold RoutineTable.Ordered
        decide
      obtain ⟨unique, resolved⟩ := linked_labels_resolve ordered (by decide) isOk
      obtain ⟨arguments, onLine, _, called⟩ := resolved (.subroutine 0) _ rfl 1 (.callsub 2) rfl
      obtain ⟨_, name, comment, line, _, isName, heads, before⟩ := called 0 2 rfl
      obtain rfl : line = 10 := Nat.succ.inj before
      exact ⟨assembly, rfl, Except.ok.inj listed, unique, arguments, name, comment, onLine, isName,
        heads⟩

end Link

end ContractBackend
