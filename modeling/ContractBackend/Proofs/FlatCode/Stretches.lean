import ContractBackend.FlatCode.Stretch
import ContractBackend.Proofs.Listing

/-!
# Stretches and positions

Cutting flat code into stretches loses nothing: the code is the concatenation of what the
stretches spell. Wherever control goes from one position to another, it stays in its
stretch or goes to a successor of the stretch.
-/

namespace ContractBackend

namespace FlatCode

/-- Control can go from one position of flat code to another one. -/
inductive Follows (code : FlatCode) : Nat → Nat → Prop where
  | label {position : Nat} {label : Label} :
      code[position]? = some (.label label) → Follows code position (position + 1)
  | next {position : Nat} {instr : Instr} :
      code[position]? = some (.instr instr) → instr.op ≠ .b → instr.op.isExit = false →
      Follows code position (position + 1)
  | jump {position target : Nat} {instr : Instr} :
      code[position]? = some (.instr instr) → instr.op.isBranch = true →
      instr.label?.bind code.labelPosition? = some target → Follows code position target

end FlatCode

namespace StretchEnd

/-- The branches at the end of a stretch. -/
inductive Spells : StretchEnd → List Instr → Prop where
  | fall : Spells .fall []
  | leave : Spells .leave []
  | jump {instr : Instr} {target : Label} :
      instr.op = .b → instr.label? = some target → Spells (.jump target) [instr]
  | ifTrue {instr : Instr} {target : Label} :
      instr.op = .bnz → instr.label? = some target → Spells (.ifTrue target) [instr]
  | ifFalse {instr : Instr} {target : Label} :
      instr.op = .bz → instr.label? = some target → Spells (.ifFalse target) [instr]
  | both {instr next : Instr} {onTrue onFalse : Label} :
      instr.op = .bnz → instr.label? = some onTrue → next.op = .b →
      next.label? = some onFalse → Spells (.both onTrue onFalse) [instr, next]
  | bothReversed {instr next : Instr} {onTrue onFalse : Label} :
      instr.op = .bz → instr.label? = some onFalse → next.op = .b →
      next.label? = some onTrue → Spells (.both onTrue onFalse) [instr, next]

/-- The labels that an end aims at. -/
def aims : StretchEnd → List Label
  | .jump target | .ifTrue target | .ifFalse target => [target]
  | .both onTrue onFalse => [onTrue, onFalse]
  | .fall | .leave => []

variable {instr : Instr}

theorem Spells.isBranch {ending : StretchEnd} {branches : List Instr}
    (spells : ending.Spells branches) (member : instr ∈ branches) :
    instr.op.isBranch = true ∧ ∃ label ∈ ending.aims, instr.label? = some label := by
  cases spells <;> simp_all [aims, Opcode.isBranch]
  all_goals rcases member with rfl | rfl <;> simp_all

theorem Spells.of_conditional {first : Label} (conditional : instr.op = .bnz ∨ instr.op = .bz)
    (aimed : instr.label? = some first) :
    (ofConditional instr.op first none).Spells [instr] ∧
      ∀ next second, FlatCode.jumpLabel? next = some second →
        (ofConditional instr.op first (some second)).Spells [instr, next] := by
  rcases conditional with isBnz | isBz
  · refine ⟨by simpa [ofConditional, isBnz] using .ifTrue isBnz aimed, fun next second jumps => ?_⟩
    simp only [FlatCode.jumpLabel?, Option.ite_none_right_eq_some] at jumps
    simpa [ofConditional, isBnz] using .both isBnz aimed jumps.1 jumps.2
  · refine ⟨by simpa [ofConditional, isBz] using .ifFalse isBz aimed, fun next second jumps => ?_⟩
    simp only [FlatCode.jumpLabel?, Option.ite_none_right_eq_some] at jumps
    simpa [ofConditional, isBz] using .bothReversed isBz aimed jumps.1 jumps.2

end StretchEnd

namespace OpenStretch

/-- The code of a stretch. Its instructions do not branch, and only an instruction at the end
leaves the routine. -/
structure Spells (stretch : OpenStretch) (items : List Item) : Prop where
  nonempty : items ≠ []
  spelled : ∃ branches, stretch.ending.Spells branches ∧
    items = stretch.labels.map .label ++ (stretch.instrs ++ branches).map .instr
  branchless : ∀ instr ∈ stretch.instrs, instr.op.isBranch = false
  leaving : stretch.ending = .leave →
    ∃ last, stretch.instrs.getLast? = some last ∧ last.op.isExit = true

namespace Spells

variable {stretch : OpenStretch} {items : List Item} {label : Label} {offset : Nat}
  (spells : stretch.Spells items)
include spells

theorem lt_of_label (here : items[offset]? = some (.label label)) :
    offset < stretch.labels.length := by
  obtain ⟨branches, _, rfl⟩ := spells.spelled
  by_contra late
  rw [List.getElem?_append_right (by simpa using late), List.getElem?_map] at here
  simp at here

/-- The labels of a stretch stand in front of everything else. -/
theorem of_label (here : items[offset]? = some (.label label)) :
    label ∈ stretch.labels ∧ ∀ instr, .instr instr ∉ items.take offset := by
  have early := spells.lt_of_label here
  obtain ⟨branches, _, rfl⟩ := spells.spelled
  rw [List.getElem?_append_left (by simpa using early), List.getElem?_map] at here
  refine ⟨by grind, fun instr member => ?_⟩
  rw [List.take_append_of_le_length (by simpa using Nat.le_of_lt early)] at member
  simpa using List.mem_of_mem_take member

theorem exists_label (member : label ∈ stretch.labels) :
    ∃ offset : Nat, items[offset]? = some (.label label) := by
  obtain ⟨branches, _, rfl⟩ := spells.spelled
  exact List.mem_iff_getElem?.mp (by simp [member])

/-- What stands in front of an instruction of a stretch that does not branch. -/
theorem of_instr (here : items[offset]? = some (.instr instr))
    (straight : instr.op.isBranch = false) :
    ∃ before after, stretch.instrs = before ++ instr :: after ∧
      ∀ other ∈ before, .instr other ∈ items.take offset := by
  obtain ⟨branches, ends, rfl⟩ := spells.spelled
  have late : stretch.labels.length ≤ offset := by
    by_contra early
    rw [List.getElem?_append_left (by simpa using early)] at here
    simp at here
  obtain ⟨index, rfl⟩ := Nat.exists_eq_add_of_le late
  rw [List.getElem?_append_right (by simp)] at here
  simp only [List.length_map, Nat.add_sub_cancel_left, List.getElem?_map, Option.map_eq_some_iff,
    Item.instr.injEq, exists_eq_right] at here
  have early : index < stretch.instrs.length := by
    by_contra late
    rw [List.getElem?_append_right (Nat.le_of_not_lt late)] at here
    rw [(ends.isBranch (List.mem_of_getElem? here)).1] at straight
    cases straight
  rw [List.getElem?_append_left early] at here
  refine ⟨stretch.instrs.take index, stretch.instrs.drop (index + 1), ?_, fun other member => ?_⟩
  · obtain ⟨_, rfl⟩ := List.getElem?_eq_some_iff.mp here
    simp
  · rw [List.take_append]
    apply List.mem_append_right
    simp only [List.length_map, Nat.add_sub_cancel_left, List.map_append]
    rw [List.take_append]
    apply List.mem_append_left
    rw [← List.map_take]
    exact List.mem_map_of_mem member

/-- A branch stands behind all other instructions of its stretch, and the end aims at its
label. -/
theorem of_branch (here : items[offset]? = some (.instr instr))
    (branches : instr.op.isBranch = true) :
    (∃ label ∈ stretch.ending.aims, instr.label? = some label) ∧
      ∀ other ∈ stretch.instrs, .instr other ∈ items.take (offset + 1) := by
  obtain ⟨ending, ends, rfl⟩ := spells.spelled
  have late : stretch.labels.length + stretch.instrs.length ≤ offset := by
    by_contra early
    rw [List.map_append, ← List.append_assoc,
      List.getElem?_append_left (by simpa using early)] at here
    have member := List.mem_of_getElem? here
    simp only [List.mem_append, List.mem_map, reduceCtorEq, and_false, exists_false, false_or,
      Item.instr.injEq, exists_eq_right] at member
    rw [spells.branchless instr member] at branches
    cases branches
  rw [List.map_append, ← List.append_assoc,
    List.getElem?_append_right (by simpa using late)] at here
  refine ⟨(ends.isBranch (by simpa using List.mem_of_getElem? here)).2, fun other member => ?_⟩
  rw [List.map_append, ← List.append_assoc, List.take_append]
  apply List.mem_append_left
  rw [List.take_of_length_le (by simp; omega)]
  simp [member]

end Spells

end OpenStretch

namespace FlatCode

/-- Code is the concatenation of what some stretches spell. -/
def CutInto (code : FlatCode) (cuts : List OpenStretch) : Prop :=
  ∃ pieces, List.Forall₂ OpenStretch.Spells cuts pieces ∧ code = pieces.flatten

section Cut

variable {labels others : List Label} {instrs branches : List Instr} {ending : StretchEnd}
  {rest : FlatCode} {cuts : List OpenStretch}

theorem CutInto.cons (spells : ending.Spells branches)
    (nonempty : labels ≠ [] ∨ instrs ++ branches ≠ [])
    (branchless : ∀ instr ∈ instrs, instr.op.isBranch = false)
    (leaving : ending = .leave → ∃ last, instrs.getLast? = some last ∧ last.op.isExit = true)
    (behind : CutInto rest cuts) :
    CutInto (labels.map .label ++ instrs.map .instr ++ (branches.map .instr ++ rest))
      (⟨labels, instrs, ending⟩ :: cuts) := by
  obtain ⟨pieces, spelled, rfl⟩ := behind
  refine ⟨_ :: pieces, .cons ⟨?_, ⟨branches, spells, rfl⟩, branchless, leaving⟩ spelled, by simp⟩
  rcases nonempty with some | some <;> simp_all

/-- A stretch in front of what cutting goes on with. -/
theorem CutInto.of_cut
    (isCut : (do pure (⟨labels, instrs, ending⟩ :: (← cut rest others []))) =
      Except.ok cuts)
    (behind : ∀ {cuts}, cut rest others [] = .ok cuts → CutInto (others.map .label ++ rest) cuts)
    (spells : ending.Spells branches) (nonempty : instrs ++ branches ≠ [])
    (branchless : ∀ instr ∈ instrs, instr.op.isBranch = false)
    (leaving : ending = .leave → ∃ last, instrs.getLast? = some last ∧ last.op.isExit = true) :
    CutInto (labels.map .label ++ instrs.map .instr ++
      (branches.map .instr ++ (others.map .label ++ rest))) cuts := by
  obtain ⟨more, isMore, isCons⟩ := Fallible.bind_eq_ok.mp isCut
  cases isCons
  exact .cons spells (.inr nonempty) branchless leaving (behind isMore)

theorem isBranch_of_ne {op : Opcode} (noB : op ≠ .b) (noBnz : op ≠ .bnz) (noBz : op ≠ .bz) :
    op.isBranch = false := by
  cases op <;> first | rfl | contradiction

/-- Cutting takes nothing away and puts nothing in. -/
theorem cut_into {code : FlatCode} (isCut : cut code labels instrs = .ok cuts)
    (branchless : ∀ instr ∈ instrs, instr.op.isBranch = false) :
    CutInto (labels.map .label ++ instrs.map .instr ++ code) cuts := by
  fun_induction cut code labels instrs generalizing cuts with
  | case1 =>
    cases isCut
    exact ⟨[], .nil, rfl⟩
  | case2 labels instrs nonempty =>
    cases isCut
    exact .cons .fall (by rw [List.append_nil]; tauto) branchless nofun ⟨[], .nil, rfl⟩
  | case3 label rest labels ih => simpa using ih isCut nofun
  | case4 label rest labels instrs nonempty ih =>
    exact .of_cut isCut (fun isMore => by simpa using ih isMore nofun) .fall
      (by simpa using nonempty) branchless nofun
  | case5 instr rest labels instrs isJump target aimed ih =>
    exact .of_cut isCut (fun isMore => by simpa using ih isMore nofun) (.jump isJump aimed)
      (by simp) branchless nofun
  | case7 instr labels instrs isBnz first aimed next behind second jumps ih =>
    exact .of_cut isCut (fun isMore => by simpa using ih isMore nofun)
      ((StretchEnd.Spells.of_conditional (.inl isBnz) aimed).2 next second jumps)
      (by simp) branchless (by simp [StretchEnd.ofConditional, isBnz])
  | case8 instr labels instrs isBnz first aimed next behind _ ih
  | case9 instr labels instrs isBnz first aimed rest _ ih =>
    exact .of_cut isCut (fun isMore => by simpa using ih isMore nofun)
      (StretchEnd.Spells.of_conditional (.inl isBnz) aimed).1
      (by simp) branchless (by simp [StretchEnd.ofConditional, isBnz])
  | case11 instr labels instrs isBz first aimed next behind second jumps ih =>
    exact .of_cut isCut (fun isMore => by simpa using ih isMore nofun)
      ((StretchEnd.Spells.of_conditional (.inr isBz) aimed).2 next second jumps)
      (by simp) branchless (by simp [StretchEnd.ofConditional, isBz])
  | case12 instr labels instrs isBz first aimed next behind _ ih
  | case13 instr labels instrs isBz first aimed rest _ ih =>
    exact .of_cut isCut (fun isMore => by simpa using ih isMore nofun)
      (StretchEnd.Spells.of_conditional (.inr isBz) aimed).1
      (by simp) branchless (by simp [StretchEnd.ofConditional, isBz])
  | case15 instr rest labels instrs noB noBnz noBz exits ih =>
    have whole := CutInto.of_cut isCut (fun isMore => by simpa using ih isMore nofun) .leave
      (by simp) (List.forall_mem_append.mpr ⟨branchless, by
        simpa using isBranch_of_ne noB noBnz noBz⟩) (by simpa using exits)
    simpa using whole
  | case16 instr rest labels instrs noB noBnz noBz goes ih =>
    have whole := ih isCut (List.forall_mem_append.mpr ⟨branchless, by
      simpa using isBranch_of_ne noB noBnz noBz⟩)
    simpa using whole
  | case6 | case10 | case14 => cases isCut

end Cut

section Positions

variable {code : FlatCode} {cuts : List OpenStretch} {pieces : List (List Item)} {position : Nat}

/-- A position lies in a stretch, behind the given number of its items. -/
structure Lies (pieces : List (List Item)) (position number offset : Nat) (items : List Item) :
    Prop where
  found : pieces[number]? = some items
  inside : offset < items.length
  here : position = Concat.start id pieces number + offset

theorem exists_lies (inside : position < pieces.flatten.length) :
    ∃ number offset items, Lies pieces position number offset items := by
  rw [← List.flatMap_id] at inside
  obtain ⟨number, items, offset, found, bound, equal⟩ := Concat.exists_start_add id inside
  exact ⟨number, offset, items, found, bound, equal⟩

theorem Lies.getElem? {number offset : Nat} {items : List Item}
    (lies : Lies pieces position number offset items) :
    pieces.flatten[position]? = items[offset]? := by
  rw [lies.here, ← List.flatMap_id]
  exact Concat.getElem?_start_add id lies.found lies.inside

/-- Behind a position lies another one of the same stretch or the first one of the next. -/
theorem Lies.next {number offset : Nat} {items : List Item} (full : ∀ items ∈ pieces, items ≠ [])
    (lies : Lies pieces position number offset items)
    (inside : position + 1 < pieces.flatten.length) :
    Lies pieces (position + 1) number (offset + 1) items ∨
      offset + 1 = items.length ∧ ∃ more, Lies pieces (position + 1) (number + 1) 0 more := by
  have here := lies.here
  by_cases more : offset + 1 < items.length
  · exact .inl ⟨lies.found, more, by omega⟩
  · have last : offset + 1 = items.length := by
      have := lies.inside
      omega
    have behind : Concat.start id pieces (number + 1) = position + 1 := by
      rw [Concat.start_succ id lies.found, here]
      simp only [id_eq]
      omega
    have exists' : number + 1 < pieces.length := by
      by_contra beyond
      have whole : Concat.start id pieces pieces.length = pieces.flatten.length := by
        rw [Concat.start_length, List.flatMap_id]
      have mono : Concat.start id pieces pieces.length ≤ Concat.start id pieces (number + 1) :=
        Concat.start_mono id (Nat.le_of_not_lt beyond)
      omega
    have found := List.getElem?_eq_getElem exists'
    have nonempty := full _ (List.mem_of_getElem? found)
    exact .inr ⟨last, _, found, List.length_pos_iff.mpr nonempty, by omega⟩

end Positions

section Successors

variable {cuts : List OpenStretch} {label : Label} {number : Nat} {ending : StretchEnd}
  {targets : List Nat}

theorem labelled_eq_ok (isOk : labelled cuts label = .ok number) :
    (∃ stretch, cuts[number]? = some stretch ∧ label ∈ stretch.labels) ∧
      ∀ other stretch, cuts[other]? = some stretch → label ∈ stretch.labels → other ≤ number := by
  simp only [labelled] at isOk
  split at isOk
  next position last =>
    cases isOk
    constructor
    · obtain absent | ⟨index, stretch, atIndex, member, rfl⟩ :=
        foldl_last_cases (fun stretch : OpenStretch => label ∈ stretch.labels) last
      · cases absent
      · exact ⟨stretch, by simpa using atIndex, member⟩
    · intro other stretch found member
      obtain ⟨position, also, behind⟩ :=
        exists_foldl_last (fun stretch : OpenStretch => label ∈ stretch.labels)
          (.inr ⟨other, stretch, found, member, Nat.le_add_left _ _⟩)
      rw [last] at also
      cases also
      exact behind
  next => cases isOk

theorem labelled_of_aims (isOk : successors cuts number ending = .ok targets)
    (member : label ∈ ending.aims) : ∃ target ∈ targets, labelled cuts label = .ok target := by
  cases ending <;>
    simp only [StretchEnd.aims, List.mem_cons, List.not_mem_nil, or_false] at member
  all_goals simp only [successors, Fallible.bind_eq_ok, Fallible.pure_eq_ok] at isOk
  all_goals grind

/-- Control that goes on behind the last item of a stretch comes to the next one. -/
theorem succ_mem_successors {stretch : OpenStretch} {items : List Item}
    (spells : stretch.Spells items) (isOk : successors cuts number stretch.ending = .ok targets)
    (exists' : number + 1 < cuts.length) {last : Item} (isLast : items.getLast? = some last)
    (goes : ∀ instr, last = .instr instr → instr.op ≠ .b ∧ instr.op.isExit = false) :
    number + 1 ∈ targets := by
  obtain ⟨labels, instrs, ending⟩ := stretch
  obtain ⟨branches, ends, rfl⟩ := spells.spelled
  cases ends with
  | fall =>
    simp only [successors, if_pos exists'] at isOk
    cases isOk
    simp
  | leave =>
    obtain ⟨final, isFinal, exits⟩ := spells.leaving rfl
    have same : last = .instr final := by
      simp only [List.append_nil, List.getLast?_append, List.getLast?_map, isFinal] at isLast
      simpa using isLast.symm
    rw [(goes final same).2] at exits
    cases exits
  | ifTrue | ifFalse =>
    simp only [successors, behind, if_pos exists', Fallible.bind_eq_ok, Fallible.pure_eq_ok]
      at isOk
    grind
  | jump isJump =>
    exact absurd isJump (goes _ (by simpa using isLast.symm)).1
  | both _ _ isJump | bothReversed _ _ isJump =>
    exact absurd isJump (goes _ (by simpa using isLast.symm)).1

end Successors

section Control

variable {cuts : List OpenStretch} {pieces : List (List Item)} {position target number offset : Nat}
  {items : List Item} {stretch : OpenStretch} {targets : List Nat}

/-- Control stays in its stretch, or it goes on behind the last instruction of the stretch: to
the beginning of a successor or to one of its labels. -/
def Onward (pieces : List (List Item)) (stretch : OpenStretch) (targets : List Nat)
    (number offset : Nat) (items : List Item) (target : Nat) : Prop :=
  Lies pieces target number (offset + 1) items ∨
    (∀ instr ∈ stretch.instrs, .instr instr ∈ items.take (offset + 1)) ∧
      ∃ next ∈ targets, ∃ behind more, Lies pieces target next behind more ∧
        ∀ instr, .instr instr ∉ more.take behind

variable (spelled : List.Forall₂ OpenStretch.Spells cuts pieces)
include spelled

theorem spells_of_getElem? (found : cuts[number]? = some stretch)
    (piece : pieces[number]? = some items) : stretch.Spells items := by
  obtain ⟨bound, rfl⟩ := List.getElem?_eq_some_iff.mp found
  obtain ⟨bound', rfl⟩ := List.getElem?_eq_some_iff.mp piece
  exact spelled.get bound bound'

/-- Every piece is what some stretch spells. -/
theorem exists_spells (piece : pieces[number]? = some items) :
    ∃ stretch, cuts[number]? = some stretch ∧ stretch.Spells items :=
  Fallible.exists_related spelled.flip piece

theorem forall_ne_nil : ∀ items ∈ pieces, items ≠ [] := by
  intro items member
  obtain ⟨number, piece⟩ := List.mem_iff_getElem?.mp member
  obtain ⟨_, _, spells⟩ := exists_spells spelled piece
  exact spells.nonempty

theorem Lies.onward_next (lies : Lies pieces position number offset items)
    (found : cuts[number]? = some stretch)
    (isOk : successors cuts number stretch.ending = .ok targets)
    (inside : position + 1 < pieces.flatten.length)
    (goes : ∀ instr, items[offset]? = some (.instr instr) →
      instr.op ≠ .b ∧ instr.op.isExit = false) :
    Onward pieces stretch targets number offset items (position + 1) := by
  have spells := spells_of_getElem? spelled found lies.found
  rcases lies.next (forall_ne_nil spelled) inside with same | ⟨last, more, next⟩
  · exact .inl same
  · obtain ⟨_, further, _⟩ := exists_spells spelled next.found
    have exists' := (List.getElem?_eq_some_iff.mp further).1
    have here := List.getElem?_eq_getElem lies.inside
    have atLast : items.getLast? = items[offset]? := by
      rw [List.getLast?_eq_getElem?, ← last, Nat.add_sub_cancel]
    refine .inr ⟨fun instr member => ?_, number + 1, ?_, 0, more, next, by simp⟩
    · obtain ⟨branches, _, rfl⟩ := spells.spelled
      rw [List.take_of_length_le (Nat.le_of_eq last.symm)]
      simp [member]
    · refine succ_mem_successors spells isOk exists' (atLast.trans here) fun instr same => ?_
      exact goes instr (by rw [here, same])

/-- The last place of a label lies in the last stretch with the label. -/
theorem exists_lies_of_labelled {label : Label} (isOk : labelled cuts label = .ok number)
    (aims : labelPosition? pieces.flatten label = some target) :
    ∃ offset items, Lies pieces target number offset items ∧ items[offset]? = some (.label label) := by
  have there := getElem?_of_labelPosition? aims
  obtain ⟨⟨labelling, foundLabelling, labels⟩, isLast⟩ := labelled_eq_ok isOk
  obtain ⟨reached, offset, items, arrival⟩ :=
    exists_lies (List.getElem?_eq_some_iff.mp there).1
  rw [arrival.getElem?] at there
  obtain ⟨_, foundReached, spells⟩ := exists_spells spelled arrival.found
  have upper := isLast reached _ foundReached (spells.of_label there).1
  have lower : ¬ reached < number := by
    intro before
    obtain ⟨_, piece, spells⟩ := Fallible.exists_related spelled foundLabelling
    obtain ⟨place, atPlace⟩ := spells.exists_label labels
    have inside := (List.getElem?_eq_some_iff.mp atPlace).1
    have lies : Lies pieces (Concat.start id pieces number + place) number place _ :=
      ⟨piece, inside, rfl⟩
    have le := le_of_labelPosition? aims (lies.getElem?.trans atPlace)
    have ends := Concat.start_succ id arrival.found
    have mono : Concat.start id pieces (reached + 1) ≤ Concat.start id pieces number :=
      Concat.start_mono id before
    have here := arrival.here
    have within := arrival.inside
    simp only [id_eq] at ends
    omega
  obtain rfl : reached = number := by omega
  exact ⟨offset, items, arrival, there⟩

theorem Lies.onward_jump (lies : Lies pieces position number offset items)
    (found : cuts[number]? = some stretch)
    (isOk : successors cuts number stretch.ending = .ok targets)
    (here : items[offset]? = some (.instr instr)) (branches : instr.op.isBranch = true)
    (aims : instr.label?.bind (labelPosition? pieces.flatten) = some target) :
    Onward pieces stretch targets number offset items target := by
  have spells := spells_of_getElem? spelled found lies.found
  obtain ⟨⟨label, aimed, isLabel⟩, behind⟩ := spells.of_branch here branches
  obtain ⟨next, member, isNext⟩ := labelled_of_aims isOk aimed
  rw [isLabel, Option.bind_some] at aims
  obtain ⟨offset', more, arrival, there⟩ := exists_lies_of_labelled spelled isNext aims
  obtain ⟨_, _, spells'⟩ := exists_spells spelled arrival.found
  exact .inr ⟨behind, next, member, offset', more, arrival, (spells'.of_label there).2⟩

theorem Follows.onward (follows : Follows pieces.flatten position target)
    (inside : target < pieces.flatten.length) (lies : Lies pieces position number offset items)
    (found : cuts[number]? = some stretch)
    (isOk : successors cuts number stretch.ending = .ok targets) :
    Onward pieces stretch targets number offset items target := by
  have here := lies.getElem?
  cases follows with
  | label isLabel =>
    rw [here] at isLabel
    exact lies.onward_next spelled found isOk inside (by simp [isLabel])
  | next isInstr noJump goes =>
    rw [here] at isInstr
    refine lies.onward_next spelled found isOk inside fun other same => ?_
    rw [isInstr] at same
    cases same
    exact ⟨noJump, goes⟩
  | jump isInstr branches aims =>
    rw [here] at isInstr
    exact lies.onward_jump spelled found isOk isInstr branches aims

end Control

/-- Flat code is what its cuts spell, and its stretches are the cuts with their ends resolved. -/
structure Divided (code : FlatCode) (cuts : List OpenStretch) (pieces : List (List Item))
    (stretches : List Stretch) : Prop where
  spelled : List.Forall₂ OpenStretch.Spells cuts pieces
  whole : code = pieces.flatten
  length : stretches.length = cuts.length
  resolved : ∀ number stretch, cuts[number]? = some stretch → ∃ targets,
    successors cuts number stretch.ending = .ok targets ∧
      stretches[number]? = some ⟨stretch.labels, stretch.instrs, targets⟩

theorem exists_divided {code : FlatCode} {found : List Stretch}
    (isOk : code.stretches = .ok found) : ∃ cuts pieces, Divided code cuts pieces found := by
  simp only [stretches, Fallible.bind_eq_ok, Fallible.mapM_eq_ok, Fallible.pure_eq_ok] at isOk
  obtain ⟨cuts, isCut, related⟩ := isOk
  obtain ⟨pieces, spelled, whole⟩ := cut_into isCut (by rintro _ ⟨⟩)
  refine ⟨cuts, pieces, spelled, by simpa using whole, by simpa using related.length_eq.symm,
    fun number stretch atNumber => ?_⟩
  have here : cuts.zipIdx[number]? = some (stretch, number) := by
    simp [List.getElem?_zipIdx, atNumber]
  obtain ⟨_, isFound, targets, isTargets, rfl⟩ := Fallible.exists_related related here
  exact ⟨targets, isTargets, isFound⟩

end FlatCode

end ContractBackend
