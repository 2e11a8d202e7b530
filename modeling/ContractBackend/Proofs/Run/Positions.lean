import ContractBackend.Proofs.Run.Activations
import ContractBackend.Proofs.Slots.Locals
import ContractBackend.Proofs.Spill.Execution

/-!
# Where control is in the flat code

The code of a routine is what the elements of its flat code become. This module says at which
element of the flat code control is when an instruction is fetched, and which elements of the
flat code it goes on to. The slots of a routine have different cells, so that the values that are
saved around a call are put back where they came from.

An instruction of flat code stays as it is, or it is a call that has code around it that saves the
slots of its routine.
-/

namespace ContractBackend

open Machine (State Limits Environment Memory Value)

namespace Build

variable {α : Type} {main : Expr} {options : CompileOptions} {before : Program} {label : Label}
  {slot : Slot}

/-- Code of a routine without branches and calls is executed from its start to its end. -/
abbrev Executes (build : Build main options before) (limits : Limits) (env : Environment)
    (routine : Routine) :=
  build.resolver.Executes limits env (build.resolver.scope routine)

/-- Where an element of the flat code of a routine starts in its code. -/
def startOf (build : Build main options before) (routine : Routine) (flat : FlatCode)
    (position : Nat) : Nat :=
  Concat.start (build.elements routine) flat position

/-- Control comes to an element of the code of a routine, if need be past labels. -/
def Nears (build : Build main options before) (routine : Routine) (line index : Nat) : Prop :=
  build.code.fetch line = build.code.fetch (Link.lineOf build.table routine index)

variable {build : Build main options before} {gauge : Routine → Gauge α} {start : Routine → α}
  {routine : Routine} {flat : FlatCode} {code : List Link.Element} {line index position : Nat}
  {level : α} {instr : Instr} {arguments : List Argument} {item : Item}

theorem lookup_of_flat (isFlat : build.flat.lookup routine = some flat) :
    build.table.lookup routine = some (flat.flatMap (build.elements routine)) := by
  rw [lookup_table, isFlat]
  rfl

theorem Finds.eq_flatMap (isFlat : build.flat.lookup routine = some flat)
    (finds : build.Finds routine line code index instr arguments) :
    code = flat.flatMap (build.elements routine) :=
  Option.some.inj (finds.found.symm.trans (lookup_of_flat isFlat))

/-! ## Elements of the flat code -/

theorem startOf_zero : build.startOf routine flat 0 = 0 := Concat.start_zero _

theorem startOf_succ (here : flat[position]? = some item) :
    build.startOf routine flat (position + 1) =
      build.startOf routine flat position + (build.elements routine item).length :=
  Concat.start_succ _ here

theorem getElem?_elements {offset : Nat} {element : Link.Element}
    (here : flat[position]? = some item)
    (found : (build.elements routine item)[offset]? = some element) :
    (flat.flatMap (build.elements routine))[build.startOf routine flat position + offset]? =
      some element :=
  (Concat.getElem?_start_add _ here (List.getElem?_eq_some_iff.mp found).1).trans found

theorem elements_label (label : Label) :
    build.elements routine (.label label) = [⟨.label label, false⟩] := by
  simp [elements, Spill.expand_label]

theorem startOf_label (here : flat[position]? = some (.label label)) :
    build.startOf routine flat (position + 1) = build.startOf routine flat position + 1 := by
  rw [startOf_succ here, elements_label]
  rfl

/-- Behind the last element there is no code. -/
theorem length_le_startOf (build : Build main options before) (routine : Routine)
    (outside : flat.length ≤ position) :
    (flat.flatMap (build.elements routine)).length ≤ build.startOf routine flat position := by
  rw [startOf, Concat.start, List.take_of_length_le outside]

theorem startOf_eq (routine : Routine) (flat : FlatCode) (position : Nat) :
    build.startOf routine flat position = Concat.start (Spill.expand build.context.program
      build.callGraph options.version routine (build.localsOf routine)) flat position := by
  simp [startOf, Concat.start, List.length_flatMap, elements]

/-- A label is where its element of the flat code starts. -/
theorem exists_labelPosition? {target : Nat}
    (isTarget : FlatCode.labelPosition? ((flat.flatMap (build.elements routine)).map
      Link.Element.item) label = some target) :
    ∃ position, flat.labelPosition? label = some position ∧
      target = build.startOf routine flat position := by
  rw [items_elements] at isTarget
  have member : .label label ∈ flat := by
    have expanded := List.mem_of_getElem? (FlatCode.getElem?_of_labelPosition? isTarget)
    obtain ⟨item, inFlat, member⟩ := List.mem_flatMap.mp expanded
    cases item with
    | instr instr => exact absurd member (Spill.not_label_mem_expand instr label)
    | label other =>
      rw [Spill.expand_label, List.mem_singleton] at member
      exact member ▸ inFlat
  obtain ⟨position, isPosition⟩ := FlatCode.exists_labelPosition? member
  refine ⟨position, isPosition, ?_⟩
  rw [startOf_eq]
  exact Option.some.inj (isTarget.symm.trans (FlatCode.labelPosition?_flatMap Spill.expand_label
    Spill.not_label_mem_expand isPosition))

/-! ## The element at hand -/

theorem nears_firstLine {id : SubroutineId} (found : build.table.lookup (.subroutine id) = some code) :
    build.Nears (.subroutine id) (Link.firstLine build.table (.subroutine id)) 0 := by
  obtain ⟨label, name, _, there⟩ := build.isListed.exists_label found
  rw [← lines_code] at there
  exact Machine.Code.fetch_label there

/-- Labels are passed over. -/
theorem Nears.past (isFlat : build.flat.lookup routine = some flat)
    (here : flat[position]? = some (.label label))
    (nears : build.Nears routine line (build.startOf routine flat position)) :
    build.Nears routine line (build.startOf routine flat (position + 1)) := by
  have element : ((flat.flatMap (build.elements routine)).map Link.Element.item)[build.startOf
      routine flat position]? = some (.label label) := by
    have first : (build.elements routine (.label label))[0]? = some ⟨.label label, false⟩ := by
      rw [elements_label]
      rfl
    have found := getElem?_elements here first
    rw [Nat.add_zero] at found
    rw [List.getElem?_map, found]
    rfl
  have there := build.isListed.lineOf_label (lookup_of_flat isFlat) element
  rw [← lines_code] at there
  rw [startOf_label here]
  exact nears.trans (Machine.Code.fetch_label there)

/-- Where there is an instruction, it is fetched. -/
theorem Nears.eq_of_instr {place : Nat} {other : Instr} (nears : build.Nears routine line place)
    (finds : build.Finds routine line code index instr arguments)
    (here : (code.map Link.Element.item)[place]? = some (.instr other)) :
    index = place ∧ instr = other := by
  obtain ⟨_, _, there⟩ := build.isListed.lineOf_instr finds.found here
  rw [← lines_code] at there
  have fetched := finds.fetched
  rw [nears, Machine.Code.fetch_instr there] at fetched
  have same : place = index := Nat.add_left_cancel (congrArg Prod.fst (Option.some.inj fetched))
  subst same
  have there := finds.here
  rw [here] at there
  cases there
  exact ⟨rfl, rfl⟩

/-- The element of the flat code that is at hand when an instruction is fetched. What holds where
control comes to, and past labels, holds there. -/
theorem Nears.exists_instr (isFlat : build.flat.lookup routine = some flat)
    (finds : build.Finds routine line code index instr arguments)
    {holds : Nat → Prop} (nears : build.Nears routine line (build.startOf routine flat position))
    (holdsThere : holds position)
    (past : ∀ position label, flat[position]? = some (.label label) → holds position →
      holds (position + 1)) :
    ∃ position other, flat[position]? = some (.instr other) ∧ holds position ∧
      build.Nears routine line (build.startOf routine flat position) := by
  have isCode := finds.eq_flatMap isFlat
  subst isCode
  generalize isCount : flat.length - position = count
  induction count generalizing position with
  | zero =>
    -- There is no code left, but something has been fetched.
    have behind := build.length_le_startOf routine (Nat.le_of_sub_eq_zero isCount)
    have fetched := finds.fetched
    rw [nears] at fetched
    have le := (Machine.Code.of_fetch fetched).1
    have inside := (List.getElem?_eq_some_iff.mp finds.here).1
    rw [List.length_map] at inside
    simp only [Link.lineOf] at le
    omega
  | succ count ih =>
    have inside : position < flat.length := by omega
    cases here : flat[position] with
    | instr other =>
      exact ⟨position, other, by rw [List.getElem?_eq_getElem inside, here], holdsThere, nears⟩
    | label label =>
      have here : flat[position]? = some (.label label) := by
        rw [List.getElem?_eq_getElem inside, here]
      exact ih (nears.past isFlat here) (past position label here holdsThere) (by omega)

/-! ## Saved slots -/

theorem cell?_eq_cellOf (mentioned : slot ∈ build.usage.slotsOf routine) :
    build.slots.cell? slot = some (build.resolver.cellOf slot) := by
  obtain ⟨cell, isCell⟩ := SlotUsage.exists_cell build.assigned mentioned
  have same : build.resolver.slots.cell? slot = some cell := isCell
  rw [isCell, Link.Resolver.cellOf, same, Option.getD_some]

theorem cellOf_inj {left right : Slot} (hasLeft : left ∈ build.usage.slotsOf routine)
    (hasRight : right ∈ build.usage.slotsOf routine)
    (same : build.resolver.cellOf left = build.resolver.cellOf right) : left = right :=
  SlotUsage.eq_of_same_cell build.assigned hasLeft hasRight (cell?_eq_cellOf hasLeft)
    (same ▸ cell?_eq_cellOf hasRight)

/-- Every slot of a routine gets its value back. -/
theorem get_restored {saved : Slot → Value} {slots : List Slot} {scratch : Vector Value cellCount}
    (mentioned : ∀ slot ∈ slots, slot ∈ build.usage.slotsOf routine) (member : slot ∈ slots) :
    (build.resolver.restored saved slots scratch).get (build.resolver.cellOf slot) = saved slot :=
  Link.Resolver.get_restored
    (fun left isLeft right isRight => cellOf_inj (mentioned left isLeft) (mentioned right isRight))
    member

theorem mem_localsOf : slot ∈ build.localsOf routine ↔
    slot ∈ build.usage.slotsOf routine ∧ build.usage.isGlobal slot = false :=
  SlotUsage.mem_locals

theorem mem_localsOf_of_private (isPrivate : slot ∈ build.usage.privateSlots routine) :
    slot ∈ build.localsOf routine := by
  obtain ⟨mentioned, isLocal, _⟩ := SlotUsage.mem_privateSlots.mp isPrivate
  exact mem_localsOf.mpr ⟨mentioned, isLocal⟩

/-! ## Call sites -/

/-- An instruction that stays as it is, because it is no call that can enter the routine again or
there is nothing to save. -/
structure Standing (build : Build main options before) (routine : Routine) (flat : FlatCode)
    (position : Nat) (instr : Instr) : Prop where
  here : flat[position]? = some (.instr instr)
  stays : build.elements routine (.instr instr) = [⟨.instr instr, false⟩]
  single : ∀ callee, CallGraph.callee? instr = some callee →
    build.callGraph.isReentry routine callee = false ∨ build.localsOf routine = []

/-- A call with the code that saves the slots of the routine around it. -/
structure Surrounded (build : Build main options before) (routine : Routine) (flat : FlatCode)
    (position : Nat) (call : Instr) (callee : SubroutineId) (handle : Handle)
    (low lower : List Instr) : Prop where
  here : flat[position]? = some (.instr call)
  calls : CallGraph.callee? call = some callee
  isDeclared : build.context.program.declared callee = some handle
  surrounds : Spill.Surrounds (build.localsOf routine) handle.argCount handle.returns.isValue
    options.version low lower
  expands : build.elements routine (.instr call) =
    (Spill.saves (build.localsOf routine) low).map (fun instr => ⟨.instr instr, true⟩) ++
      ⟨.instr call, false⟩ ::
        (Spill.restores (build.localsOf routine) lower).map fun instr => ⟨.instr instr, true⟩

variable {call : Instr} {callee : SubroutineId} {handle : Handle} {low lower done todo : List Instr}

/-- What an instruction of the flat code becomes. -/
theorem standing_or_surrounded (isFlat : build.flat.lookup routine = some flat)
    (here : flat[position]? = some (.instr instr)) :
    build.Standing routine flat position instr ∨ ∃ callee handle low lower,
      build.Surrounded routine flat position instr callee handle low lower := by
  cases build.becomes _ (mem_of_lookup isFlat) _ (List.mem_of_getElem? here) with
  | kept stays single =>
    refine .inl ⟨here, by simp [elements, stays], fun callee calls => ?_⟩
    refine single.imp_left fun none => ?_
    by_contra reenters
    have reentered : Spill.reentered? build.callGraph routine (.instr instr) =
        some (instr, callee) :=
      Spill.reentered?_eq_some.mpr ⟨rfl, calls, Bool.not_eq_false _ ▸ reenters⟩
    rw [none] at reentered
    cases reentered
  | saved saves =>
    have isCall := saves.isCall
    cases isCall
    obtain ⟨low, lower, surrounds, isSequence⟩ := Spill.sequence_eq_ok.mp saves.made
    refine .inr ⟨_, _, low, lower, here, saves.calls, saves.isDeclared, surrounds, ?_⟩
    have inserted : ∀ other, CallGraph.callee? other = none →
        decide (Item.instr other ≠ .instr instr) = true := by
      intro other noCall
      have different : other ≠ instr := by
        rintro rfl
        rw [saves.calls] at noCall
        cases noCall
      simp [different]
    have before := List.map_congr_left fun other member =>
      congrArg (Link.Element.mk (.instr other))
        (inserted other (surrounds.inserted_of_mem_saves member).callee?)
    have behind := List.map_congr_left fun other member =>
      congrArg (Link.Element.mk (.instr other))
        (inserted other (surrounds.inserted_of_mem_restores member).callee?)
    rw [elements, saves.expands, isSequence, List.map_map, List.map_append, List.map_cons, ← before,
      ← behind]
    simp [Function.comp_def]

/-- Where the code behind an instruction starts that stays as it is. -/
theorem Standing.startOf_succ (standing : build.Standing routine flat position instr) :
    build.startOf routine flat (position + 1) = build.startOf routine flat position + 1 := by
  rw [Build.startOf_succ standing.here, standing.stays]
  rfl

theorem Standing.getElem? (standing : build.Standing routine flat position instr) :
    (flat.flatMap (build.elements routine))[build.startOf routine flat position]? =
      some ⟨.instr instr, false⟩ := by
  have first : (build.elements routine (.instr instr))[0]? = some ⟨.instr instr, false⟩ := by
    rw [standing.stays]
    rfl
  exact getElem?_elements standing.here first

theorem getElem?_of_split {all : List Instr} (split : all = done ++ instr :: todo) :
    all[done.length]? = some instr := by
  simp [split]

section Around

variable {saves restores : List Instr} {offset : Nat} (here : flat[position]? = some (.instr call))
  (expands : build.elements routine (.instr call) =
    saves.map (fun instr => ⟨.instr instr, true⟩) ++ ⟨.instr call, false⟩ ::
      restores.map fun instr => ⟨.instr instr, true⟩)
include here expands

/-- What is executed before a call with code around it. -/
theorem getElem?_before (isInstr : saves[offset]? = some instr) :
    (flat.flatMap (build.elements routine))[build.startOf routine flat position + offset]? =
      some ⟨.instr instr, true⟩ := by
  have inside := (List.getElem?_eq_some_iff.mp isInstr).1
  refine getElem?_elements here ?_
  rw [expands, List.getElem?_append_left (by rwa [List.length_map]), List.getElem?_map, isInstr]
  rfl

theorem getElem?_call :
    (flat.flatMap (build.elements routine))[build.startOf routine flat position + saves.length]? =
      some ⟨.instr call, false⟩ :=
  getElem?_elements here (by simp [expands])

/-- What is executed behind it. -/
theorem getElem?_behind (isInstr : restores[offset]? = some instr) :
    (flat.flatMap (build.elements routine))[build.startOf routine flat position +
      (saves.length + 1 + offset)]? = some ⟨.instr instr, true⟩ := by
  refine getElem?_elements here ?_
  rw [expands, Nat.add_assoc, List.getElem?_append_right (by simp), List.length_map,
    Nat.add_sub_cancel_left, Nat.add_comm 1, List.getElem?_cons_succ, List.getElem?_map, isInstr]
  rfl

/-- Where the code behind all of it starts. -/
theorem startOf_behind : build.startOf routine flat (position + 1) =
    build.startOf routine flat position + (saves.length + 1 + restores.length) := by
  rw [startOf_succ here, expands]
  simp only [List.length_append, List.length_map, List.length_cons]
  omega

end Around

namespace Surrounded

variable (surrounded : build.Surrounded routine flat position call callee handle low lower)
include surrounded

theorem op_eq : call.op = .callsub := (CallGraph.callee?_eq_some.mp surrounded.calls).1

end Surrounded

end Build

end ContractBackend
