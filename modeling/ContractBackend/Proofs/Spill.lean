import ContractBackend.Proofs.CallGraph
import ContractBackend.Proofs.Listing
import ContractBackend.Proofs.Program
import ContractBackend.Spill

/-!
# Code with saved slots

The code of a routine with its slots saved is what each element of its code becomes, put
together: a call that can enter the routine again becomes a sequence of instructions, all
else stays as it is. Routines are rewritten one after the other: where the slots of one of them
cannot be saved, those before it have been rewritten, it has lost its code, and those behind it are
as they were.
-/

namespace ContractBackend

namespace FlatCode

variable {code : FlatCode} {label : Label} {position : Nat}

/-- Where labels stay as they are and nothing else becomes one, a label is found where what it
becomes starts. -/
theorem labelPosition?_flatMap {part : Item → FlatCode}
    (kept : ∀ label, part (.label label) = [.label label])
    (others : ∀ instr label, .label label ∉ part (.instr instr))
    (found : code.labelPosition? label = some position) :
    labelPosition? (code.flatMap part) label = some (Concat.start part code position) := by
  have here := getElem?_of_labelPosition? found
  apply labelPosition?_of_last
  · have inside : 0 < (part (.label label)).length := by simp [kept]
    simpa [kept] using Concat.getElem?_start_add part here inside
  · intro other there
    have inside := (List.getElem?_eq_some_iff.mp there).1
    obtain ⟨index, item, offset, atIndex, within, rfl⟩ := Concat.exists_start_add part inside
    rw [Concat.getElem?_start_add part atIndex within] at there
    have member := List.mem_of_getElem? there
    cases item with
    | instr instr => exact absurd member (others instr label)
    | label other =>
      rw [kept, List.mem_singleton] at member
      cases member
      rw [kept, List.length_singleton, Nat.lt_one_iff] at within
      subst within
      exact Concat.start_mono part (le_of_labelPosition? found atIndex)

end FlatCode

namespace Spill

variable (program : Program) (graph : CallGraph) (version : Version) (routine : Routine)
  (slots : List Slot) {locals : RoutineTable (List Slot)} {instr : Instr}

/-- What an element of the code of a routine becomes. -/
def expand (item : Item) : FlatCode :=
  match reentered? graph routine item with
  | none => [item]
  | some (call, callee) =>
      match program.declared callee with
      | none => [item]
      | some handle =>
          match sequence call slots handle.argCount handle.returns.isValue version with
          | .ok instrs => instrs.map .instr
          | .error _ => [item]

/-- A call that can enter its caller again, with what saves the slots of the caller. -/
structure Saves (item : Item) (call : Instr) (callee : SubroutineId) (handle : Handle)
    (instrs : List Instr) : Prop where
  isCall : item = .instr call
  calls : CallGraph.callee? call = some callee
  reenters : graph.isReentry routine callee = true
  isDeclared : program.declared callee = some handle
  made : sequence call slots handle.argCount handle.returns.isValue version = .ok instrs
  expands : expand program graph version routine slots item = instrs.map .instr

/-- An element either stays as it is, because it is no call that can enter the routine again or
there is nothing to save, or slots are saved around it. -/
inductive Becomes (item : Item) : Prop where
  | kept : expand program graph version routine slots item = [item] →
      reentered? graph routine item = none ∨ slots = [] → Becomes item
  | saved {call : Instr} {callee : SubroutineId} {handle : Handle} {instrs : List Instr} :
      Saves program graph version routine slots item call callee handle instrs → Becomes item

variable {program graph version routine slots} {item : Item} {flat result : FlatCode} {sites : Nat}

theorem reentered?_eq_some {call : Instr} {callee : SubroutineId} :
    reentered? graph routine item = some (call, callee) ↔
      item = .instr call ∧ CallGraph.callee? call = some callee ∧
        graph.isReentry routine callee = true := by
  cases item with
  | label => simp [reentered?]
  | instr instr =>
    simp only [reentered?, Item.instr.injEq]
    cases called : CallGraph.callee? instr with
    | none =>
      constructor
      · simp
      · rintro ⟨rfl, isCall, _⟩
        simp [called] at isCall
    | some other =>
      simp only
      constructor
      · intro found
        split at found
        next reenters =>
          cases found
          exact ⟨rfl, called, reenters⟩
        next => cases found
      · rintro ⟨rfl, isCall, reenters⟩
        rw [called] at isCall
        cases isCall
        simp [reenters]

theorem expand_of_reentered?_eq_none (stays : reentered? graph routine item = none) :
    expand program graph version routine slots item = [item] := by
  rw [expand, stays]

/-- An element stays as it is, or slots are saved around it. -/
theorem expand_cases (item : Item) : expand program graph version routine slots item = [item] ∨
    ∃ call callee handle instrs,
      Saves program graph version routine slots item call callee handle instrs := by
  cases found : reentered? graph routine item with
  | none => exact .inl (expand_of_reentered?_eq_none found)
  | some site =>
    obtain ⟨call, callee⟩ := site
    cases isDeclared : program.declared callee with
    | none => exact .inl (by simp only [expand, found, isDeclared])
    | some handle =>
      cases made : sequence call slots handle.argCount handle.returns.isValue version with
      | error => exact .inl (by simp only [expand, found, isDeclared, made])
      | ok instrs =>
        obtain ⟨isCall, calls, reenters⟩ := reentered?_eq_some.mp found
        exact .inr ⟨call, callee, handle, instrs, isCall, calls, reenters, isDeclared, made,
          by simp only [expand, found, isDeclared, made]⟩

/-- Nothing is saved for a routine without slots. -/
theorem expand_nil : expand program graph version routine [] item = [item] := by
  rcases @expand_cases program graph version routine [] item with
    same | ⟨call, _, handle, instrs, saves⟩
  · exact same
  · have alone : sequence call [] handle.argCount handle.returns.isValue version = .ok [call] := by
      cases handle.returns.isValue <;> simp [sequence, sink]
    cases saves.made.symm.trans alone
    rw [saves.expands, saves.isCall]
    rfl

/-- The instructions around a call that save slots and put them back. What is saved goes below the
arguments, and the result goes below what has been saved. -/
inductive Inserted (slots : List Slot) (argCount : Nat) (returnsValue : Bool) (version : Version) :
    Instr → Prop where
  | load {slot : Slot} : slot ∈ slots → Inserted slots argCount returnsValue version (.load slot)
  | store {slot : Slot} : slot ∈ slots → Inserted slots argCount returnsValue version (.store slot)
  | cover {depth : Nat} : Opcode.cover.minVersion ≤ version →
      depth = argCount ∨ (returnsValue = true ∧ depth = slots.length) →
      Inserted slots argCount returnsValue version (.immediate .cover (UInt64.ofNat depth))
  | swap : Inserted slots argCount returnsValue version ⟨.swap, []⟩

variable {argCount : Nat} {returnsValue : Bool}

theorem Inserted.callee? (inserted : Inserted slots argCount returnsValue version instr) :
    CallGraph.callee? instr = none := by
  cases inserted <;> rfl

/-- What moves the topmost value below others. -/
theorem sink_eq_ok {depth : Nat} {fault : ProgramFault} {low : List Instr} :
    sink depth version fault = .ok low ↔
      (depth = 0 ∧ low = []) ∨
        (depth ≠ 0 ∧ Opcode.cover.minVersion ≤ version ∧
          low = [.immediate .cover (UInt64.ofNat depth)]) ∨
        (depth = 1 ∧ ¬ Opcode.cover.minVersion ≤ version ∧ low = [⟨.swap, []⟩]) := by
  rw [sink]
  by_cases none : depth = 0
  · simp [none, eq_comm]
  by_cases available : Opcode.cover.minVersion ≤ version
  · simp [none, available, eq_comm]
  · by_cases one : depth = 1 <;> simp [none, available, one, eq_comm]

/-- The instructions before and behind a call that slots are saved around. -/
structure Surrounds (slots : List Slot) (argCount : Nat) (returnsValue : Bool) (version : Version)
    (low lower : List Instr) : Prop where
  low : slots ≠ [] → sink argCount version .spillBelowArguments = .ok low
  lower : (if returnsValue then sink slots.length version .spillBelowResult else .ok []) = .ok lower

/-- What saves slots: each is loaded and moved below the arguments. -/
def saves (slots : List Slot) (low : List Instr) : List Instr :=
  slots.flatMap fun slot => .load slot :: low

/-- What puts slots back: the result is moved below the values, and these are stored. -/
def restores (slots : List Slot) (lower : List Instr) : List Instr :=
  lower ++ slots.reverse.map .store

/-- Every slot is saved by the same instructions. -/
theorem mapM_load_eq_ok {sunk : Except CompileError (List Instr)} {parts : List (List Instr)} :
    (slots.mapM fun slot => do pure (Instr.load slot :: (← sunk))) = .ok parts ↔
      ∃ low, (slots ≠ [] → sunk = .ok low) ∧ parts = slots.map fun slot => .load slot :: low := by
  cases sunk with
  | error cause =>
    cases slots with
    | nil =>
      rw [List.mapM_nil, Fallible.pure_eq_ok]
      simp [eq_comm]
    | cons => simp [List.mapM_cons]
  | ok low =>
    simp only [Fallible.ok_bind, Except.ok.injEq, List.mapM_pure, Fallible.pure_eq_ok]
    cases slots <;> simp [eq_comm]

/-- The parts of a call with slots saved around it. -/
theorem sequence_eq_ok {call : Instr} {instrs : List Instr} :
    sequence call slots argCount returnsValue version = .ok instrs ↔
      ∃ low lower, Surrounds slots argCount returnsValue version low lower ∧
        instrs = saves slots low ++ call :: restores slots lower := by
  have made : sequence call slots argCount returnsValue version = .ok instrs ↔
      ∃ parts, (slots.mapM fun slot => do
          pure (Instr.load slot :: (← sink argCount version .spillBelowArguments))) = .ok parts ∧
        ∃ lower, (if returnsValue then sink slots.length version .spillBelowResult else .ok []) =
            .ok lower ∧
          parts.flatten ++ call :: lower ++ slots.reverse.map .store = instrs := by
    rw [sequence, Fallible.bind_eq_ok]
    cases returnsValue <;> simp [Fallible.map_eq_ok]
  simp only [made, mapM_load_eq_ok]
  constructor
  · rintro ⟨_, ⟨low, sunk, rfl⟩, lower, isLower, rfl⟩
    exact ⟨low, lower, ⟨sunk, isLower⟩, by simp [saves, restores, List.flatMap_def]⟩
  · rintro ⟨low, lower, ⟨sunk, isLower⟩, rfl⟩
    exact ⟨_, ⟨low, sunk, rfl⟩, lower, isLower, by simp [saves, restores, List.flatMap_def]⟩

theorem inserted_of_mem_sink {depth : Nat} {fault : ProgramFault} {low : List Instr}
    (sinks : depth = argCount ∨ (returnsValue = true ∧ depth = slots.length))
    (made : sink depth version fault = .ok low) (member : instr ∈ low) :
    Inserted slots argCount returnsValue version instr := by
  obtain ⟨_, rfl⟩ | ⟨_, available, rfl⟩ | ⟨_, _, rfl⟩ := sink_eq_ok.mp made
  · cases member
  · rw [List.mem_singleton.mp member]
    exact .cover available sinks
  · rw [List.mem_singleton.mp member]
    exact .swap

namespace Surrounds

variable {low lower : List Instr} {instr : Instr}

theorem inserted_of_mem_saves
    (surrounds : Surrounds slots argCount returnsValue version low lower)
    (member : instr ∈ saves slots low) : Inserted slots argCount returnsValue version instr := by
  obtain ⟨slot, isSlot, member⟩ := List.mem_flatMap.mp member
  rcases List.mem_cons.mp member with rfl | inLow
  · exact .load isSlot
  · exact inserted_of_mem_sink (.inl rfl) (surrounds.low (List.ne_nil_of_mem isSlot)) inLow

theorem inserted_of_mem_restores
    (surrounds : Surrounds slots argCount returnsValue version low lower)
    (member : instr ∈ restores slots lower) : Inserted slots argCount returnsValue version instr := by
  rcases List.mem_append.mp member with inLower | isStore
  · have isLower := surrounds.lower
    split at isLower
    next returns => exact inserted_of_mem_sink (.inr ⟨returns, rfl⟩) isLower inLower
    next =>
      cases isLower
      cases inLower
  · obtain ⟨slot, isSlot, rfl⟩ := List.mem_map.mp isStore
    exact .store (List.mem_reverse.mp isSlot)

end Surrounds

/-- Among what an element becomes, all but the element is inserted around it. -/
theorem mem_expand (member : .instr instr ∈ expand program graph version routine slots item) :
    item = .instr instr ∨ ∃ call callee handle instrs,
      Saves program graph version routine slots item call callee handle instrs ∧
        Inserted slots handle.argCount handle.returns.isValue version instr := by
  rcases @expand_cases program graph version routine slots item with
    same | ⟨call, callee, handle, instrs, saves⟩
  · rw [same] at member
    exact .inl (List.mem_singleton.mp member).symm
  · rw [saves.expands] at member
    obtain ⟨other, inInstrs, same⟩ := List.mem_map.mp member
    cases same
    obtain ⟨low, lower, surrounds, rfl⟩ := sequence_eq_ok.mp saves.made
    rcases List.mem_append.mp inInstrs with before | here
    · exact .inr ⟨_, _, _, _, saves, surrounds.inserted_of_mem_saves before⟩
    rcases List.mem_cons.mp here with rfl | behind
    · exact .inl saves.isCall
    · exact .inr ⟨_, _, _, _, saves, surrounds.inserted_of_mem_restores behind⟩

/-- A call among what an element becomes is the element. -/
theorem eq_of_mem_expand {id : SubroutineId}
    (member : .instr instr ∈ expand program graph version routine slots item)
    (calls : CallGraph.callee? instr = some id) : item = .instr instr := by
  rcases mem_expand member with same | ⟨_, _, _, _, _, inserted⟩
  · exact same
  · simp [inserted.callee?] at calls

/-- Labels stay as they are. -/
theorem expand_label (label : Label) :
    expand program graph version routine slots (.label label) = [.label label] := rfl

/-- Instructions become instructions. -/
theorem not_label_mem_expand (instr : Instr) (label : Label) :
    .label label ∉ expand program graph version routine slots (.instr instr) := by
  rcases @expand_cases program graph version routine slots (.instr instr) with
    same | ⟨_, _, _, instrs, saves⟩
  · simp [same]
  · simp [saves.expands]

theorem becomes_nil : Becomes program graph version routine [] item := .kept expand_nil (.inr rfl)

/-- The code with saved slots is put together from what the elements become. -/
theorem code_eq_ok (isOk : code program graph version routine slots flat = .ok (result, sites)) :
    result = flat.flatMap (expand program graph version routine slots) ∧
      ∀ item ∈ flat, Becomes program graph version routine slots item := by
  induction flat generalizing result sites with
  | nil =>
    cases isOk
    exact ⟨rfl, nofun⟩
  | cons item rest ih =>
    rw [code] at isOk
    split at isOk
    next stays =>
      obtain ⟨⟨behind, _⟩, restOk, isOk⟩ := Fallible.bind_eq_ok.mp isOk
      cases isOk
      obtain ⟨rfl, others⟩ := ih restOk
      have here : expand program graph version routine slots item = [item] :=
        expand_of_reentered?_eq_none stays
      exact ⟨by simp [here], List.forall_mem_cons.mpr ⟨.kept here (.inl stays), others⟩⟩
    next call callee found =>
      simp only [Fallible.bind_eq_ok] at isOk
      obtain ⟨subroutine, registered, instrs, made, ⟨behind, _⟩, restOk, isOk⟩ := isOk
      cases isOk
      obtain ⟨rfl, others⟩ := ih restOk
      obtain ⟨isCall, called, reenters⟩ := reentered?_eq_some.mp found
      have isDeclared : program.declared callee = some subroutine.handle := by
        rw [Program.declared, Program.subroutine_eq_ok.mp registered, Option.map_some]
      have here : expand program graph version routine slots item = instrs.map .instr := by
        simp [expand, found, isDeclared, made]
      have saves : Saves program graph version routine slots item call callee subroutine.handle
          instrs := ⟨isCall, called, reenters, isDeclared, made, here⟩
      exact ⟨by simp [here], List.forall_mem_cons.mpr ⟨.saved saves, others⟩⟩

theorem ownCode_eq_ok {own : FlatCode}
    (isOk : ownCode program graph version locals routine flat = .ok (own, sites)) :
    own = flat.flatMap (expand program graph version routine ((locals.lookup routine).getD [])) ∧
      ∀ item ∈ flat,
        Becomes program graph version routine ((locals.lookup routine).getD []) item := by
  simp only [ownCode] at isOk
  split at isOk
  next empty =>
    cases isOk
    rw [List.isEmpty_iff.mp empty]
    have same : expand program graph version routine [] = fun item => [item] :=
      funext fun _ => expand_nil
    exact ⟨by rw [same, List.flatMap_singleton'], fun _ _ => becomes_nil⟩
  next => exact code_eq_ok isOk

theorem routines_cons {rest : RoutineTable FlatCode} :
    routines program graph version locals ((routine, flat) :: rest) =
      (ownCode program graph version locals routine flat >>= fun own =>
        routines program graph version locals rest >>= fun behind =>
          .ok ((routine, own.1) :: behind.1, own.2 + behind.2)) := by
  rw [routines, rewrite]
  cases ownCode program graph version locals routine flat with
  | error => rfl
  | ok own =>
    rw [routines]
    obtain ⟨behind, _ | _⟩ := rewrite program graph version locals rest <;> rfl

theorem routines_eq_ok {table spilled : RoutineTable FlatCode}
    (isOk : routines program graph version locals table = .ok (spilled, sites)) :
    spilled = table.map (fun entry => (entry.1, entry.2.flatMap
        (expand program graph version entry.1 ((locals.lookup entry.1).getD [])))) ∧
      ∀ entry ∈ table, ∀ item ∈ entry.2,
        Becomes program graph version entry.1 ((locals.lookup entry.1).getD []) item := by
  induction table generalizing spilled sites with
  | nil =>
    cases isOk
    exact ⟨rfl, List.forall_mem_nil _⟩
  | cons head rest ih =>
    obtain ⟨routine, flat⟩ := head
    simp only [routines_cons, Fallible.bind_eq_ok] at isOk
    obtain ⟨own, ownOk, behind, restOk, same⟩ := isOk
    cases same
    obtain ⟨isOwn, becomes⟩ := ownCode_eq_ok ownOk
    obtain ⟨isBehind, others⟩ := ih restOk
    rw [List.map_cons, List.forall_mem_cons, isOwn, isBehind]
    exact ⟨rfl, becomes, others⟩

section Stopping

variable {locals : RoutineTable (List Slot)} {table : RoutineTable FlatCode} {problem : CompileError}

theorem routines_eq_error : routines program graph version locals table = .error problem ↔
    (rewrite program graph version locals table).2 = .error problem := by
  rw [routines]
  obtain ⟨spilled, _ | _⟩ := rewrite program graph version locals table <;> simp [Except.map]

/-- Only code can fail to be rewritten. -/
theorem ownCode_nil (routine : Routine) :
    ownCode program graph version locals routine [] = .ok ([], 0) := by
  rw [ownCode]
  split
  next => rfl
  next => rfl

theorem rewrite_eq_error
    (failed : (rewrite program graph version locals table).2 = .error problem) :
    ∃ before routine flat after done sites, table = before ++ (routine, flat) :: after ∧
      rewrite program graph version locals before = (done, .ok sites) ∧
      ownCode program graph version locals routine flat = .error problem ∧
      (rewrite program graph version locals table).1 = done ++ (routine, []) :: after := by
  induction table with
  | nil => cases failed
  | cons head rest ih =>
    obtain ⟨routine, flat⟩ := head
    cases own : ownCode program graph version locals routine flat with
    | error =>
      simp only [rewrite, own] at failed ⊢
      cases failed
      exact ⟨[], routine, flat, rest, [], 0, rfl, rfl, own, rfl⟩
    | ok result =>
      have step : ∀ others, rewrite program graph version locals ((routine, flat) :: others) =
          ((routine, result.1) :: (rewrite program graph version locals others).1,
            (rewrite program graph version locals others).2.map (result.2 + ·)) := by
        intro others
        rw [rewrite, own]
      rw [step] at failed ⊢
      have stopped : (rewrite program graph version locals rest).2 = .error problem := by
        cases more : (rewrite program graph version locals rest).2 with
        | error => rwa [more] at failed
        | ok => rw [more] at failed; cases failed
      obtain ⟨before, stuck, code, after, done, sites, rfl, beforeOk, isStuck, left⟩ :=
        ih stopped
      refine ⟨(routine, flat) :: before, stuck, code, after, (routine, result.1) :: done,
        result.2 + sites, rfl, ?_, isStuck, ?_⟩
      · rw [step, beforeOk]
        rfl
      · rw [left]
        rfl

theorem length_rewrite (table : RoutineTable FlatCode) :
    (rewrite program graph version locals table).1.length = table.length := by
  induction table with
  | nil => rfl
  | cons head rest ih =>
    rw [rewrite]
    split
    next => rfl
    next => rw [List.length_cons, List.length_cons, ih]

/-- A failing pass never leaves the routines as they were: if the slots of some routine cannot
be saved, that routine had code and is left without, the routines before it are rewritten as by a
pass that succeeds, and those behind it stay. -/
theorem failing_rewrite_loses_code
    (failed : routines program graph version locals table = .error problem) :
    (rewrite program graph version locals table).1 ≠ table ∧
    ∃ before routine flat after done sites, table = before ++ (routine, flat) :: after ∧
      flat ≠ [] ∧ ownCode program graph version locals routine flat = .error problem ∧
      routines program graph version locals before = .ok (done, sites) ∧
      (rewrite program graph version locals table).1 = done ++ (routine, []) :: after := by
  obtain ⟨before, routine, flat, after, done, sites, rfl, beforeOk, stuck, left⟩ :=
    rewrite_eq_error (routines_eq_error.mp failed)
  have hasCode : flat ≠ [] := by
    rintro rfl
    rw [ownCode_nil] at stuck
    cases stuck
  refine ⟨fun same => hasCode ?_, before, routine, flat, after, done, sites, rfl, hasCode, stuck,
    ?_, left⟩
  · have lengths : done.length = before.length := by
      rw [← length_rewrite before, beforeOk]
    rw [left] at same
    cases (List.append_inj same lengths).2
    rfl
  · rw [routines, beforeOk]
    rfl

/-- Three subroutines that take one, two and no arguments. -/
def threeArities : Program where
  subroutines := #[⟨⟨0, "f", 1, .value .uint64⟩, [], .missing⟩,
    ⟨⟨1, "g", 2, .value .uint64⟩, [], .missing⟩, ⟨⟨2, "h", 0, .value .uint64⟩, [], .missing⟩]

/-- The first two of them use a slot and call themselves. -/
def selfCalls : RoutineTable FlatCode :=
  [(.main, [.instr (.callsub 0), .instr ⟨.ret, []⟩]),
   (.subroutine 0, [.instr (.store ⟨0, none⟩), .instr (.callsub 0), .instr ⟨.retsub, []⟩]),
   (.subroutine 1, [.instr (.store ⟨1, none⟩), .instr (.callsub 1), .instr ⟨.retsub, []⟩]),
   (.subroutine 2, [.instr ⟨.retsub, []⟩])]

theorem selfCalls_fail : routines threeArities (.ofRoutines selfCalls) 4
    (SlotUsage.ofRoutines selfCalls).locals selfCalls =
      .error (.invalidProgram .spillBelowArguments) := by
  decide +kernel

theorem failing_rewrite_loses_code_selfCalls :
    (rewrite threeArities (.ofRoutines selfCalls) 4 (SlotUsage.ofRoutines selfCalls).locals
      selfCalls).1 ≠ selfCalls ∧
    (rewrite threeArities (.ofRoutines selfCalls) 4 (SlotUsage.ofRoutines selfCalls).locals
      selfCalls).1.map (fun entry => entry.2.length) = [2, 7, 0, 1] :=
  ⟨(failing_rewrite_loses_code selfCalls_fail).1, by decide +kernel⟩

/-- Routines do not always stay as they were where a pass over them fails. -/
theorem failing_rewrite_may_change_routines :
    ¬ ∀ (program : Program) (graph : CallGraph) (version : Version)
      (locals : RoutineTable (List Slot)) (table : RoutineTable FlatCode) (problem : CompileError),
      routines program graph version locals table = .error problem →
        (rewrite program graph version locals table).1 = table := by
  intro unchanged
  have same := unchanged _ _ _ _ _ _ selfCalls_fail
  revert same
  decide +kernel

end Stopping

end Spill

end ContractBackend
