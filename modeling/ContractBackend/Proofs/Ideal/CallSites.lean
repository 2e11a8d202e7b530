import ContractBackend.Proofs.Ideal.Optimizing
import ContractBackend.Proofs.Run.Isolation

/-!
# Calls with the slots that are saved around them

Every call becomes code that saves slots, the call, and code that puts the slots back. If no slots
are saved then there is nothing but the call. What saves slots and puts them back is straight code:
if it can be executed then a run goes through it, and a run that ends has executed it.
-/

namespace ContractBackend

open Machine (State Limits Environment Memory Value Flow Outcome)

/-! ## Straight code -/

namespace Build

variable {main : Expr} {options : CompileOptions} {before : Program}

/-- Straight code stands at a place of the code of a routine. -/
structure Located (build : Build main options before) (routine : Routine) (index : Nat)
    (instrs : List Instr) : Prop where
  items : ∃ code, build.table.lookup routine = some code ∧ ∀ offset instr,
    instrs[offset]? = some instr → (code.map Link.Element.item)[index + offset]? = some (.instr instr)

variable {build : Build main options before} {limits : Limits} {env : Environment}
  {routine : Routine} {index line steps : Nat} {instr : Instr} {rest instrs : List Instr}
  {memory after : Memory} {frames : List Nat} {outcome : Outcome}
  {slots : List Slot} {argCount : Nat} {returnsValue : Bool} {version : Version}

namespace Located

/-- The first instruction is fetched. -/
theorem fetch
    (located : build.Located routine index (instr :: rest)) (nears : build.Nears routine line index) :
    ∃ arguments, build.code.fetch line =
        some (Link.lineOf build.table routine index, instr.op, arguments) ∧
      instr.operands.mapM (build.resolver.operand (build.resolver.scope routine)) =
        .ok arguments := by
  obtain ⟨code, found, items⟩ := located.items
  obtain ⟨arguments, resolved, there⟩ := build.isListed.lineOf_instr found (items 0 instr rfl)
  rw [← lines_code] at there
  exact ⟨arguments, nears.trans (Machine.Code.fetch_instr there), resolved⟩

theorem tail (located : build.Located routine index (instr :: rest)) :
    build.Located routine (index + 1) rest := by
  obtain ⟨code, found, items⟩ := located.items
  refine ⟨code, found, fun offset other here => ?_⟩
  rw [Nat.add_right_comm, Nat.add_assoc]
  exact items (offset + 1) other here

end Located

/-- A run goes through straight code that can be executed. -/
theorem Executes.travels
    (inserted : ∀ instr ∈ instrs, Spill.Inserted slots argCount returnsValue version instr)
    (executes : build.Executes limits env routine instrs memory after)
    (located : build.Located routine index instrs) (nears : build.Nears routine line index)
    (frames : List Nat) (steps : Nat) :
    ∃ line', build.Nears routine line' (index + instrs.length) ∧
      State.Travels limits env build.code ⟨memory, line, frames, steps⟩ instrs.length
        ⟨after, line', frames, steps + instrs.length⟩ := by
  induction executes generalizing index line steps with
  | nil => exact ⟨line, nears, .refl⟩
  | @cons instr rest _ _ _ _ _ resolved executed _ ih =>
    rw [List.forall_mem_cons] at inserted
    obtain ⟨arguments, fetched, resolved'⟩ := located.fetch nears
    cases resolved.symm.trans resolved'
    have executed := Machine.execute_wider (Nat.le_refl _) executed
      (Link.lineOf build.table routine index + 1)
    have nears' : build.Nears routine (Link.lineOf build.table routine index + 1) (index + 1) := rfl
    obtain ⟨line', nears'', travels⟩ := ih inserted.2 located.tail nears' (steps + 1)
    refine ⟨line', ?_, ?_⟩
    · rw [List.length_cons, Nat.add_comm rest.length, ← Nat.add_assoc]
      exact nears''
    · rw [List.length_cons, Nat.add_comm rest.length, ← Nat.add_assoc, Nat.add_comm 1]
      exact .head (.intro fetched executed .next) travels

/-- A run that ends has executed the straight code that it has come to. -/
theorem Located.exists_executes
    (inserted : ∀ instr ∈ instrs, Spill.Inserted slots argCount returnsValue version instr)
    (located : build.Located routine index instrs) (nears : build.Nears routine line index)
    (ends : State.Ends limits env build.code ⟨memory, line, frames, steps⟩ outcome) :
    ∃ after, build.Executes limits env routine instrs memory after := by
  induction instrs generalizing index line steps memory with
  | nil => exact ⟨memory, .nil⟩
  | cons instr rest ih =>
    rw [List.forall_mem_cons] at inserted
    obtain ⟨arguments, fetched, resolved⟩ := located.fetch nears
    obtain ⟨flow, middle, executed, _⟩ := ends.exists_execute fetched
    cases inserted.1.eq_next (Machine.flows_of_execute executed).1
    have nears' : build.Nears routine (Link.lineOf build.table routine index + 1) (index + 1) := rfl
    have moves : State.Moves limits env build.code ⟨memory, line, frames, steps⟩ _ :=
      .intro fetched executed .next
    obtain ⟨after, executes⟩ :=
      ih inserted.2 located.tail nears' ((State.Travels.single moves).ends ends)
    exact ⟨after, .cons resolved executed executes⟩

end Build

/-! ## Calls -/

namespace Spill

variable {slots : List Slot} {argCount : Nat} {returnsValue : Bool} {version : Version}
  {low lower : List Instr}

theorem length_of_sink {depth : Nat} {fault : ProgramFault}
    (made : sink depth version fault = .ok low) : low.length = if depth = 0 then 0 else 1 := by
  obtain ⟨rfl, rfl⟩ | ⟨deep, _, rfl⟩ | ⟨rfl, _, rfl⟩ := sink_eq_ok.mp made
  · rfl
  · rw [if_neg deep]
    rfl
  · rfl

namespace Surrounds

/-- Saving slots takes as many steps as the ideal machine charges. -/
theorem length_saves {handle : Handle}
    (surrounds : Surrounds slots handle.argCount returnsValue version low lower) :
    (saves slots low).length = Ideal.savingSteps slots handle := by
  have total : (saves slots low).length = slots.length * (low.length + 1) := by
    simp [saves, List.length_flatMap]
  rw [total, Ideal.savingSteps]
  by_cases none : slots = []
  · simp [none]
  · rw [length_of_sink (surrounds.low none)]
    split <;> rfl

/-- Putting slots back takes as many steps as the ideal machine charges. -/
theorem length_restores {handle : Handle}
    (surrounds : Surrounds slots argCount handle.returns.isValue version low lower) :
    (restores slots lower).length = Ideal.restoringSteps slots handle := by
  have sunk : lower.length = if handle.returns.isValue && !slots.isEmpty then 1 else 0 := by
    have isLower := surrounds.lower
    cases returns : handle.returns.isValue with
    | false =>
      rw [returns] at isLower
      cases isLower
      rfl
    | true =>
      rw [returns, if_pos rfl] at isLower
      rw [length_of_sink isLower]
      cases slots <;> rfl
  rw [restores, Ideal.restoringSteps, List.length_append, sunk, List.length_map,
    List.length_reverse, Nat.add_comm]

end Surrounds

end Spill

namespace Build

variable {main : Expr} {options : CompileOptions} {before : Program} {slot : Slot}

/-- A call with the code around it that saves slots and puts them back. -/
structure CallSite (build : Build main options before) (routine : Routine) (flat : FlatCode)
    (position : Nat) (call : Instr) (callee : SubroutineId) (handle : Handle)
    (low lower : List Instr) : Prop where
  isFlat : build.flat.lookup routine = some flat
  here : flat[position]? = some (.instr call)
  calls : CallGraph.callee? call = some callee
  surrounds : Spill.Surrounds (build.setting.saved routine callee) handle.argCount
    handle.returns.isValue options.version low lower
  expands : build.elements routine (.instr call) =
    (Spill.saves (build.setting.saved routine callee) low).map (fun instr => ⟨.instr instr, true⟩) ++
      ⟨.instr call, false⟩ ::
        (Spill.restores (build.setting.saved routine callee) lower).map
          fun instr => ⟨.instr instr, true⟩

variable {build : Build main options before} {routine : Routine} {flat : FlatCode}
  {position : Nat} {call : Instr} {callee : SubroutineId} {handle : Handle} {low lower : List Instr}

/-- The slots that are saved are local slots of the routine. -/
theorem mem_localsOf_of_saved (isSaved : slot ∈ build.setting.saved routine callee) :
    slot ∈ build.localsOf routine := by
  simp only [setting] at isSaved
  split at isSaved
  next => exact isSaved
  next => cases isSaved

theorem mem_slotsOf_of_saved (isSaved : slot ∈ build.setting.saved routine callee) :
    slot ∈ build.usage.slotsOf routine :=
  (mem_localsOf.mp (mem_localsOf_of_saved isSaved)).1

/-- A call that can enter its caller again saves all local slots. -/
theorem isReentry_of_not_saved (isLocal : slot ∈ build.localsOf routine)
    (notSaved : slot ∉ build.setting.saved routine callee) :
    build.callGraph.isReentry routine callee = false := by
  simp only [setting] at notSaved
  split at notSaved
  next => exact absurd isLocal notSaved
  next single => exact Bool.not_eq_true _ ▸ single

/-- Every call is a call site. -/
theorem exists_callSite (isFlat : build.flat.lookup routine = some flat)
    (here : flat[position]? = some (.instr call)) (calls : CallGraph.callee? call = some callee)
    (isDeclared : build.context.program.declared callee = some handle) :
    ∃ low lower, build.CallSite routine flat position call callee handle low lower := by
  -- A call that stays as it is has empty code around it.
  have alone : build.setting.saved routine callee = [] →
      build.elements routine (.instr call) = [⟨.instr call, false⟩] →
      ∃ low lower, build.CallSite routine flat position call callee handle low lower := by
    intro none stays
    refine ⟨[], [], isFlat, here, calls, ?_, ?_⟩
    · rw [none]
      refine ⟨fun some => absurd rfl some, ?_⟩
      split <;> rfl
    · rw [none]
      exact stays
  rcases standing_or_surrounded isFlat here with standing | ⟨id, declared, low, lower, surrounded⟩
  · refine alone ?_ standing.stays
    rcases standing.single callee calls with single | none
    · simp [setting, single]
    · simp [setting, none]
  · cases calls.symm.trans surrounded.calls
    cases isDeclared.symm.trans surrounded.isDeclared
    cases reenters : build.callGraph.isReentry routine callee with
    | true =>
      have saved : build.setting.saved routine callee = build.localsOf routine := by
        simp [setting, reenters]
      exact ⟨low, lower, isFlat, here, calls, saved ▸ surrounded.surrounds,
        saved ▸ surrounded.expands⟩
    | false =>
      refine alone (by simp [setting, reenters]) ?_
      have none : Spill.reentered? build.callGraph routine (.instr call) = none := by
        rw [Option.eq_none_iff_forall_ne_some]
        rintro ⟨other, id⟩ reentered
        obtain ⟨same, calls', reenters'⟩ := Spill.reentered?_eq_some.mp reentered
        cases same
        cases calls.symm.trans calls'
        rw [reenters] at reenters'
        cases reenters'
      simp [elements, Spill.expand_of_reentered?_eq_none none]

namespace CallSite

variable (site : build.CallSite routine flat position call callee handle low lower)
include site

/-- Where the call itself stands. -/
theorem located_call : build.Located routine (build.startOf routine flat position +
    (Spill.saves (build.setting.saved routine callee) low).length) [call] := by
  refine ⟨_, lookup_of_flat site.isFlat, fun offset instr isInstr => ?_⟩
  cases offset with
  | succ => cases isInstr
  | zero =>
    cases isInstr
    exact item_of_element (getElem?_call site.here site.expands)

theorem located_saves : build.Located routine (build.startOf routine flat position)
    (Spill.saves (build.setting.saved routine callee) low) :=
  ⟨_, lookup_of_flat site.isFlat, fun _ _ isInstr =>
    item_of_element (getElem?_before site.here site.expands isInstr)⟩

/-- Where the slots are put back. -/
theorem located_restores : build.Located routine (build.startOf routine flat position +
    ((Spill.saves (build.setting.saved routine callee) low).length + 1))
    (Spill.restores (build.setting.saved routine callee) lower) := by
  refine ⟨_, lookup_of_flat site.isFlat, fun offset instr isInstr => ?_⟩
  rw [Nat.add_assoc]
  exact item_of_element (getElem?_behind site.here site.expands isInstr)

/-- Where the code behind a call starts. -/
theorem startOf_succ : build.startOf routine flat (position + 1) =
    build.startOf routine flat position +
      ((Spill.saves (build.setting.saved routine callee) low).length + 1) +
      (Spill.restores (build.setting.saved routine callee) lower).length := by
  rw [startOf_behind site.here site.expands, ← Nat.add_assoc]

end CallSite

end Build

end ContractBackend
