import Mathlib.Logic.Relation
import ContractBackend.CallGraph
import ContractBackend.Proofs.Search
import ContractBackend.Proofs.Tables
import ContractBackend.Slots.Usage

/-!
# What the call graph and slot usage know

The subroutines that a routine reaches are those at the ends of the chains of calls that
start with it, so whatever is active above an activation is reached from the routine of
the activation.

The private slots of a routine occur in the code of no other routine.
-/

namespace ContractBackend.CallGraph

open Relation (TransGen ReflTransGen)

variable {graph : CallGraph} {flat : RoutineTable FlatCode} {routine : Routine}
  {source middle target : SubroutineId}

theorem callee?_eq_some {instr : Instr} :
    callee? instr = some target ↔ instr.op = .callsub ∧ instr.subroutine? = some target := by
  rw [callee?]
  split
  next isCall => simp [isCall]
  next notCall => simp [notCall]

/-- The call graph has exactly the calls of the code. -/
theorem mem_callees_ofRoutines : target ∈ (ofRoutines flat).callees routine ↔
    ∃ code call, flat.lookup routine = some code ∧ .instr call ∈ code ∧
      callee? call = some target := by
  rw [callees, ofRoutines, lookup_mapValue fun _ (code : FlatCode) =>
    Ascending.ofList (code.instrs.filterMap callee?)]
  cases flat.lookup routine <;> simp [FlatCode.mem_instrs]

theorem mem_edges_of_mem_callees (called : target ∈ graph.callees routine) :
    target ∈ graph.edges.flatMap Prod.snd := by
  rw [callees] at called
  cases found : graph.edges.lookup routine with
  | none => simp [found] at called
  | some callees =>
    simp only [found, Option.getD_some] at called
    obtain ⟨before, after, equal, _⟩ := List.lookup_eq_some_iff.mp found
    rw [equal]
    simp [called]

/-- The bound on the search is large enough: no more subroutines are called than there are
edges. -/
theorem reachableFrom_closed (reached : middle ∈ graph.reachableFrom routine)
    (called : target ∈ graph.callees (.subroutine middle)) :
    target ∈ graph.reachableFrom routine := by
  rw [reachableFrom, Ascending.mem_ofList] at reached ⊢
  have inside : ∀ id ∈ Reach.closure (fun id => graph.callees (.subroutine id)) graph.edgeCount
      (graph.callees routine), id ∈ graph.edges.flatMap Prod.snd := by
    apply Reach.closure_preserves
    · intro _ _ _ successor edge
      exact mem_edges_of_mem_callees edge
    · intro first isStart
      exact mem_edges_of_mem_callees isStart
  exact Reach.closure_closed _ (Nat.le_refl _) inside middle reached target called

/-! ## Chains of calls -/

/-- A routine calls another one. -/
def IsEdge (graph : CallGraph) (caller callee : Routine) : Prop :=
  ∃ id, callee = .subroutine id ∧ id ∈ graph.callees caller

/-- The search finds the ends of chains, and it finds them all. -/
theorem mem_reachableFrom : target ∈ graph.reachableFrom routine ↔
    TransGen graph.IsEdge routine (.subroutine target) := by
  constructor
  · rw [reachableFrom, Ascending.mem_ofList]
    refine Reach.closure_preserves _
      (fun id => TransGen graph.IsEdge routine (.subroutine id)) ?_ ?_ target
    · intro id _ chain next called
      exact chain.tail ⟨next, rfl, called⟩
    · intro id called
      exact .single ⟨id, rfl, called⟩
  · suffices found : ∀ last, TransGen graph.IsEdge routine last →
        ∃ id, last = .subroutine id ∧ id ∈ graph.reachableFrom routine by
      intro chain
      obtain ⟨id, ⟨⟩, reached⟩ := found _ chain
      exact reached
    intro last chain
    induction chain with
    | single edge =>
      obtain ⟨id, rfl, called⟩ := edge
      exact ⟨id, rfl, Ascending.mem_ofList.mpr (Reach.mem_closure_of_mem_start _ _ called)⟩
    | tail _ edge ih =>
      obtain ⟨middle, rfl, reached⟩ := ih
      obtain ⟨id, rfl, called⟩ := edge
      exact ⟨id, rfl, reachableFrom_closed reached called⟩

theorem reaches_iff : graph.reaches source target = true ↔
    TransGen graph.IsEdge (.subroutine source) (.subroutine target) :=
  decide_eq_true_iff.trans mem_reachableFrom

theorem isReentry_iff : graph.isReentry routine target = true ↔
    ReflTransGen graph.IsEdge (.subroutine target) routine := by
  rw [Relation.reflTransGen_iff_eq_or_transGen]
  cases routine with
  | main =>
    -- No chain ends with the main routine, which is never called.
    refine iff_of_false Bool.false_ne_true ?_
    rintro (same | chain)
    · cases same
    · obtain ⟨_, _, _, same, _⟩ := Relation.TransGen.tail'_iff.mp chain
      cases same
  | subroutine id =>
    rw [isReentry, Bool.or_eq_true, decide_eq_true_iff, reaches_iff, Routine.subroutine.injEq,
      eq_comm]

theorem exclusive_iff {left right : SubroutineId} :
    graph.exclusive left right = true ↔ left ≠ right ∧
      ¬ TransGen graph.IsEdge (.subroutine left) (.subroutine right) ∧
      ¬ TransGen graph.IsEdge (.subroutine right) (.subroutine left) := by
  simp [exclusive, ← reaches_iff, and_assoc]

/-- The code of a routine calls another one. A routine without code calls none. -/
inductive Calls (flat : RoutineTable FlatCode) : Routine → Routine → Prop where
  | intro {caller : Routine} {code : FlatCode} {call : Instr} {id : SubroutineId} :
      flat.lookup caller = some code → .instr call ∈ code → call.op = .callsub →
      call.subroutine? = some id → Calls flat caller (.subroutine id)

theorem isEdge_ofRoutines : (ofRoutines flat).IsEdge = Calls flat := by
  ext caller callee
  simp only [IsEdge, mem_callees_ofRoutines, callee?_eq_some]
  constructor
  · rintro ⟨_, rfl, _, _, isCode, inCode, isCall, isCallee⟩
    exact ⟨isCode, inCode, isCall, isCallee⟩
  · rintro ⟨isCode, inCode, isCall, isCallee⟩
    exact ⟨_, rfl, _, _, isCode, inCode, isCall, isCallee⟩

/-- The call graph is exact. What a routine reaches are the ends of the chains of one or more
calls from it, listed in order. A call can enter its caller again if a chain leads from the callee
back to it, be it one of no calls. Subroutines exclude each other if they differ and no chain leads
from one to the other. -/
theorem reachability_exact (flat : RoutineTable FlatCode) :
    (∀ routine, ((ofRoutines flat).reachableFrom routine).Pairwise (· < ·) ∧
      ∀ target, target ∈ (ofRoutines flat).reachableFrom routine ↔
        TransGen (Calls flat) routine (.subroutine target)) ∧
    (∀ caller callee, (ofRoutines flat).isReentry caller callee = true ↔
      ReflTransGen (Calls flat) (.subroutine callee) caller) ∧
    ∀ left right, (ofRoutines flat).exclusive left right = (ofRoutines flat).exclusive right left ∧
      ((ofRoutines flat).exclusive left right = true ↔ left ≠ right ∧
        ¬ TransGen (Calls flat) (.subroutine left) (.subroutine right) ∧
        ¬ TransGen (Calls flat) (.subroutine right) (.subroutine left)) := by
  rw [← isEdge_ofRoutines]
  refine ⟨fun routine => ⟨?_, fun target => mem_reachableFrom⟩,
    fun caller callee => isReentry_iff, fun left right => ⟨?_, exclusive_iff⟩⟩
  · apply Ascending.pairwise_ofList Nat.lt_trans
    exact fun different notLess => Nat.lt_of_le_of_ne (Nat.not_lt.mp notLess) different.symm
  · rw [Bool.eq_iff_iff, exclusive_iff, exclusive_iff]
    tauto

end ContractBackend.CallGraph

namespace ContractBackend

namespace SlotUsage

variable {usage : SlotUsage} {routine other : Routine} {slot : Slot}

theorem slotsOf_ofRoutines (flat : RoutineTable FlatCode) (routine : Routine) :
    slot ∈ (ofRoutines flat).slotsOf routine ↔
      ∃ code, flat.lookup routine = some code ∧ ∃ instr ∈ code.instrs, slot ∈ instr.slots := by
  rw [slotsOf, ofRoutines, lookup_mapValue fun _ (code : FlatCode) =>
    Ascending.ofList (code.instrs.flatMap Instr.slots)]
  cases flat.lookup routine with
  | none => simp
  | some code => simp

theorem mem_locals : slot ∈ (usage.locals.lookup routine).getD [] ↔
    slot ∈ usage.slotsOf routine ∧ usage.isGlobal slot = false := by
  rw [locals, lookup_mapValue fun _ (slots : List Slot) =>
    slots.filter fun slot => !usage.isGlobal slot, slotsOf]
  cases usage.perRoutine.lookup routine with
  | none => simp
  | some slots => simp

theorem mem_privateSlots : slot ∈ usage.privateSlots routine ↔
    slot ∈ usage.slotsOf routine ∧ usage.isGlobal slot = false ∧ slot.isReserved = false ∧
      slot ∉ usage.dynamic := by
  simp only [privateSlots, List.mem_filter, mem_locals, Bool.and_eq_true, Bool.not_eq_true',
    decide_eq_true_eq, and_assoc]

theorem mem_perRoutine_of_slotsOf (mentioned : slot ∈ usage.slotsOf routine) :
    ∃ slots, (routine, slots) ∈ usage.perRoutine ∧ slot ∈ slots := by
  rw [slotsOf] at mentioned
  cases found : usage.perRoutine.lookup routine with
  | none => simp [found] at mentioned
  | some slots =>
    rw [found] at mentioned
    exact ⟨slots, mem_of_lookup found, mentioned⟩

/-- A slot that is not global occurs in one routine only. -/
theorem eq_of_mem_slotsOf (isLocal : usage.isGlobal slot = false)
    (mentioned : slot ∈ usage.slotsOf routine) (mentionedToo : slot ∈ usage.slotsOf other) :
    routine = other := by
  obtain ⟨slots, listed, member⟩ := mem_perRoutine_of_slotsOf mentioned
  obtain ⟨slots', listed', member'⟩ := mem_perRoutine_of_slotsOf mentionedToo
  have few : (usage.perRoutine.filter fun entry => decide (slot ∈ entry.2)).length ≤ 1 := by
    rw [← List.countP_eq_length_filter]
    simpa [isGlobal] using isLocal
  have first : (routine, slots) ∈ usage.perRoutine.filter fun entry => decide (slot ∈ entry.2) :=
    List.mem_filter.mpr ⟨listed, by simpa using member⟩
  have second : (other, slots') ∈ usage.perRoutine.filter fun entry => decide (slot ∈ entry.2) :=
    List.mem_filter.mpr ⟨listed', by simpa using member'⟩
  rcases found : usage.perRoutine.filter fun entry => decide (slot ∈ entry.2) with
    _ | ⟨entry, _ | ⟨next, rest⟩⟩ <;> rw [found] at few first second
  · cases first
  · rw [List.mem_singleton] at first second
    exact congrArg Prod.fst (first.trans second.symm)
  · simp at few

theorem mem_all : slot ∈ usage.all ↔ ∃ entry ∈ usage.perRoutine, slot ∈ entry.2 := by
  simp [all]

end SlotUsage

end ContractBackend
