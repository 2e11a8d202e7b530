import ContractBackend.Proofs.Graph.Tallies

/-!
# Merging keeps executions

An execution of a graph goes through the instructions of one block after the other and decides at
the end of each conditional block. A graph whose blocks have been merged has the same executions:
where control stands in a block that has taken another one over, the code of that one is still to
come, and the edge between the two is not seen.
-/

namespace ContractBackend

/-- A move of control that is seen. -/
inductive Move where
  | executed (instr : Instr)
  /-- The way taken at the end of a conditional block. -/
  | decided (onTrue : Bool)
  deriving DecidableEq

/-- What is seen when control leaves a block of the given shape for a target. -/
inductive Shape.Leads : Shape → List Move → BlockId → Prop where
  | simple {target : BlockId} : Leads (.simple (some target)) [] target
  | conditional {onTrue onFalse : BlockId} (decision : Bool) :
      Leads (.conditional (some onTrue) (some onFalse)) [.decided decision]
        (if decision then onTrue else onFalse)

theorem Shape.Leads.mem_targets {shape : Shape} {seen : List Move} {target : BlockId}
    (leads : shape.Leads seen target) : target ∈ shape.targets := by
  cases leads with
  | simple => simp [targets]
  | conditional decision => cases decision <;> simp [targets]

namespace Graph

variable {graph : Graph} {entry id next source target : BlockId} {halts : Instr → Bool}
  {rest : List Instr} {moves : List Move} {left : List Instr}

/-- The moves that can be seen from where control stands in a block, before the given rest of its
instructions. Some instructions may halt the execution wherever they stand; at its end, a block is
left unless its last instruction leaves the routine. -/
inductive Executes (graph : Graph) (halts : Instr → Bool) :
    BlockId → List Instr → List Move → Prop where
  | pause {id : BlockId} {rest : List Instr} : Executes graph halts id rest []
  | step {id : BlockId} {instr : Instr} {rest : List Instr} {moves : List Move}
      (goes : halts instr = false) (later : Executes graph halts id rest moves) :
      Executes graph halts id (instr :: rest) (.executed instr :: moves)
  | halt {id : BlockId} {instr : Instr} {rest : List Instr} (stops : halts instr = true) :
      Executes graph halts id (instr :: rest) [.executed instr]
  | leave {id target : BlockId} {seen moves : List Move}
      (going : (graph.block id).exits = false) (leads : (graph.block id).shape.Leads seen target)
      (later : Executes graph halts target (graph.block target).instrs moves) :
      Executes graph halts id [] (seen ++ moves)

/-- The beginnings of the executions of a graph. -/
def Trace (graph : Graph) (halts : Instr → Bool) (entry : BlockId) (moves : List Move) : Prop :=
  graph.Executes halts entry (graph.block entry).instrs moves

/-! ## One merge -/

/-- The code that a merge puts behind the code of a block. -/
def behind (graph : Graph) (id next source : BlockId) : List Instr :=
  if source = id then (graph.block next).instrs else []

theorem behind_next (apart : next ≠ id) : graph.behind id next next = [] := if_neg apart

/-- Away from the end of the first block, the next instruction is that of the merged graph. -/
theorem exists_cons_of_settled {instr : Instr} (settled : source = id → rest ≠ [])
    (isLeft : rest ++ graph.behind id next source = instr :: left) :
    ∃ later, rest = instr :: later ∧ later ++ graph.behind id next source = left := by
  cases rest with
  | nil =>
    by_cases first : source = id
    · exact absurd rfl (settled first)
    · rw [behind, if_neg first] at isLeft
      cases isLeft
  | cons head later =>
    obtain ⟨rfl, isLater⟩ := List.cons.inj isLeft
    exact ⟨later, rfl, isLater⟩

namespace Recorded

variable (recorded : graph.Recorded entry) (mergeable : graph.Mergeable entry id next)
include recorded mergeable

/-- The code of a block in the merged graph. -/
theorem instrs_merge (notNext : source ≠ next) :
    ((graph.merge id next).block source).instrs =
      (graph.block source).instrs ++ graph.behind id next source := by
  by_cases first : source = id
  · subst first
    rw [behind, if_pos rfl]
    exact (block_merge mergeable.apart.symm (recorded.inside source mergeable.reached)).1
  · rw [behind, if_neg first, List.append_nil]
    exact (sameCode_merge first notNext).1

/-- Every block but the first ends as before, in the block that has its code. -/
theorem ends_merge (notFirst : source ≠ id) :
    ((graph.merge id next).block (redirected next id source)).exits =
        (graph.block source).exits ∧
      ((graph.merge id next).block (redirected next id source)).shape =
        (graph.block source).shape := by
  by_cases second : source = next
  · subst second
    have inside := recorded.inside id mergeable.reached
    rw [redirected, if_pos rfl]
    exact ⟨exits_merge mergeable inside, (block_merge mergeable.apart.symm inside).2⟩
  · rw [redirected, if_neg second]
    have same : ((graph.merge id next).block source).SameCode (graph.block source) :=
      sameCode_merge notFirst second
    exact ⟨same.exits, same.2⟩

/-- Control that leaves a block other than the first comes to a block that is still there. -/
theorem target_of_leads (reached : source ∈ graph.reachable entry)
    (notFirst : source ≠ id) (going : (graph.block source).exits = false) {seen : List Move}
    (leads : (graph.block source).shape.Leads seen target) :
    target ∈ graph.reachable entry ∧ target ≠ next := by
  have edge : target ∈ graph.successors source := mem_successors_of_goes going leads.mem_targets
  refine ⟨recorded.closed source reached target edge, ?_⟩
  rintro rfl
  exact notFirst (recorded.eq_of_edge mergeable reached edge)

/-- What is seen in a graph is seen in the merged one, with the code behind that of the first
block still to come. -/
theorem executes_merge (reached : source ∈ graph.reachable entry)
    (executes : graph.Executes halts source rest moves) :
    (graph.merge id next).Executes halts (redirected next id source)
      (rest ++ graph.behind id next source) moves := by
  induction executes with
  | pause => exact .pause
  | step goes _ ih => exact .step goes (ih reached)
  | halt stops => exact .halt stops
  | @leave source target seen moves going leads later ih =>
    by_cases first : source = id
    · -- The edge to the block taken over: the merged graph is there already.
      subst first
      rw [mergeable.shape] at leads
      cases leads
      have there := ih (recorded.closed source reached next mergeable.edge)
      rw [behind_next mergeable.apart, List.append_nil, redirected, if_pos rfl] at there
      rwa [redirected, if_neg mergeable.apart.symm, behind, if_pos rfl]
    · obtain ⟨targetReached, notNext⟩ :=
        recorded.target_of_leads mergeable reached first going leads
      obtain ⟨exits, shape⟩ := recorded.ends_merge mergeable first
      have there := ih targetReached
      rw [← recorded.instrs_merge mergeable notNext, redirected, if_neg notNext] at there
      rw [behind, if_neg first]
      exact .leave (exits.trans going) (shape ▸ leads) there

/-- At the end of the first block, the code of the block taken over is next. So control need not be
followed from there, but from the block taken over. -/
theorem executes_of_settled (reached : source ∈ graph.reachable entry)
    {place : BlockId} (isPlace : redirected next id source = place)
    (isLeft : rest ++ graph.behind id next source = left)
    (settled : ∀ source rest, source ∈ graph.reachable entry → (source = id → rest ≠ []) →
      redirected next id source = place → rest ++ graph.behind id next source = left →
      graph.Executes halts source rest moves) :
    graph.Executes halts source rest moves := by
  by_cases atEnd : source = id ∧ rest = []
  · obtain ⟨rfl, rfl⟩ := atEnd
    have leads : (graph.block source).shape.Leads [] next := by
      rw [mergeable.shape]
      exact .simple
    refine .leave mergeable.going leads ?_
    refine settled next _ (recorded.closed source reached next mergeable.edge)
      (fun same => absurd same mergeable.apart) ?_ ?_
    · rw [← isPlace, redirected, redirected, if_pos rfl, if_neg mergeable.apart.symm]
    · rw [← isLeft, behind_next mergeable.apart, List.append_nil, behind, if_pos rfl,
        List.nil_append]
  · exact settled source rest reached (fun first isEmpty => atEnd ⟨first, isEmpty⟩) isPlace isLeft

/-- What is seen in the merged graph is seen in the graph. -/
theorem executes_of_merge (reached : source ∈ graph.reachable entry) {place : BlockId}
    (isPlace : redirected next id source = place)
    (isLeft : rest ++ graph.behind id next source = left)
    (executes : (graph.merge id next).Executes halts place left moves) :
    graph.Executes halts source rest moves := by
  induction executes generalizing source rest with
  | pause => exact .pause
  | step goes _ ih =>
    refine recorded.executes_of_settled mergeable reached isPlace isLeft ?_
    intro source rest reached settled isPlace isLeft
    obtain ⟨later, rfl, isLater⟩ := exists_cons_of_settled settled isLeft
    exact .step goes (ih reached isPlace isLater)
  | halt stops =>
    refine recorded.executes_of_settled mergeable reached isPlace isLeft ?_
    intro source rest reached settled isPlace isLeft
    obtain ⟨_, rfl, _⟩ := exists_cons_of_settled settled isLeft
    exact .halt stops
  | leave going leads _ ih =>
    refine recorded.executes_of_settled mergeable reached isPlace isLeft ?_
    intro source rest reached settled isPlace isLeft
    obtain ⟨rfl, _⟩ := List.append_eq_nil_iff.mp isLeft
    have notFirst : source ≠ id := fun first => settled first rfl
    obtain ⟨exits, shape⟩ := recorded.ends_merge mergeable notFirst
    rw [isPlace] at exits shape
    rw [exits] at going
    rw [shape] at leads
    obtain ⟨targetReached, notNext⟩ :=
      recorded.target_of_leads mergeable reached notFirst going leads
    exact .leave going leads (ih targetReached (if_neg notNext)
      (recorded.instrs_merge mergeable notNext).symm)

theorem trace_merge :
    (graph.merge id next).Trace halts entry moves ↔ graph.Trace halts entry moves := by
  have notNext := mergeable.notEntry.symm
  have code := recorded.instrs_merge mergeable notNext
  constructor
  · exact recorded.executes_of_merge mergeable mem_reachable_entry (if_neg notNext) code.symm
  · intro trace
    have there := recorded.executes_merge mergeable mem_reachable_entry trace
    rwa [← code, redirected, if_neg notNext] at there

end Recorded

/-! ## All merges -/

/-- Merging as often as possible is seen nowhere. -/
theorem Tallied.trace_mergeWithin (tallied : graph.Tallied entry) (count : Nat) :
    (graph.mergeWithin entry count).1.Trace halts entry moves ↔
      graph.Trace halts entry moves :=
  (tallied.mergeWithin_keeps
    (fun merged => merged.Trace halts entry moves ↔ graph.Trace halts entry moves)
    (fun recorded mergeable same => (recorded.trace_merge mergeable).trans same) .rfl count).2

/-- As many blocks go out of reach as pairs are merged. -/
theorem Tallied.length_reachable_mergeWithin (tallied : graph.Tallied entry) (count : Nat) :
    ((graph.mergeWithin entry count).1.reachable entry).length +
      (graph.mergeWithin entry count).2 = (graph.reachable entry).length := by
  induction count generalizing graph with
  | zero => rfl
  | succ count ih =>
    simp only [mergeWithin]
    split
    next => rfl
    next id next found =>
      have mergeable := Mergeable.of_mergePair? found
      rw [← tallied.recorded.length_reachable_merge mergeable, ← ih (tallied.merge mergeable)]
      rfl

/-- Where no pair is left, merging does nothing. -/
theorem normalize_of_mergePair? (done : graph.mergePair? entry = none) :
    graph.normalize entry = (graph, 0) := by
  rw [normalize]
  cases graph.size with
  | zero => rfl
  | succ count => rw [mergeWithin, done]

/-- Merging is a pure simplification: a graph that passes the check still does when its blocks
have been merged, and as many blocks as pairs were merged are out of reach then. Merging it again
finds nothing to merge. Whatever instructions halt an execution, the beginnings of executions from
the entry, with the instructions executed and the decisions taken, are those of the graph before. -/
theorem normalize_simplifies (valid : graph.validate entry = .ok ()) :
    (graph.normalize entry).1.validate entry = .ok () ∧
    ((graph.normalize entry).1.reachable entry).length + (graph.normalize entry).2 =
      (graph.reachable entry).length ∧
    (graph.normalize entry).1.normalize entry = ((graph.normalize entry).1, 0) ∧
    ∀ halts moves, (graph.normalize entry).1.Trace halts entry moves ↔
      graph.Trace halts entry moves := by
  have tallied := validate_iff_tallied.mp valid
  exact ⟨validate_normalize valid, tallied.length_reachable_mergeWithin graph.size,
    normalize_of_mergePair? (mergePair?_normalize valid),
    fun _ _ => tallied.trace_mergeWithin graph.size⟩

/-- A loop whose body is two blocks, with a way out that ignores its edge back into the body. -/
def brokenLoop : Graph where
  blocks := #[{ instrs := [.int 1], shape := .conditional (some 1) (some 2) },
    { instrs := [.int 2], shape := .simple (some 3) },
    { instrs := [⟨.ret, []⟩], shape := .simple (some 3) },
    { instrs := [.int 3], shape := .simple (some 0) }]

theorem normalize_simplifies_brokenLoop :
    (brokenLoop.recordIncoming 0).validate 0 = .ok () ∧
    ((brokenLoop.recordIncoming 0).normalize 0).2 = 1 ∧
    (((brokenLoop.recordIncoming 0).normalize 0).1.reachable 0).length + 1 =
      ((brokenLoop.recordIncoming 0).reachable 0).length ∧
    (((brokenLoop.recordIncoming 0).normalize 0).1.normalize 0).2 = 0 ∧
    ((brokenLoop.recordIncoming 0).normalize 0).1.Trace (fun instr => instr.op.isExit) 0
      [.executed (.int 1), .decided true, .executed (.int 2), .executed (.int 3),
        .executed (.int 1), .decided false, .executed ⟨.ret, []⟩] := by
  have valid : (brokenLoop.recordIncoming 0).validate 0 = .ok () := by decide
  have merged : ((brokenLoop.recordIncoming 0).normalize 0).2 = 1 := by decide
  obtain ⟨_, fewer, again, same⟩ := normalize_simplifies valid
  refine ⟨valid, merged, merged ▸ fewer, congrArg Prod.snd again, (same _ _).mpr ?_⟩
  -- Once around the loop, and out.
  refine .step rfl (@Executes.leave _ _ 0 1 [.decided true] _ rfl (.conditional true) ?_)
  refine .step rfl (@Executes.leave _ _ 1 3 [] _ rfl .simple ?_)
  refine .step rfl (@Executes.leave _ _ 3 0 [] _ rfl .simple ?_)
  refine .step rfl (@Executes.leave _ _ 0 2 [.decided false] _ rfl (.conditional false) ?_)
  exact .halt rfl

end Graph

end ContractBackend
