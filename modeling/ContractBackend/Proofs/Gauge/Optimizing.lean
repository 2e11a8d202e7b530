import ContractBackend.Proofs.Gauge.Flattening
import ContractBackend.Proofs.Gauge.Heights
import ContractBackend.Proofs.Graph.Tallies
import ContractBackend.Proofs.Optimize.Rewriting

/-!
# Improvements keep graphs safe

A block that takes over its only successor does what the two did one after the other. A value that
is duplicated leaves the stack as high as one that is computed again, and so
does a value that is neither stored nor loaded.
-/

namespace ContractBackend

open Relation (ReflTransGen)

/-! ## Merging -/

namespace Graph

variable {α : Type} {graph : Graph} {gauge : Gauge α} {entry id next : BlockId} {level : α}

theorem exits_of_forall {block : Block}
    (goes : ∀ instr ∈ block.instrs, instr.op.isExit = false) : block.exits = false := by
  rw [Block.exits]
  cases last : block.instrs.getLast? with
  | none => rfl
  | some instr => exact goes instr (List.mem_of_getLast? last)

/-- What holds of the targets of a block that has the shape of another one. -/
theorem Goes.reshape {other : Graph} {source : BlockId} {safe safe' : BlockId → α → Prop}
    (shape : (other.block source).shape = (graph.block id).shape)
    (weaker : ∀ target ∈ (graph.block id).shape.targets, ∀ level, safe target level →
      safe' target level)
    (goes : graph.Goes gauge safe id level) : other.Goes gauge safe' source level := by
  cases goes with
  | simple shape' holds =>
    exact .simple (shape.trans shape') (weaker _ (by simp [shape', Shape.targets]) _ holds)
  | conditional shape' tests onTrue onFalse =>
    exact .conditional (shape.trans shape') tests
      (weaker _ (by simp [shape', Shape.targets]) _ onTrue)
      (weaker _ (by simp [shape', Shape.targets]) _ onFalse)

theorem Recorded.safe_merge (recorded : graph.Recorded entry)
    (mergeable : graph.Mergeable entry id next) (safe : graph.Safe gauge entry level) :
    (graph.merge id next).Safe gauge entry level := by
  refine safe_of_kept (fun other level => other ∈ graph.reachable entry ∧ other ≠ next ∧
    graph.Safe gauge other level) ?_ ⟨mem_reachable_entry, mergeable.notEntry.symm, safe⟩
  rintro other level ⟨reached, notNext, safe⟩
  -- Wherever control goes on, it comes to a block that has not been taken over.
  have arrives : ∀ {source : BlockId}, graph.successors source =
      (graph.merge id next).successors other → (graph.block source).exits = false →
      ∀ target ∈ (graph.block source).shape.targets, ∀ level, graph.Safe gauge target level →
        target ∈ graph.reachable entry ∧ target ≠ next ∧ graph.Safe gauge target level := by
    intro source edges going target isTarget level safe
    have edge : target ∈ graph.successors source := mem_successors_of_goes going isTarget
    rw [edges] at edge
    obtain ⟨targetReached, targetNotNext, _⟩ :=
      recorded.edge_of_merge mergeable reached notNext edge
    exact ⟨targetReached, targetNotNext, safe⟩
  by_cases first : other = id
  · subst first
    have inside := recorded.inside other reached
    obtain ⟨instrs, shape⟩ := block_merge mergeable.apart.symm inside
    have goes := safe.through.goes (fun last isLast => by
      simpa [Block.exits, isLast] using mergeable.going)
    rw [instrs, Gauge.through_append goes]
    refine safe.through.mono fun level goesOn => ?_
    refine (goesOn.of_simple mergeable.shape).through.cases_last fun going level goesOn => ?_
    exact goesOn.reshape shape
      (arrives (successors_merge mergeable inside).symm (exits_of_forall going))
  · have same : ((graph.merge id next).block other).SameCode (graph.block other) :=
      sameCode_merge first notNext
    rw [same.1]
    exact safe.through.cases_last fun going level goesOn =>
      goesOn.reshape same.2 (arrives same.successors.symm (exits_of_forall going))

/-- Merging as often as possible. -/
theorem Tallied.safe_mergeWithin (tallied : graph.Tallied entry)
    (safe : graph.Safe gauge entry level) (count : Nat) :
    (graph.mergeWithin entry count).1.Safe gauge entry level :=
  (tallied.mergeWithin_keeps (fun graph => graph.Safe gauge entry level) Recorded.safe_merge safe
    count).2

theorem safe_recordIncoming (safe : graph.Safe gauge entry level) :
    (graph.recordIncoming entry).Safe gauge entry level := by
  refine safe_of_kept (graph.Safe gauge) (fun other level safe => ?_) safe
  have same := sameCode_recordIncoming graph entry other
  rw [same.1]
  exact safe.through.mono fun level goes => goes.reshape same.2 fun _ _ _ holds => holds

/-- What a graph that has been prepared is known for. -/
theorem safe_of_prepare {routine prepared : RoutineGraph} (isOk : routine.prepare = .ok prepared)
    (safe : routine.graph.Safe gauge routine.entry level) :
    prepared.entry = routine.entry ∧ prepared.graph.Valid prepared.entry ∧
      prepared.graph.Safe gauge prepared.entry level := by
  simp only [RoutineGraph.prepare, Fallible.check_eq_ok] at isOk
  obtain ⟨recorded, merged, isOk⟩ := isOk
  cases isOk
  exact ⟨rfl, Valid.of_validate merged,
    (validate_iff_tallied.mp recorded).safe_mergeWithin (safe_recordIncoming safe) _⟩

end Graph

namespace Gauge

variable {α : Type} {gauge : Gauge α} {code code' : List Instr}

/-- Code may take the place of other code. -/
def Keeps (gauge : Gauge α) (before after : List Instr) : Prop :=
  ∀ level behind, gauge.Through before level behind → gauge.Through after level behind

theorem Keeps.behind (keeps : gauge.Keeps code code') (front : List Instr) (nonempty : code ≠ []) :
    gauge.Keeps (front ++ code) (front ++ code') := by
  intro level behind through
  obtain ⟨first, rest, rfl⟩ := List.exists_cons_of_ne_nil nonempty
  obtain ⟨throughFront, goes⟩ := through.split
  rw [through_append goes]
  exact throughFront.mono fun level => keeps level behind

end Gauge

/-! ## Windows -/

section Windows

variable {dialect : Dialect} {declared : SubroutineId → Option Handle} {results : Nat}
  {behind : Level → Prop} {instr : Instr} {window : List Instr}

theorem effectIn?_of_effect? {effect : StackEffect} (known : instr.effect? = some effect) :
    instr.effectIn? declared = some effect := by
  have noCall : CallGraph.callee? instr = none := by
    rw [CallGraph.callee?, if_neg]
    intro isCall
    simp [Instr.effect?, isCall] at known
  rw [Instr.effectIn?, noCall]
  exact known

theorem goes_of_isPlain (plain : Dedupe.isPlain instr = true) :
    instr.op.isExit = false := by
  simp only [Dedupe.isPlain, Bool.and_eq_true, Bool.not_eq_true'] at plain
  cases op : instr.op <;> simp_all [Opcode.hasSideEffects, Opcode.isExit]

/-- Code that only works on the top of the stack raises it as far as its heights add up to. -/
theorem Gauge.Through.raisedBy {position low high : Nat} (base : Level)
    (plain : ∀ instr ∈ window, Dedupe.isPlain instr = true)
    (net : StackHeight.checkFrom position window low = .ok high)
    (through : (Gauge.heights dialect declared results).Through window (base.map (· + low)) behind) :
    (Gauge.heights dialect declared results).Through window (base.map (· + low)) fun after =>
      after = base.map (· + high) ∧ behind after := by
  induction window generalizing position low with
  | nil =>
    cases net
    exact ⟨rfl, through⟩
  | cons instr rest ih =>
    rw [List.forall_mem_cons] at plain
    obtain ⟨effect, known, enough, net⟩ := StackHeight.of_checkFrom_cons net
    simp only [Gauge.Through, goes_of_isPlain plain.1, Bool.false_eq_true, if_false] at through ⊢
    obtain ⟨next, moves, through⟩ := through
    have raised : next = base.map (· + (low - effect.pops + effect.pushes)) := by
      rw [(of_move_heights (effectIn?_of_effect? known) moves).2]
      cases base with
      | none => rfl
      | some height =>
        simp only [Option.map_some, Option.some.injEq]
        omega
    subst raised
    exact ⟨_, moves, ih plain.2 net through⟩

theorem Gauge.Through.raised {position high : Nat} {level : Level}
    (plain : ∀ instr ∈ window, Dedupe.isPlain instr = true)
    (net : StackHeight.checkFrom position window 0 = .ok high)
    (through : (Gauge.heights dialect declared results).Through window level behind) :
    (Gauge.heights dialect declared results).Through window level fun after =>
      after = level.map (· + high) ∧ behind after := by
  have same : level.map (· + 0) = level := by cases level <;> rfl
  have raised := Gauge.Through.raisedBy level plain net (same.symm ▸ through)
  rwa [same] at raised

/-- The values of a window may be duplicated. -/
theorem keeps_replacement {version : Version}
    (found : Dedupe.replacement? version window = some instr) (rest : List Instr)
    (admitted : dialect.admits ⟨.dup, []⟩ = true ∧ dialect.admits ⟨.dup2, []⟩ = true) :
    window ≠ [] ∧ (Gauge.heights dialect declared results).Keeps (window ++ (window ++ rest))
      (window ++ instr :: rest) := by
  obtain ⟨plain, net⟩ := Dedupe.of_replacement? found
  have goes : ∀ instr ∈ window, instr.op.isExit = false :=
    fun instr member => goes_of_isPlain (plain instr member)
  obtain ⟨count, net, positive, isExit, moves⟩ : ∃ count,
      StackHeight.checkFrom 0 window 0 = .ok count ∧ 0 < count ∧ instr.op.isExit = false ∧
        ∀ level : Level, (Gauge.heights dialect declared results).move instr
          (level.map (· + count)) = some ((level.map (· + count)).map (· + count)) := by
    rcases net with ⟨one, rfl⟩ | ⟨two, rfl⟩
    · refine ⟨1, one, Nat.one_pos, rfl, fun level => ?_⟩
      cases level with
      | none => simp [Gauge.heights, admitted.1]
      | some height => exact move_heights admitted.1 rfl (Nat.le_add_left _ _)
    · refine ⟨2, two, Nat.two_pos, rfl, fun level => ?_⟩
      cases level with
      | none => simp [Gauge.heights, admitted.2]
      | some height => exact move_heights admitted.2 rfl (Nat.le_add_left _ _)
  constructor
  · rintro rfl
    cases net
    exact absurd positive (Nat.lt_irrefl 0)
  · intro level behind through
    rw [Gauge.through_append goes] at through ⊢
    refine (through.raised plain net).mono ?_
    rintro _ ⟨rfl, second⟩
    rw [Gauge.through_append goes] at second
    obtain ⟨_, rfl, holds⟩ := (second.raised plain net).exists_behind fun last isLast =>
      goes last (List.mem_of_getLast? isLast)
    simp only [Gauge.Through, isExit, Bool.false_eq_true, if_false]
    exact ⟨_, moves level, holds⟩

/-- A value may be neither stored nor loaded. -/
theorem keeps_pair {store load : Instr} {slot : Slot} (stored : Elide.storedSlot? store = some slot)
    (loads : load.loadsFrom slot = true) (rest : List Instr) :
    (Gauge.heights dialect declared results).Keeps (store :: load :: rest) rest := by
  have isStore : store.op = .store := by
    by_contra other
    simp [Elide.storedSlot?, other] at stored
  have isLoad : load.op = .load := (Instr.loadsFrom_iff.mp loads).1
  have pops : store.effectIn? declared = some ⟨1, 0⟩ :=
    effectIn?_of_effect? (by simp [Instr.effect?, isStore])
  have pushes : load.effectIn? declared = some ⟨0, 1⟩ :=
    effectIn?_of_effect? (by simp [Instr.effect?, isLoad])
  intro level behind through
  simp only [Gauge.Through, isStore, isLoad, Opcode.isExit, Bool.false_eq_true, if_false] at through
  obtain ⟨low, storeMoves, again, loadMoves, through⟩ := through
  suffices same : again = level by rwa [same] at through
  obtain ⟨enough, rfl⟩ := of_move_heights pops storeMoves
  obtain ⟨_, rfl⟩ := of_move_heights pushes loadMoves
  cases level with
  | none => rfl
  | some height => exact congrArg some (Nat.sub_add_cancel (enough height rfl))

theorem keeps_of_once {version : Version} {before after : List Instr}
    (once : Dedupe.Once version before after)
    (admitted : dialect.admits ⟨.dup, []⟩ = true ∧ dialect.admits ⟨.dup2, []⟩ = true) :
    (Gauge.heights dialect declared results).Keeps before after := by
  cases once with
  | intro front window rest found =>
    obtain ⟨nonempty, keeps⟩ := keeps_replacement found rest admitted
    exact keeps.behind front (by simp [nonempty])

theorem keeps_of_pair {skip : List Slot} {slot : Slot} {before after : List Instr}
    (pair : Elide.Pair skip slot before after) :
    (Gauge.heights dialect declared results).Keeps before after := by
  cases pair with
  | intro front rest stored _ loads => exact (keeps_pair stored loads rest).behind front (by simp)

end Windows

namespace Graph

variable {graph graph' : Graph} {entry : BlockId}

section Recoding

variable {α : Type} {gauge : Gauge α} {id : BlockId} {level : α} {instrs : List Instr}

theorem Safe.recode (keeps : gauge.Keeps (graph.block id).instrs instrs)
    (safe : graph.Safe gauge entry level) : (graph.recode id instrs).Safe gauge entry level := by
  refine safe_of_kept (graph.Safe gauge) (fun other level safe => ?_) safe
  have goes : ∀ level, graph.Goes gauge (graph.Safe gauge) other level →
      (graph.recode id instrs).Goes gauge (graph.Safe gauge) other level :=
    fun level goes => goes.reshape shape_recode fun _ _ _ holds => holds
  refine Gauge.Through.mono ?_ goes
  have through := safe.through
  rcases graph.block_recode_cases id other instrs with kept | ⟨rfl, changed⟩
  · rwa [kept]
  · rw [changed]
    exact keeps _ _ through

theorem Safe.rewrite {rewrite : List Instr → List Instr → Prop}
    (keeps : ∀ {before after}, rewrite before after → gauge.Keeps before after)
    (steps : ReflTransGen (Recodes rewrite) graph graph') (safe : graph.Safe gauge entry level) :
    graph'.Safe gauge entry level := by
  induction steps with
  | refl => exact safe
  | tail _ step ih =>
    cases step with
    | intro id rewritten => exact ih.recode (keeps rewritten)

end Recoding

variable {dialect : Dialect} {declared : SubroutineId → Option Handle} {results : Nat}
  {level : Level}

theorem Safe.dedupe (safe : graph.Safe (.heights dialect declared results) entry level)
    (admitted : dialect.admits ⟨.dup, []⟩ = true ∧ dialect.admits ⟨.dup2, []⟩ = true)
    (version : Version) :
    (graph.dedupe entry version).1.Safe (.heights dialect declared results) entry level :=
  safe.rewrite (fun once => keeps_of_once once admitted)
    (reflTransGen_dedupe version (Valid.of_safe safe).inside)

theorem Safe.elide (safe : graph.Safe (.heights dialect declared results) entry level)
    (skip : List Slot) :
    (graph.elide entry skip).1.Safe (.heights dialect declared results) entry level := by
  have steps : ReflTransGen (Recodes fun before after => ∃ slot, Elide.Pair skip slot before after)
      graph (graph.elide entry skip).1 := by
    refine ReflTransGen.mono ?_ _ _ (reflTransGen_elide graph entry skip)
    rintro before after ⟨id, _, _, pair⟩
    exact .intro id ⟨_, pair⟩
  refine safe.rewrite ?_ steps
  rintro before after ⟨slot, pair⟩
  exact keeps_of_pair pair

end Graph

end ContractBackend
