import ContractBackend.Proofs.Gauge.Optimizing

/-!
# Improvements keep the edges

An improvement never takes away or adds an instruction that leaves the routine, so that the
edges of a graph and the predecessors that it records stay as they are.
-/

namespace ContractBackend

open Relation (ReflTransGen)

variable {α : Type} {gauge : Gauge α} {level : α} {property : Instr → Prop}

/-- Whether the last instruction of some code leaves the routine. -/
def endsRoutine (instrs : List Instr) : Bool := instrs.getLast?.any fun instr => instr.op.isExit

theorem endsRoutine_append (front rest : List Instr) (nonempty : rest ≠ []) :
    endsRoutine (front ++ rest) = endsRoutine rest := by
  obtain ⟨last, isLast⟩ := Option.isSome_iff_exists.mp (List.getLast?_isSome.mpr nonempty)
  simp [endsRoutine, List.getLast?_append, isLast]

theorem endsRoutine_of_forall {instrs : List Instr}
    (goes : ∀ instr ∈ instrs, instr.op.isExit = false) : endsRoutine instrs = false := by
  rw [endsRoutine]
  cases last : instrs.getLast? with
  | none => rfl
  | some instr => exact goes instr (List.mem_of_getLast? last)

namespace Dedupe

variable {version : Version}

theorem replacement?_cases {window : List Instr} {instr : Instr}
    (found : replacement? version window = some instr) :
    window ≠ [] ∧ (∀ other ∈ window, other.op.isExit = false) ∧
      (instr = ⟨.dup, []⟩ ∨ instr = ⟨.dup2, []⟩) := by
  obtain ⟨plain, net⟩ := of_replacement? found
  refine ⟨?_, fun other member => goes_of_isPlain (plain other member), ?_⟩
  · rintro rfl
    rcases net with ⟨none, _⟩ | ⟨none, _⟩ <;> cases none
  · exact net.imp And.right And.right

/-- Replacing a window changes nothing at the end of the code. -/
theorem Once.endsRoutine_eq {before after : List Instr} (once : Once version before after) :
    endsRoutine after = endsRoutine before := by
  cases once with
  | @intro front window rest instr found =>
    obtain ⟨nonempty, goes, kind⟩ := replacement?_cases found
    cases rest with
    | nil =>
      have before : endsRoutine (front ++ (window ++ (window ++ []))) = false := by
        rw [endsRoutine_append _ _ (by simp [nonempty]), List.append_nil,
          endsRoutine_append _ _ nonempty]
        exact endsRoutine_of_forall goes
      have after : endsRoutine (front ++ (window ++ [instr])) = false := by
        rw [endsRoutine_append _ _ (by simp), endsRoutine_append _ _ (by simp)]
        rcases kind with rfl | rfl <;> rfl
      rw [before, after]
    | cons head tail =>
      have same : ∀ others : List Instr,
          endsRoutine (others ++ head :: tail) = endsRoutine (head :: tail) :=
        fun others => endsRoutine_append others _ (by simp)
      have left := same (front ++ (window ++ [instr]))
      have right := same (front ++ (window ++ window))
      simp only [List.append_assoc, List.singleton_append] at left right
      rw [left, right]

/-- Replacing a window brings in nothing but an instruction that duplicates values. -/
theorem Once.forall_mem {before after : List Instr} (once : Once version before after)
    (dup : property ⟨.dup, []⟩) (dup2 : property ⟨.dup2, []⟩)
    (each : ∀ instr ∈ before, property instr) : ∀ instr ∈ after, property instr := by
  cases once with
  | @intro front window rest added found =>
    obtain ⟨_, _, kind⟩ := replacement?_cases found
    simp only [List.forall_mem_append, List.forall_mem_cons] at each ⊢
    refine ⟨each.1, each.2.1, ?_, each.2.2.2⟩
    rcases kind with rfl | rfl
    · exact dup
    · exact dup2

end Dedupe

namespace Elide

variable {skip : List Slot} {slot : Slot} {before after : List Instr}

/-- Leaving a pair out changes nothing at the end of the code, unless the pair stands there. -/
theorem Pair.endsRoutine_cases (pair : Pair skip slot before after) :
    endsRoutine after = endsRoutine before ∨
      endsRoutine before = false ∧ ∃ store load, before = after ++ [store, load] := by
  cases pair with
  | @intro front rest store load stored _ loads =>
    cases rest with
    | nil =>
      have isLoad : load.op = .load := (Instr.loadsFrom_iff.mp loads).1
      refine .inr ⟨?_, store, load, by rw [List.append_nil]⟩
      rw [endsRoutine_append _ _ (by simp)]
      simp [endsRoutine, isLoad, Opcode.isExit]
    | cons head tail =>
      have same : ∀ others : List Instr,
          endsRoutine (others ++ head :: tail) = endsRoutine (head :: tail) :=
        fun others => endsRoutine_append others _ (by simp)
      have right := same (front ++ [store, load])
      simp only [List.append_assoc, List.cons_append, List.nil_append] at right
      rw [same, right]
      exact .inl rfl

/-- Leaving a pair out changes nothing at the end of code that may be executed. -/
theorem Pair.endsRoutine_eq {behind : α → Prop} (pair : Pair skip slot before after)
    (through : gauge.Through before level behind) : endsRoutine after = endsRoutine before := by
  rcases pair.endsRoutine_cases with same | ⟨goes, store, load, rfl⟩
  · exact same
  · rw [goes, endsRoutine_of_forall through.split.2]

theorem Pair.forall_mem (pair : Pair skip slot before after)
    (each : ∀ instr ∈ before, property instr) : ∀ instr ∈ after, property instr := by
  cases pair with
  | intro front rest _ _ _ =>
    simp only [List.forall_mem_append, List.forall_mem_cons] at each ⊢
    exact ⟨each.1, each.2.2.2⟩

end Elide

namespace Graph

variable {graph graph' : Graph} {entry id other : BlockId} {instrs : List Instr}

/-- A graph with other code in the blocks of a given one, and the same edges. -/
structure SameEdges (graph other : Graph) : Prop where
  size : other.size = graph.size
  shape : ∀ id, (other.block id).shape = (graph.block id).shape
  exits : ∀ id, (other.block id).exits = (graph.block id).exits
  incoming : ∀ id, (other.block id).incoming = (graph.block id).incoming

theorem SameEdges.successors {other : Graph} (same : SameEdges graph other) (id : BlockId) :
    other.successors id = graph.successors id :=
  Block.successors_congr (same.exits id) (same.shape id)

theorem sameEdges_recode (same : endsRoutine instrs = (graph.block id).exits) :
    SameEdges graph (graph.recode id instrs) where
  size := size_modify _ _
  shape _ := shape_recode
  exits other := by
    rcases graph.block_recode_cases id other instrs with kept | ⟨rfl, changed⟩
    · rw [kept]
    · rw [changed]
      exact same
  incoming other := by
    rcases graph.block_recode_cases id other instrs with kept | ⟨_, changed⟩
    · rw [kept]
    · rw [changed]

theorem Exact.recode (isExact : graph.Exact entry)
    (same : endsRoutine instrs = (graph.block id).exits) : (graph.recode id instrs).Exact entry := by
  have edges := sameEdges_recode same
  have reachable := reachable_congr edges.size edges.successors entry
  have neat : (graph.recode id instrs).Neat := isExact.neat.congr edges.size edges.shape
  refine ⟨neat, edges.size ▸ isExact.tallied.entryInside, fun other _ => ?_,
    fun other reached source => ?_⟩
  · exact checkTargets_eq_ok.mpr ⟨fun _ => neat.whole other, fun _ => neat.lt_of_mem⟩
  · rw [edges.incoming, reachable, edges.successors]
    exact isExact.tallied.tally other (reachable ▸ reached) source

theorem Every.recode (every : graph.Every property) (each : ∀ instr ∈ instrs, property instr) :
    (graph.recode id instrs).Every property := by
  intro other instr member
  rcases graph.block_recode_cases id other instrs with kept | ⟨_, changed⟩
  · rw [kept] at member
    exact every other instr member
  · rw [changed] at member
    exact each instr member

/-- What the stages behind lowering rely on. -/
structure Workable (graph : Graph) (entry : BlockId) (gauge : Gauge α) (level : α)
    (property : Instr → Prop) : Prop where
  safe : graph.Safe gauge entry level
  isExact : graph.Exact entry
  every : graph.Every property

namespace Workable

theorem recode (workable : graph.Workable entry gauge level property)
    (keeps : gauge.Keeps (graph.block id).instrs instrs)
    (same : endsRoutine instrs = (graph.block id).exits)
    (each : ∀ instr ∈ instrs, property instr) :
    (graph.recode id instrs).Workable entry gauge level property :=
  ⟨workable.safe.recode keeps, workable.isExact.recode same, workable.every.recode each⟩

variable {dialect : Dialect} {declared : SubroutineId → Option Handle} {results : Nat}
  {level : Level}

theorem dedupe (workable : graph.Workable entry (.heights dialect declared results) level property)
    (admitted : dialect.admits ⟨.dup, []⟩ = true ∧ dialect.admits ⟨.dup2, []⟩ = true)
    (added : property ⟨.dup, []⟩ ∧ property ⟨.dup2, []⟩) (version : Version) :
    (graph.dedupe entry version).1.Workable entry (.heights dialect declared results) level
      property := by
  have steps := reflTransGen_dedupe version workable.isExact.tallied.recorded.inside
  generalize (graph.dedupe entry version).1 = deduped at steps
  induction steps with
  | refl => exact workable
  | tail _ step ih =>
    cases step with
    | @intro id instrs once =>
      exact ih.recode (keeps_of_once once admitted) once.endsRoutine_eq
        (once.forall_mem added.1 added.2 (ih.every id))

theorem elide (workable : graph.Workable entry (.heights dialect declared results) level property)
    (skip : List Slot) :
    (graph.elide entry skip).1.Workable entry (.heights dialect declared results) level
      property := by
  have steps := reflTransGen_elide graph entry skip
  generalize (graph.elide entry skip).1 = elided at steps
  induction steps with
  | refl => exact workable
  | tail _ step ih =>
    cases step with
    | @intro id slot instrs reached _ pair =>
      obtain ⟨_, safe⟩ := ih.safe.exists_of_reachable id reached
      exact ih.recode (keeps_of_pair pair) (pair.endsRoutine_eq safe.through)
        (pair.forall_mem (ih.every id))

end Workable

end Graph

end ContractBackend
