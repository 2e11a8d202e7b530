import ContractBackend.Compile
import ContractBackend.Proofs.Linking
import ContractBackend.Proofs.Lowering.Steps
import ContractBackend.Proofs.Spill

/-!
# The stages of a compilation

What a compilation that succeeds has made on the way: graphs, flat code, the cells of the slots,
code with saved slots, and the listing.
-/

namespace ContractBackend

open Lowering (Yields outcome yields_bind yields_get yields_pure)

namespace Compile

variable {graphs result : RoutineTable RoutineGraph} {before after : Context}

/-- Every routine is lowered once, and the main routine is among them. -/
theorem ordered_of_lowerReferenced {count : Nat} (ordered : graphs.Ordered)
    (present : .main ∈ graphs.map Prod.fst)
    (lowered : Yields (lowerReferenced count graphs) before result after) :
    result.Ordered ∧ .main ∈ result.map Prod.fst := by
  induction count generalizing graphs before with
  | zero =>
    obtain ⟨rfl, rfl⟩ := yields_pure.mp lowered
    exact ⟨ordered, present⟩
  | succ count ih =>
    simp only [lowerReferenced, yields_bind, yields_get] at lowered
    obtain ⟨_, _, ⟨rfl, rfl⟩, lowered⟩ := lowered
    split at lowered
    next =>
      obtain ⟨rfl, rfl⟩ := yields_pure.mp lowered
      exact ⟨ordered, present⟩
    next id found =>
      obtain ⟨graph, middle, _, rest⟩ := yields_bind.mp lowered
      refine ih (ordered.insert graph) ?_ rest
      rw [Keyed.mem_keys_iff, Keyed.lookup_insert, if_neg (by rintro ⟨⟩)]
      exact Keyed.mem_keys_iff.mp present

theorem ordered_of_lowerRoutines {main : Expr}
    (lowered : Yields (lowerRoutines main) before graphs after) :
    graphs.Ordered ∧ .main ∈ graphs.map Prod.fst := by
  simp only [lowerFrom, yields_bind] at lowered
  obtain ⟨_, _, _, _, _, _, rest⟩ := lowered
  refine ordered_of_lowerReferenced ?_ (by simp) rest
  exact List.pairwise_singleton _ _

theorem keys_optimize (options : CompileOptions) (graphs : RoutineTable RoutineGraph) :
    (optimize options graphs).map Prod.fst = graphs.map Prod.fst := by
  simp only [optimize]
  split <;> split <;> simp

theorem of_flatten {program : Program} {options : CompileOptions} {flat : RoutineTable FlatCode}
    (isOk : Compile.flatten program options graphs = .ok flat) :
    List.Forall₂ (fun routine code => routine.1 = code.1 ∧ routine.2.flatten = .ok code.2)
      graphs flat := by
  refine (Fallible.mapM_eq_ok.mp isOk).imp ?_
  intro routine code made
  simp only [Fallible.bind_eq_ok, Fallible.pure_eq_ok] at made
  obtain ⟨_, isOk, _, _, rfl⟩ := made
  exact ⟨rfl, isOk⟩

theorem keys_flatten {program : Program} {options : CompileOptions} {flat : RoutineTable FlatCode}
    (isOk : Compile.flatten program options graphs = .ok flat) :
    flat.map Prod.fst = graphs.map Prod.fst := by
  have keys := (of_flatten isOk).imp fun _ _ same => same.1
  rw [← List.forall₂_eq_eq_eq, List.forall₂_map_left_iff, List.forall₂_map_right_iff]
  exact keys.flip.imp fun _ _ same => same.symm

end Compile

/-- A compilation that succeeds, stage by stage. -/
structure Build (main : Expr) (options : CompileOptions) (before : Program) where
  /-- What lowering leaves behind. -/
  context : Context
  graphs : RoutineTable RoutineGraph
  flat : RoutineTable FlatCode
  slots : SlotAssignment
  spilled : RoutineTable FlatCode
  /-- How many calls slots are saved around. -/
  sites : Nat
  assembly : Assembly
  supported : options.validate = .ok ()
  lowered : Yields (Compile.lowerRoutines main) { program := before, version := options.version }
    graphs context
  flattened :
    Compile.flatten context.program options (Compile.optimize options graphs) = .ok flat
  initialized : ∀ entry ∈ flat, SlotInit.check (Compile.routineName context.program entry.1) entry.2
    ((SlotUsage.ofRoutines flat).privateSlots entry.1) = .ok ()
  assigned : SlotAssignment.assign (.ofRoutines flat) (.ofRoutines flat) options.optimize.share =
    .ok slots
  isSpilled : Spill.routines context.program (.ofRoutines flat) options.version
    (SlotUsage.ofRoutines flat).locals flat = .ok (spilled, sites)
  linked : Link.link context.program slots options.version spilled = .ok assembly

namespace Build

variable {main : Expr} {options : CompileOptions} {before after : Program}

def artifact (build : Build main options before) : Artifact :=
  ⟨options.version, options.mode, build.assembly, build.assembly.render⟩

theorem run_compileFrom (main : LowerM RoutineGraph) (options : CompileOptions) (before : Program) :
    (compileFrom main options).run before = match options.validate with
      | .error cause => (.error cause, before)
      | .ok () =>
        match outcome (Compile.lowerFrom main)
            { program := before, version := options.version } with
        | (.error cause, context) => (.error cause, context.program)
        | (.ok graphs, context) =>
          (Compile.backend context.program options graphs, context.program) := by
  simp only [compileFrom, Program.run_bind, Program.run_lift]
  cases options.validate with
  | error cause => rfl
  | ok =>
    simp only [Program.run_get]
    have same : ∀ context, (Compile.lowerFrom main).run context =
        outcome (Compile.lowerFrom main) context := fun _ => rfl
    rw [same]
    rcases outcome (Compile.lowerFrom main) _ with ⟨_ | _, _⟩ <;> rfl

/-- Compilation succeeds exactly if all its stages do. -/
theorem run_compile_eq_ok {result : Artifact} :
    (compile main options).run before = (.ok result, after) ↔
      ∃ build : Build main options before, build.artifact = result ∧
        build.context.program = after := by
  rw [compile, run_compileFrom]
  constructor
  · intro isOk
    split at isOk
    next => cases isOk
    next supported =>
      split at isOk
      next => cases isOk
      next graphs context lowered =>
        obtain ⟨made, rfl⟩ := Prod.mk.inj isOk
        have isOk : Compile.backend context.program options graphs = .ok result := made
        simp only [Compile.backend, Compile.assemble, Fallible.bind_eq_ok, Fallible.pure_eq_ok]
          at isOk
        obtain ⟨flat, flattened, assembly, ⟨_, initialized, slots, assigned, ⟨spilled, sites⟩,
          isSpilled, linked⟩, rfl⟩ := isOk
        exact ⟨⟨context, graphs, flat, slots, spilled, sites, assembly, supported, lowered, flattened,
          Fallible.forM_eq_ok.mp initialized, assigned, isSpilled, linked⟩, rfl, rfl⟩
  · rintro ⟨build, rfl, rfl⟩
    rw [build.supported]
    have lowered : outcome (Compile.lowerRoutines main)
        { program := before, version := options.version } = (.ok build.graphs, build.context) :=
      build.lowered
    simp only [lowered, Compile.backend, build.flattened, Compile.assemble,
      Fallible.forM_eq_ok.mpr build.initialized, build.assigned, build.isSpilled, build.linked,
      Fallible.ok_bind]
    rfl

/-- Go through the stages of a compilation. -/
def make? (main : Expr) (options : CompileOptions) (before : Program) :
    Option (Build main options before) :=
  match supported : options.validate,
    lowered : outcome (Compile.lowerRoutines main)
      { program := before, version := options.version } with
  | .ok (), (.ok graphs, context) =>
    match flattened :
      Compile.flatten context.program options (Compile.optimize options graphs) with
    | .ok flat =>
      if initialized : ∀ entry ∈ flat,
          SlotInit.check (Compile.routineName context.program entry.1) entry.2
            ((SlotUsage.ofRoutines flat).privateSlots entry.1) = .ok () then
        match assigned :
          SlotAssignment.assign (.ofRoutines flat) (.ofRoutines flat) options.optimize.share,
          isSpilled : Spill.routines context.program (.ofRoutines flat) options.version
            (SlotUsage.ofRoutines flat).locals flat with
        | .ok slots, .ok (spilled, sites) =>
          match linked : Link.link context.program slots options.version spilled with
          | .ok assembly => some ⟨context, graphs, flat, slots, spilled, sites, assembly, supported,
              lowered, flattened, initialized, assigned, isSpilled, linked⟩
          | .error _ => none
        | _, _ => none
      else none
    | .error _ => none
  | _, _ => none

/-! ## The elements of the code -/

variable (build : Build main options before)

/-- Which routines mention which slots. -/
def usage : SlotUsage := .ofRoutines build.flat

/-- Which routines call which. -/
def callGraph : CallGraph := .ofRoutines build.flat

/-- The slots that are saved around calls that can enter a routine again. -/
def localsOf (routine : Routine) : List Slot := (build.usage.locals.lookup routine).getD []

/-- What an element of the flat code of a routine becomes; all that is not the element itself is
inserted. -/
def elements (routine : Routine) (item : Item) : List Link.Element :=
  (Spill.expand build.context.program build.callGraph options.version routine
    (build.localsOf routine) item).map fun part => ⟨part, part ≠ item⟩

/-- The code of the routines with saved slots. -/
def table : RoutineTable (List Link.Element) :=
  build.flat.map fun entry => (entry.1, entry.2.flatMap (build.elements entry.1))

/-- Where the lines of the listing come from. -/
def origins : List Link.Origin := Link.origins build.table

/-- What slots, labels and subroutines are replaced by. -/
def resolver : Link.Resolver where
  slots := build.slots
  labels := (Link.labels build.context.program
    ((Link.subroutines build.spilled).map Prod.fst)).toOption.getD []

/-- The listing made ready to run. -/
def code : Machine.Code := .ofLines build.assembly.lines

theorem items_elements (routine : Routine) (flat : FlatCode) :
    (flat.flatMap (build.elements routine)).map Link.Element.item =
      flat.flatMap (Spill.expand build.context.program build.callGraph options.version routine
        (build.localsOf routine)) := by
  rw [List.map_flatMap]
  congr 1
  funext item
  rw [elements, List.map_map]
  exact List.map_id _

/-- The listing is linked from the elements. -/
theorem items_table : Link.items build.table = build.spilled := by
  rw [(Spill.routines_eq_ok build.isSpilled).1, Link.items, table, List.map_map]
  refine List.map_congr_left fun entry _ => ?_
  simp only [Function.comp_apply, items_elements]
  rfl

theorem keys_table : build.table.map Prod.fst = build.flat.map Prod.fst := by
  simp [table]

theorem lookup_table (routine : Routine) :
    build.table.lookup routine =
      (build.flat.lookup routine).map fun flat => flat.flatMap (build.elements routine) :=
  lookup_mapValue (fun key (flat : FlatCode) => flat.flatMap (build.elements key)) _ _

theorem keys_flat : build.flat.map Prod.fst = build.graphs.map Prod.fst :=
  (Compile.keys_flatten build.flattened).trans (Compile.keys_optimize options build.graphs)

theorem ordered : build.flat.Ordered :=
  (Compile.ordered_of_lowerRoutines build.lowered).1.congr build.keys_flat

theorem present : .main ∈ build.flat.map Prod.fst :=
  build.keys_flat ▸ (Compile.ordered_of_lowerRoutines build.lowered).2

/-- The main routine comes first. -/
theorem firstLine_main : Link.firstLine build.table .main = 0 :=
  Link.firstLine_main (build.ordered.congr build.keys_table) (build.keys_table ▸ build.present)

/-- The lines of the listing come from the elements. -/
theorem isListed : Link.Linked build.resolver build.table build.assembly.lines := by
  have linked := build.linked
  rw [← items_table] at linked
  obtain ⟨named, isNamed, isLinked⟩ := Link.exists_linked (build.ordered.congr build.keys_table)
    (build.keys_table ▸ build.present) linked
  rw [items_table] at isNamed
  rw [resolver, isNamed]
  exact isLinked

theorem becomes (entry : Routine × FlatCode) (member : entry ∈ build.flat) :
    ∀ item ∈ entry.2, Spill.Becomes build.context.program build.callGraph options.version entry.1
      (build.localsOf entry.1) item :=
  (Spill.routines_eq_ok build.isSpilled).2 entry member

end Build

end ContractBackend
