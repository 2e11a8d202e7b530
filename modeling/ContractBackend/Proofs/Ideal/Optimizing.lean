import ContractBackend.Proofs.Ideal.Improving

/-!
# Optimised programs end alike

The improvements that are asked for rewrite the flat code of the routines step by step, so that
what holds of each step holds of all of them together. What a compilation has made is a program of
the ideal machine; with improvements, it ends with the same result and in no more steps.
-/

namespace ContractBackend

open Machine (Limits Environment)
open Lowering (Yields)
open Relation (ReflTransGen)
open RoutineTable (Rewrites)

namespace Ideal

/-- Code that takes the place of other code: it mentions fewer slots, and a program that ends does
so with it too, with the same result and in no more steps. -/
structure Reduces (limits : Limits) (env : Environment) (flat flat' : RoutineTable FlatCode) :
    Prop where
  trims : Trims flat flat'
  static : flat'.IsStatic
  ends : ∀ (setting : Setting) count result,
    Ends (setting.withCode flat) limits env (setting.initial env) count result →
    ∃ fewer, fewer ≤ count ∧
      Ends (setting.withCode flat') limits env (setting.initial env) fewer result

namespace Reduces

variable {limits : Limits} {env : Environment} {flat middle flat' : RoutineTable FlatCode}

theorem refl (static : flat.IsStatic) : Reduces limits env flat flat :=
  ⟨.refl flat, static, fun _ count _ ends => ⟨count, Nat.le_refl _, ends⟩⟩

theorem trans (first : Reduces limits env flat middle) (second : Reduces limits env middle flat')
    (nodup : (flat.map Prod.fst).Nodup) : Reduces limits env flat flat' := by
  refine ⟨first.trims.trans second.trims nodup, second.static, fun setting count result ends => ?_⟩
  obtain ⟨fewer, less, ends⟩ := first.ends setting count result ends
  obtain ⟨least, evenLess, ends⟩ := second.ends setting fewer result ends
  exact ⟨least, Nat.le_trans evenLess less, ends⟩

theorem of_duplicates {version : Version} (nodup : (flat.map Prod.fst).Nodup)
    (static : flat.IsStatic)
    (steps : ReflTransGen (Rewrites (FlatCode.Duplicates version)) flat flat') :
    Reduces limits env flat flat' := by
  induction steps with
  | refl => exact .refl static
  | tail _ step ih =>
    have nodup' := ih.trims.keys ▸ nodup
    exact ih.trans ⟨.of_duplicates nodup' step, ih.static.of_duplicates step,
      fun _ _ _ ends => ends_of_duplicates nodup' step ends⟩ nodup

theorem of_skips {pinned : List Slot} (nodup : (flat.map Prod.fst).Nodup) (static : flat.IsStatic)
    (shared : ∀ slot, (SlotUsage.ofRoutines flat).isGlobal slot = true → slot ∈ pinned)
    (steps : ReflTransGen (Rewrites (FlatCode.Skips pinned)) flat flat') :
    Reduces limits env flat flat' := by
  induction steps with
  | refl => exact .refl static
  | tail _ step ih =>
    have nodup' := ih.trims.keys ▸ nodup
    have shared' := fun slot isGlobal =>
      shared slot ((ih.trims.isGlobal_eq nodup).symm.trans isGlobal)
    exact ih.trans ⟨.of_skips nodup' ih.static shared' step, ih.static.of_skips step,
      fun _ _ _ ends => ends_of_skips nodup' shared' step ends⟩ nodup

end Reduces

end Ideal

namespace Compile

variable {graphs : RoutineTable RoutineGraph} {flat flat' : RoutineTable FlatCode}
  {program : Program}

/-- The flat code of graphs. -/
def Flattens (graphs : RoutineTable RoutineGraph) (flat : RoutineTable FlatCode) : Prop :=
  List.Forall₂ (fun routine code => routine.1 = code.1 ∧ routine.2.flatten = .ok code.2) graphs flat

namespace Flattens

theorem unique (flattens : Flattens graphs flat) (other : Flattens graphs flat') : flat' = flat := by
  induction flattens generalizing flat' with
  | nil =>
    cases other
    rfl
  | cons first _ ih =>
    cases other with
    | cons second rest =>
      rw [ih rest]
      congr 1
      have same := second.2.symm.trans first.2
      exact Prod.ext (second.1.symm.trans first.1) (Except.ok.inj same)

/-- Improving the graph of each routine rewrites its flat code. -/
theorem improve {rewrite : FlatCode → FlatCode → Prop} (flattens : Flattens graphs flat)
    (change : RoutineGraph → Graph)
    (each : ∀ entry ∈ graphs, ∀ code, entry.2.flatten = .ok code →
      ∃ code', RoutineGraph.flatten ⟨change entry.2, entry.2.entry⟩ = .ok code' ∧
        ReflTransGen rewrite code code') :
    ∃ flat', Flattens (graphs.map fun entry => (entry.1, { entry.2 with graph := change entry.2 }))
        flat' ∧ ReflTransGen (Rewrites rewrite) flat flat' := by
  suffices found : ∃ flat', Flattens
      (graphs.map fun entry => (entry.1, { entry.2 with graph := change entry.2 })) flat' ∧
      List.Forall₂ (fun entry other => entry.1 = other.1 ∧ ReflTransGen rewrite entry.2 other.2)
        flat flat' by
    obtain ⟨flat', flattens, related⟩ := found
    exact ⟨flat', flattens, RoutineTable.reflTransGen_rewrites related⟩
  induction flattens with
  | nil => exact ⟨[], .nil, .nil⟩
  | @cons entry code _ _ first _ ih =>
    rw [List.forall_mem_cons] at each
    obtain ⟨code', isOk, steps⟩ := each.1 _ first.2
    obtain ⟨flat', flattens, related⟩ := ih each.2
    exact ⟨(code.1, code') :: flat', .cons ⟨first.1, isOk⟩ flattens, .cons ⟨rfl, steps⟩ related⟩

theorem lookup (flattens : Flattens graphs flat) (routine : Routine) :
    (graphs.lookup routine = none ∧ flat.lookup routine = none) ∨
      ∃ graph code, graphs.lookup routine = some graph ∧ flat.lookup routine = some code ∧
        graph.flatten = .ok code := by
  induction flattens with
  | nil => exact .inl ⟨rfl, rfl⟩
  | @cons entry code _ _ first _ ih =>
    obtain ⟨key, graph⟩ := entry
    obtain ⟨_, code⟩ := code
    obtain ⟨rfl, isOk⟩ := first
    simp only [List.lookup_cons]
    by_cases same : routine = key
    · subst same
      exact .inr ⟨graph, code, by simp, by simp, isOk⟩
    · simpa only [beq_eq_false_iff_ne.mpr same] using ih

/-- Flat code mentions the slots that the reachable blocks mention. -/
theorem mem_slotsOf (flattens : Flattens graphs flat)
    (routines : Routines .static (some 0) program graphs) {routine : Routine} {slot : Slot}
    (mentioned : slot ∈ (SlotUsage.ofRoutines flat).slotsOf routine) :
    slot ∈ (SlotUsage.ofRoutines (graphs.map fun entry =>
      (entry.1, entry.2.instrs.map Item.instr))).slotsOf routine := by
  obtain ⟨code, isCode, instr, member, isSlot⟩ := (SlotUsage.slotsOf_ofRoutines _ _).mp mentioned
  rcases flattens.lookup routine with ⟨_, absent⟩ | ⟨graph, code', isGraph, isCode', isOk⟩
  · rw [absent] at isCode
    cases isCode
  · rw [isCode] at isCode'
    cases isCode'
    have safe := routines _ (mem_of_lookup isGraph)
    rw [SlotUsage.slotsOf_ofRoutines, lookup_mapValue fun _ (graph : RoutineGraph) =>
      graph.instrs.map Item.instr, isGraph]
    refine ⟨_, rfl, instr, ?_, isSlot⟩
    obtain ⟨order, placed, laid, rfl⟩ := Graph.exists_laid_of_flatten isOk safe
    obtain ⟨position, id, branches, found, inBlock | ⟨branch, _, rfl⟩⟩ :=
      Graph.mem_listing (FlatCode.mem_instrs.mp member)
    · rw [FlatCode.instrs_map]
      exact List.mem_flatMap.mpr ⟨id, laid.reached found, inBlock⟩
    · cases isSlot

/-- Slots that several routines share are left alone. -/
theorem mem_pinned (flattens : Flattens graphs flat) (nodup : (flat.map Prod.fst).Nodup)
    (routines : Routines .static (some 0) program graphs) (slot : Slot)
    (isGlobal : (SlotUsage.ofRoutines flat).isGlobal slot = true) :
    slot ∈ (SlotUsage.ofRoutines (graphs.map fun entry =>
      (entry.1, entry.2.instrs.map Item.instr))).pinned := by
  obtain ⟨first, second, different, inFirst, inSecond⟩ := SlotUsage.exists_of_isGlobal
    (by rwa [SlotUsage.keys_ofRoutines]) isGlobal
  have inFirst := flattens.mem_slotsOf routines inFirst
  obtain ⟨slots, listed, isSlot⟩ := SlotUsage.mem_perRoutine_of_slotsOf inFirst
  rw [SlotUsage.pinned, List.mem_filter]
  refine ⟨SlotUsage.mem_all.mpr ⟨_, listed, isSlot⟩, ?_⟩
  rw [SlotUsage.isGlobal_of_ne different inFirst (flattens.mem_slotsOf routines inSecond)]
  rfl

end Flattens

/-- Improvements reduce flat code. -/
theorem reduces_of_optimize (routines : Routines .static (some 0) program graphs)
    (options : CompileOptions) (flattens : Flattens graphs flat)
    (nodup : (flat.map Prod.fst).Nodup)
    (improved : Flattens (optimize options graphs) flat') (limits : Limits) (env : Environment) :
    Ideal.Reduces limits env flat flat' := by
  have static : flat.IsStatic := routines.isStatic flattens
  obtain ⟨deduped, isDeduped⟩ : ∃ deduped, deduped = if options.optimize.dedupe then
      graphs.map fun entry =>
        (entry.1, { entry.2 with graph := (entry.2.graph.dedupe entry.2.entry options.version).1 })
      else graphs := ⟨_, rfl⟩
  have duplicated : ∃ middle, Flattens deduped middle ∧ Ideal.Reduces limits env flat middle := by
    split at isDeduped <;> subst isDeduped
    next =>
      obtain ⟨middle, flattens', steps⟩ := flattens.improve
        (fun routine => (routine.graph.dedupe routine.entry options.version).1)
        fun entry member code isOk => RoutineGraph.flatten_dedupe isOk (routines entry member)
          (Dialect.complete_static.dup _) options.version
      exact ⟨middle, flattens', .of_duplicates nodup static steps⟩
    next => exact ⟨flat, flattens, .refl static⟩
  have safe : Routines .static (some 0) program deduped := by
    simpa [optimize, isDeduped] using routines.optimize Dialect.complete_static.toClosed
      { options with optimize := { dedupe := options.optimize.dedupe } }
  obtain ⟨middle, flattens', first⟩ := duplicated
  rw [optimize, ← isDeduped] at improved
  split at improved
  next =>
    have shared := flattens'.mem_pinned (first.trims.keys ▸ nodup) safe
    generalize SlotUsage.pinned _ = pinned at improved shared
    obtain ⟨last, flattens'', steps⟩ := flattens'.improve
      (fun routine => (routine.graph.elide routine.entry pinned).1)
      fun entry member code isOk => RoutineGraph.flatten_elide isOk (safe entry member) pinned
    cases flattens''.unique improved
    exact first.trans (.of_skips (first.trims.keys ▸ nodup) first.static shared steps) nodup
  next =>
    cases flattens'.unique improved
    exact first

end Compile

namespace Build

variable {main : Expr} {options plainly : CompileOptions} {before : Program}

/-- The flat code of a compilation as a program of the ideal machine. -/
def setting (build : Build main options before) : Ideal.Setting where
  code routine := build.flat.lookup routine
  declared := before.declared
  isOwn slot := !build.usage.isGlobal slot && !slot.isReserved
  saved routine id := if build.callGraph.isReentry routine id then build.localsOf routine else []

/-- Slots may be saved as the code at hand uses them. -/
theorem improves_of_trims (build : Build main options before) (plain : Build main plainly before)
    (trims : Trims plain.flat build.flat) (limits : Limits) (env : Environment) :
    ∃ change : Ideal.Change, Ideal.Improves limits env change
      (fun slot => ∀ routine, slot ∉ build.usage.slotsOf routine)
      (plain.setting.withCode build.flat) build.setting := by
  have calls : build.callGraph = plain.callGraph := trims.calls
  have nodup := plain.ordered.nodup
  obtain ⟨code, isCode⟩ := Option.ne_none_iff_exists'.mp (Keyed.mem_keys_iff.mp build.present)
  refine ⟨⟨.main, [], [], [], code⟩, ?_⟩
  exact {
    old := isCode
    new := isCode
    others := fun _ _ => rfl
    declared := rfl
    shorter := Nat.le_refl _
    straight := nofun
    unread := by
      intro routine flat isFlat instr member slot unused
      rw [Bool.eq_false_iff]
      intro loads
      exact unused routine ((SlotUsage.slotsOf_ofRoutines _ _).mpr ⟨flat, isFlat, instr,
        FlatCode.mem_instrs.mpr member, Instr.mem_slots_of_loadsFrom loads⟩)
    own := by
      intro slot _
      have same : build.usage.isGlobal slot = plain.usage.isGlobal slot := trims.isGlobal_eq nodup
      simp only [setting, Ideal.Setting.withCode, same]
    saved := by
      intro slot used routine id
      simp only [not_forall, not_not] at used
      obtain ⟨other, mentioned⟩ := used
      simp only [setting, Ideal.Setting.withCode, calls]
      split
      · exact trims.mem_locals_iff nodup mentioned
      · exact Iff.rfl
    fewer := by
      intro routine id
      simp only [setting, Ideal.Setting.withCode, calls]
      split
      · exact trims.length_locals_le nodup
      · exact Nat.le_refl _
    same := by
      intro below lower memory memory' after _ _ agree runs
      cases runs
      exact ⟨memory', .nil, agree⟩ }

/-- With improvements, a program ends alike on the ideal machine. -/
theorem ends_of_plain (build : Build main options before) (plain : Build main plainly before)
    (static : IsStatic main before) (same : plainly.version = options.version)
    (none : plainly.optimize.dedupe = false ∧ plainly.optimize.elide = false)
    {limits : Limits} {env : Environment} {count : Nat} {result : Ideal.Result}
    (ends : Ideal.Ends plain.setting limits env (plain.setting.initial env) count result) :
    ∃ fewer, fewer ≤ count ∧
      Ideal.Ends build.setting limits env (build.setting.initial env) fewer result := by
  obtain ⟨routines, _⟩ := build.routines_static static
  have lowered : Yields (Compile.lowerRoutines main) { program := before, version := options.version }
      plain.graphs plain.context := same ▸ plain.lowered
  have graphs : plain.graphs = build.graphs :=
    Except.ok.inj (Prod.mk.inj (lowered.symm.trans build.lowered)).1
  have flattens : Compile.Flattens build.graphs plain.flat := by
    have unchanged : Compile.optimize plainly plain.graphs = build.graphs := by
      simp [Compile.optimize, none.1, none.2, graphs]
    exact unchanged ▸ Compile.of_flatten plain.flattened
  have improved : Compile.Flattens (Compile.optimize options build.graphs) build.flat :=
    Compile.of_flatten build.flattened
  have reduces := Compile.reduces_of_optimize routines options flattens plain.ordered.nodup
    improved limits env
  obtain ⟨change, improves⟩ := build.improves_of_trims plain reduces.trims limits env
  obtain ⟨fewer, less, ends⟩ := reduces.ends plain.setting count result ends
  obtain ⟨least, evenLess, ends⟩ := improves.ends_initial ends
  exact ⟨least, Nat.le_trans evenLess less, ends⟩

end Build

end ContractBackend
