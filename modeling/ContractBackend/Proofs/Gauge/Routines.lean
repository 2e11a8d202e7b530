import ContractBackend.Proofs.Build
import ContractBackend.Proofs.Gauge.Lowering
import ContractBackend.Proofs.Gauge.Optimizing
import ContractBackend.Proofs.Lowering.Routines

/-!
# Lowering makes safe routines

The graphs of all routines of a program are safe where the bodies fit: each routine starts
with its arguments on the stack and ends with its results.
-/

namespace ContractBackend

section Ends

variable {home : Home} {dialect : Dialect} {code : Fragment} {expr : Expr}
  {jumps : Nat → List Nat} {escapes : Bool} {start base : Option Level}

/-- Storing values takes them off the stack. -/
theorem carries_stores {declared : SubroutineId → Option Handle} {results : Nat}
    (admitted : ∀ slot, dialect.admits (.store slot) = true) (slots : List Slot) (level : Level) :
    (Gauge.heights dialect declared results).Carries (slots.map .store)
      (level.map (· + slots.length)) level := by
  induction slots with
  | nil =>
    have same : level.map (· + 0) = level := by cases level <;> rfl
    rw [List.map_nil, List.length_nil, same]
    exact .nil level
  | cons slot rest ih =>
    refine .cons rfl ?_ ih
    cases level with
    | none => simp [Gauge.heights, admitted]
    | some height => exact move_heights (admitted slot) rfl (Nat.le_add_left _ _)

/-- The end of a routine leaves it. -/
theorem graded_ended {op : Opcode}
    (graded : code.Graded (home.gauge dialect) jumps escapes start (expr.onward base) base)
    (exits : op.isExit = true)
    (leaves : ∀ level, expr.onward base = some level → (home.gauge dialect).leave ⟨op, []⟩ level) :
    ∃ jumps, (Compile.ended code expr op).Graded (home.gauge dialect) jumps escapes start none
      base := by
  rw [Compile.ended]
  split
  next ends =>
    refine ⟨jumps, ?_⟩
    rwa [Expr.onward, Expr.beyond, if_pos ends] at graded
  next =>
    have last : (Fragment.leaf [⟨op, []⟩]).Graded (home.gauge dialect) (fun _ => []) false
        (expr.onward base) none base :=
      .leaf fun level isLevel => through_exit exits (leaves level isLevel)
    have whole := graded.attach last
    rw [Bool.or_false] at whole
    exact ⟨_, whole⟩

end Ends

variable {id : SubroutineId} {options : CompileOptions}

namespace Program

/-- How many arguments a routine starts with. -/
def argCount (program : Program) : Routine → Nat
  | .main => 0
  | .subroutine id => ((program.declared id).map Handle.argCount).getD 0

/-- How many values a routine leaves behind when it returns. -/
def results (program : Program) : Routine → Nat
  | .main => 0
  | .subroutine id => Returns.results ((program.declared id).map Handle.returns)

/-- The gauge of the code of a routine. -/
def gauge (program : Program) (dialect : Bool → Dialect) (routine : Routine) : Gauge Level :=
  .heights (dialect (routine = .main)) program.declared (program.results routine)

theorem gauge_main (program : Program) (dialect : Bool → Dialect) :
    program.gauge dialect .main = (Home.mk program none).gauge (dialect true) :=
  rfl

theorem gauge_subroutine {program : Program} {handle : Handle} (dialect : Bool → Dialect)
    (isDeclared : program.declared id = some handle) :
    program.gauge dialect (.subroutine id) =
      (Home.mk program (some handle.returns)).gauge (dialect false) := by
  simp [Program.gauge, Program.results, Home.gauge, isDeclared]

theorem SameDeclarations.gauge {before after : Program} (same : SameDeclarations before after)
    (dialect : Bool → Dialect) (routine : Routine) :
    after.gauge dialect routine = before.gauge dialect routine := by
  cases routine <;> simp [Program.gauge, Program.results, same.declared]

theorem SameDeclarations.argCount {before after : Program} (same : SameDeclarations before after)
    (routine : Routine) : after.argCount routine = before.argCount routine := by
  cases routine <;> simp [Program.argCount, same.declared]

end Program

/-- The instructions that move values between slots and the stack are admitted. -/
structure Dialect.Saves (dialect : Dialect) : Prop where
  load : ∀ slot, dialect.admits (.load slot) = true
  store : ∀ slot, dialect.admits (.store slot) = true
  cover : ∀ depth, dialect.admits (.immediate .cover depth) = true
  swap : dialect.admits ⟨.swap, []⟩ = true

/-- The instructions that are added to the code of expressions before slots are saved are
admitted. -/
structure Dialect.Closed (dialect : Bool → Dialect) : Prop where
  ret : (dialect true).admits ⟨.ret, []⟩ = true
  retsub : (dialect false).admits ⟨.retsub, []⟩ = true
  stores : ∀ slot, (dialect false).admits (.store slot) = true
  dup : ∀ main, (dialect main).admits ⟨.dup, []⟩ = true ∧ (dialect main).admits ⟨.dup2, []⟩ = true

/-- The instructions that are added to the code of expressions are admitted. -/
structure Dialect.Complete (dialect : Bool → Dialect) : Prop extends Dialect.Closed dialect where
  saves : ∀ main, (dialect main).Saves

theorem Dialect.closed_plain : Dialect.Closed .plain where
  ret := rfl
  retsub := rfl
  stores _ := rfl
  dup main := by cases main <;> exact ⟨rfl, rfl⟩

theorem Dialect.complete_tidy : Dialect.Complete fun _ => .tidy where
  ret := rfl
  retsub := rfl
  stores _ := rfl
  dup _ := ⟨rfl, rfl⟩
  saves _ := ⟨fun _ => rfl, fun _ => rfl, fun _ => rfl, rfl⟩

theorem Dialect.complete_regular : Dialect.Complete .regular where
  ret := rfl
  retsub := rfl
  stores _ := rfl
  dup main := by cases main <;> exact ⟨rfl, rfl⟩
  saves main := by cases main <;> exact ⟨fun _ => rfl, fun _ => rfl, fun _ => rfl, rfl⟩

/-- Expressions of the catalog are regular. -/
theorem Expr.fits_regular {expr : Expr} (catalog : expr.isCatalog = true) (main : Bool) :
    expr.Fits main (.regular main) none :=
  ⟨Expr.emits_of_isCatalog main catalog, Expr.isProper_of_isCatalog catalog, nofun⟩

namespace Compile

open Lowering

variable {dialect : Bool → Dialect} {before after : Context} {base : Level} {routine : RoutineGraph}

/-- A routine starts with its arguments on the stack. -/
def SafeRoutine (dialect : Bool → Dialect) (base : Level) (program : Program)
    (entry : Routine × RoutineGraph) : Prop :=
  entry.2.graph.Safe (program.gauge dialect entry.1) entry.2.entry
    (base.map (· + program.argCount entry.1))

/-- A routine is safe if its code can be marked. -/
theorem Makes.safe {code : Fragment} {expr : Expr} {gauge : Gauge Level} {escapes : Bool}
    {bottom : Option Level} {level : Level} (makes : Makes code expr before routine after)
    (graded : expr.Passes before.home after.referenced →
      ∃ jumps, code.Graded gauge jumps escapes (some level) none bottom) :
    routine.graph.Safe gauge routine.entry level ∧ after.program = before.program := by
  obtain ⟨span, ended, lowered, prepared, rfl⟩ := makes
  obtain ⟨jumps, graded⟩ := graded (lowered.passes expr (by simp))
  obtain ⟨_, _, safe⟩ := Graph.safe_of_prepare prepared (lowered.safe graded)
  exact ⟨safe, lowered.noted.program⟩

theorem safe_of_lowerMain (closed : Dialect.Closed dialect) {main : Expr}
    (fits : main.Fits true (dialect true) base)
    (lowered : Yields (lowerMain main) before routine after) :
    SafeRoutine dialect base before.program (.main, routine) ∧ after.program = before.program := by
  obtain ⟨isValue, makes⟩ := (ensures_lowerMain main before).of_outcome lowered
  have leaves : ∀ level, main.onward (some base) = some level →
      ((atMain before).home.gauge (dialect true)).leave ⟨.ret, []⟩ level := by
    intro level isLevel
    obtain ⟨goes, _, isBase, rfl⟩ := Expr.onward_eq_some.mp isLevel
    cases isBase
    refine ⟨closed.ret, fun height known => ⟨by rintro ⟨⟩, fun _ => ?_⟩⟩
    cases base with
    | none => cases known
    | some base =>
      rw [Expr.raise_of_isValue (isValue goes)] at known
      cases known
      exact Nat.succ_pos base
  obtain ⟨safe, program⟩ := makes.safe fun passes =>
    graded_ended (passes.grades (some base) (by rintro _ ⟨⟩; exact fits)) rfl leaves
  refine ⟨?_, program⟩
  rw [SafeRoutine, Program.gauge_main]
  cases base <;> exact safe

/-- Storing the arguments of a subroutine in front of its body. -/
theorem graded_subroutine {home : Home} {dialect : Dialect} {subroutine : Subroutine} {body : Expr}
    {ids : List SubroutineId} (isMain : home.isMain = false) (passes : body.Passes home ids)
    (fits : body.Fits false dialect base)
    (admitted : ∀ slot, dialect.admits (.store slot) = true)
    (retsub : dialect.admits ⟨.retsub, []⟩ = true)
    (results : ∀ height, body.terminates = false → body.raise base = some height →
      height = Returns.results home.returns) :
    ∃ jumps, (subroutineCode subroutine body).Graded (home.gauge dialect) jumps body.escapes
      (some (base.map (· + subroutine.params.length))) none (some base) := by
  have code := passes.grades (some base) (by rintro _ ⟨⟩; rw [isMain]; exact fits)
  rw [isMain] at code
  have stores : (Fragment.leaf (subroutine.params.reverse.map fun param => .store param.slot)).Graded
      (home.gauge dialect) (fun _ => []) false (some (base.map (· + subroutine.params.length)))
      (some base) (some base) := by
    refine .leaf fun level isLevel => ?_
    cases isLevel
    have carries : (home.gauge dialect).Carries _ _ base :=
      carries_stores admitted (subroutine.params.reverse.map Var.slot) base
    rw [List.map_map, List.length_map, List.length_reverse] at carries
    exact carries.through rfl
  refine graded_ended (stores.attach code) rfl fun level isLevel => ?_
  obtain ⟨goes, _, isBase, rfl⟩ := Expr.onward_eq_some.mp isLevel
  cases isBase
  exact ⟨retsub, fun height known => ⟨fun _ => results height goes known, by rintro ⟨⟩⟩⟩

theorem exists_registered (lowered : Yields (lowerSubroutine id) before routine after) :
    ∃ subroutine, before.program.subroutines[id]? = some subroutine := by
  obtain ⟨_, _, got, lowered⟩ := yields_bind.mp lowered
  obtain ⟨rfl, rfl⟩ := yields_get.mp got
  obtain ⟨subroutine, _, found, _⟩ := yields_bind.mp lowered
  exact ⟨subroutine, Program.subroutine_eq_ok.mp (yields_lift.mp found).1⟩

theorem safe_of_lowerSubroutine (closed : Dialect.Closed dialect)
    (counted : ∀ height, base = some height → height = 0 ∧ before.program.IsWellDeclared)
    (fits : before.program.BodiesHave fun body => body.Fits false (dialect false) base)
    (lowered : Yields (lowerSubroutine id) before routine after) :
    SafeRoutine dialect base before.program (.subroutine id, routine) ∧
      before.program.SameDeclarations after.program ∧
      after.program.BodiesHave fun body => body.Fits false (dialect false) base := by
  obtain ⟨subroutine, registered⟩ := exists_registered lowered
  obtain ⟨body, isBody, agree, makes⟩ := (ensures_lowerSubroutine registered).of_outcome lowered
  have isDeclared : before.program.declared id = some subroutine.handle := by
    rw [Program.declared, registered, Option.map_some]
  have same := Program.sameDeclarations_body before.program id
  obtain ⟨bodyFits, keeps⟩ := fits.body id
  have results : ∀ height, body.terminates = false → body.raise base = some height →
      height = Returns.results (some subroutine.handle.returns) := by
    intro height goes known
    cases base with
    | none => cases known
    | some base =>
      cases (counted base rfl).1
      rw [Expr.raise, Expr.width, agree goes, Option.map_some, Nat.zero_add] at known
      cases known
      rfl
  obtain ⟨safe, program⟩ := makes.safe fun passes => graded_subroutine rfl passes
    (bodyFits body isBody) closed.stores closed.retsub results
  refine ⟨?_, program ▸ same, program ▸ keeps⟩
  have count : base.map (· + subroutine.params.length) =
      base.map (· + before.program.argCount (.subroutine id)) := by
    cases base with
    | none => rfl
    | some height =>
      have params := (counted height rfl).2 id subroutine registered
      simp [Program.argCount, isDeclared, params]
  rw [SafeRoutine, Program.gauge_subroutine dialect isDeclared, ← count, Home.gauge, ← same.declared]
  exact safe

/-! ## All routines -/

/-- The routines lowered so far are safe. -/
def Routines (dialect : Bool → Dialect) (base : Level) (program : Program)
    (graphs : RoutineTable RoutineGraph) : Prop :=
  ∀ entry ∈ graphs, SafeRoutine dialect base program entry

variable {graphs result : RoutineTable RoutineGraph} {program : Program}

theorem SafeRoutine.congr {other : Program} (same : program.SameDeclarations other)
    {entry : Routine × RoutineGraph} :
    SafeRoutine dialect base other entry ↔ SafeRoutine dialect base program entry := by
  rw [SafeRoutine, SafeRoutine, same.gauge, same.argCount]

theorem Routines.insert (routines : Routines dialect base program graphs) {graph : RoutineGraph}
    (safe : SafeRoutine dialect base program (.subroutine id, graph)) :
    Routines dialect base program (Keyed.insert (.subroutine id) graph graphs) := by
  intro entry member
  rcases Keyed.mem_of_mem_insert member with rfl | old
  · exact safe
  · exact routines entry old

theorem routines_of_lowerReferenced (closed : Dialect.Closed dialect) {count : Nat}
    (counted : ∀ height, base = some height → height = 0 ∧ program.IsWellDeclared)
    (same : program.SameDeclarations before.program)
    (fits : before.program.BodiesHave fun body => body.Fits false (dialect false) base)
    (routines : Routines dialect base program graphs)
    (lowered : Yields (lowerReferenced count graphs) before result after) :
    Routines dialect base program result ∧ program.SameDeclarations after.program := by
  induction count generalizing graphs before with
  | zero =>
    obtain ⟨rfl, rfl⟩ := yields_pure.mp lowered
    exact ⟨routines, same⟩
  | succ count ih =>
    simp only [lowerReferenced, yields_bind, yields_get] at lowered
    obtain ⟨_, _, ⟨rfl, rfl⟩, lowered⟩ := lowered
    split at lowered
    next =>
      obtain ⟨rfl, rfl⟩ := yields_pure.mp lowered
      exact ⟨routines, same⟩
    next id found =>
      obtain ⟨graph, middle, first, rest⟩ := yields_bind.mp lowered
      obtain ⟨safe, further, fits'⟩ := safe_of_lowerSubroutine closed
        (fun height known => ⟨(counted height known).1,
          same.isWellDeclared (counted height known).2⟩) fits first
      exact ih (same.trans further) fits'
        (routines.insert ((SafeRoutine.congr same).mp safe)) rest

/-- Lowering makes safe routines. -/
theorem routines_of_lowerRoutines (closed : Dialect.Closed dialect) {main : Expr}
    (mainFits : main.Fits true (dialect true) base)
    (counted : ∀ height, base = some height → height = 0 ∧ before.program.IsWellDeclared)
    (fits : before.program.BodiesHave fun body => body.Fits false (dialect false) base)
    (lowered : Yields (lowerRoutines main) before graphs after) :
    Routines dialect base before.program graphs ∧
      before.program.SameDeclarations after.program := by
  simp only [lowerFrom, yields_bind, yields_get] at lowered
  obtain ⟨graph, middle, first, _, _, ⟨rfl, rfl⟩, rest⟩ := lowered
  obtain ⟨safe, program⟩ := safe_of_lowerMain closed mainFits first
  exact routines_of_lowerReferenced closed counted (program ▸ .refl _) (program ▸ fits)
    (by simpa [Routines] using safe) rest

/-- What each improvement keeps of a routine is kept. -/
theorem optimize_keeps {property : Routine × RoutineGraph → Prop}
    (dedupe : ∀ entry, property entry → property (entry.1,
      { entry.2 with graph := (entry.2.graph.dedupe entry.2.entry options.version).1 }))
    (elide : ∀ entry pinned, property entry → property (entry.1,
      { entry.2 with graph := (entry.2.graph.elide entry.2.entry pinned).1 }))
    (each : ∀ entry ∈ graphs, property entry) :
    ∀ entry ∈ optimize options graphs, property entry := by
  simp only [optimize]
  split <;> split
  · simp only [List.forall_mem_map]
    exact fun old isOld => elide _ _ (dedupe old (each old isOld))
  · exact List.forall_mem_map.mpr fun old isOld => elide old _ (each old isOld)
  · exact List.forall_mem_map.mpr fun old isOld => dedupe old (each old isOld)
  · exact each

/-- Improvements keep the routines safe. -/
theorem Routines.optimize (closed : Dialect.Closed dialect)
    (routines : Routines dialect base program graphs) (options : CompileOptions) :
    Routines dialect base program (Compile.optimize options graphs) := by
  refine optimize_keeps ?_ ?_ routines
  · exact fun entry safe => Graph.Safe.dedupe safe (closed.dup _) _
  · exact fun entry pinned safe => Graph.Safe.elide safe pinned

/-- The code of a routine is safe from its first position, where its arguments are on the
stack. -/
def SafeCode (dialect : Bool → Dialect) (base : Level) (program : Program)
    (entry : Routine × FlatCode) : Prop :=
  entry.2.Safe (program.gauge dialect entry.1) 0 (base.map (· + program.argCount entry.1))

/-- Safe routines have safe code. -/
theorem Routines.flatten (routines : Routines dialect base program graphs)
    {flat : RoutineTable FlatCode} {other : Program}
    (isOk : Compile.flatten other options graphs = .ok flat) :
    ∀ entry ∈ flat, SafeCode dialect base program entry := by
  intro code member
  obtain ⟨routine, isRoutine, same, made⟩ :=
    Fallible.exists_related_of_mem (of_flatten isOk) member
  obtain ⟨order, placed, laid, isListed⟩ :=
    Graph.exists_laid_of_flatten made (routines routine isRoutine)
  rw [SafeCode, ← isListed, ← same]
  exact laid.safe (routines routine isRoutine)

end Compile

end ContractBackend
