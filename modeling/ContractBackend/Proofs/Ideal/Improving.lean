import ContractBackend.Proofs.Gauge.Static
import ContractBackend.Proofs.Ideal.Changes
import ContractBackend.Proofs.Optimize.Repetition
import ContractBackend.Proofs.Optimize.Placement

/-!
# Improved programs end alike

A value that is duplicated is the value that would be computed again, and a value that is neither
stored nor loaded is the one that would be loaded. Improvements of the flat code of routines trim
their usage of slots, and every run of the ideal machine that ends does so with the improved code
too, with the same result and in no more steps.
-/

namespace ContractBackend

open Relation (ReflTransGen)

namespace Ideal

open Machine (Limits Environment Value Flow)

variable {limits : Limits} {env : Environment} {below fewer : Nat} {memory memory' after : Memory}
  {window : List Instr}

theorem Agree.eq (agree : Agree (fun _ => False) memory memory') : memory' = memory := by
  obtain ⟨stack, slots, effects, appState⟩ := agree
  have slots : memory'.slots = memory.slots := funext fun slot => slots slot id
  cases memory
  cases memory'
  simp_all

/-- Plain code that only adds values adds the same ones the second time. -/
theorem Runs.twice {high : Nat} (runs : Runs limits env below (window ++ window) memory after)
    (plain : ∀ instr ∈ window, Dedupe.isPlain instr = true)
    (net : StackHeight.checkFrom 0 window 0 = .ok high) :
    ∃ made, made.length = high ∧
      Runs limits env below window memory (memory.on (made ++ memory.stack)) ∧
      after = memory.on (made ++ (made ++ memory.stack)) := by
  obtain ⟨middle, first, second⟩ := runs.of_append
  have first' : Runs limits env below window (memory.on ([] ++ memory.stack)) middle := first
  obtain ⟨made, count, rfl, onTop⟩ := first'.of_append_stack plain net
  have second' : Runs limits env below window (memory.on ([] ++ (made ++ memory.stack))) after :=
    second
  obtain ⟨again, _, rfl, onTop'⟩ := second'.of_append_stack plain net
  -- With less below, the second time goes like the first one.
  have less : below + memory.stack.length ≤ below + (made ++ memory.stack).length := by
    rw [List.length_append]
    omega
  have same : Agree (fun _ => False) (memory.on []) (memory.on []) := .refl _ _
  obtain ⟨other, onLess, agree⟩ := onTop'.agree less same fun _ _ _ => False.elim
  cases agree.eq
  have equal : again = made := congrArg Memory.stack (onTop.unique onLess)
  exact ⟨made, count, first, by rw [equal]⟩

/-- The instruction that replaces a window duplicates the values that it has added. -/
theorem acts_replacement {version : Version} {instr : Instr} {made base : List Value}
    (found : Dedupe.replacement? version window = some instr)
    (net : StackHeight.checkFrom 0 window 0 = .ok made.length)
    (fits : Fits limits below (memory.on (made ++ (made ++ base)))) :
    Acts limits env below instr (memory.on (made ++ base)) .next
      (memory.on (made ++ (made ++ base))) := by
  have room : (made ++ (made ++ base)).length ≤ (limits.above below).maxStack :=
    Nat.le_sub_of_add_le fits
  have executed : Machine.execute (limits.above below) env ⟨instr.op, 0⟩ []
      (memory.on (made ++ base)).bare = .ok (.next, (memory.on (made ++ (made ++ base))).bare) :=
    @Dedupe.execute_replacement _ env version instr window memory.bare 0 made base [] found net room
  change Acts limits env below _ _ _
    ((memory.on (made ++ base)).take (memory.on (made ++ (made ++ base))).bare)
  obtain ⟨_, _, rfl | rfl⟩ := Dedupe.replacement?_cases found <;> exact .plain rfl rfl executed

/-- Values may be duplicated instead of being computed again. -/
theorem Runs.duplicate {version : Version} {instr : Instr}
    (found : Dedupe.replacement? version window = some instr) (fits : Fits limits below memory)
    (runs : Runs limits env below (window ++ window) memory after) :
    Runs limits env below (window ++ [instr]) memory after := by
  have fitsAfter := runs.fits fits
  obtain ⟨plain, nets⟩ := Dedupe.of_replacement? found
  obtain ⟨high, net⟩ : ∃ high, StackHeight.checkFrom 0 window 0 = .ok high :=
    nets.elim (fun one => ⟨1, one.1⟩) fun two => ⟨2, two.1⟩
  obtain ⟨made, rfl, first, rfl⟩ := runs.twice plain net
  exact first.append (.cons (acts_replacement found net fitsAfter) .nil)

/-- A value need not be stored only to be loaded at once. -/
theorem Runs.skip {store load : Instr} {slot : Slot}
    (stored : Elide.storedSlot? store = some slot) (loads : load.loadsFrom slot = true)
    (agree : Agree (· = slot) memory memory')
    (runs : Runs limits env below [store, load] memory after) :
    Agree (· = slot) after memory' := by
  simp only [Elide.storedSlot?, Option.ite_none_right_eq_some] at stored
  rw [Instr.loadsFrom_iff] at loads
  cases runs with
  | cons first second =>
    cases second with
    | cons second none =>
      cases none
      cases first with
      | load => cases stored.1
      | plain plain =>
        rw [stored.1] at plain
        cases plain
      | @store stored' _ _ value rest isStack =>
        cases second with
        | store => cases loads.1
        | plain plain =>
          rw [loads.1] at plain
          cases plain
        | @load loaded _ _ value isValue =>
          have isStored : stored' = slot := Option.some.inj stored.2
          have isLoaded : loaded = slot := Option.some.inj loads.2
          subst isStored isLoaded
          simp only [Function.update_self] at isValue
          cases isValue
          refine ⟨agree.stack.trans isStack, fun other different => ?_, agree.effects,
            agree.appState⟩
          simp only [Function.update_of_ne different]
          exact agree.slots other different

end Ideal

/-! ## One routine after the other -/

namespace RoutineTable

variable {α : Type} {rewrite : α → α → Prop}

/-- What stands for one routine is rewritten. -/
inductive Rewrites (rewrite : α → α → Prop) : RoutineTable α → RoutineTable α → Prop where
  | intro (front back : RoutineTable α) (routine : Routine) {left right : α} :
      rewrite left right →
      Rewrites rewrite (front ++ (routine, left) :: back) (front ++ (routine, right) :: back)

theorem reflTransGen_rewrites {left right : RoutineTable α}
    (related : List.Forall₂ (fun entry other => entry.1 = other.1 ∧
      ReflTransGen rewrite entry.2 other.2) left right) :
    ReflTransGen (Rewrites rewrite) left right := by
  suffices behind : ∀ front : RoutineTable α,
      ReflTransGen (Rewrites rewrite) (front ++ left) (front ++ right) from behind []
  induction related with
  | nil => exact fun _ => .refl
  | @cons entry other left right first _ ih =>
    intro front
    obtain ⟨routine, value⟩ := entry
    obtain ⟨_, value'⟩ := other
    obtain ⟨rfl, steps⟩ := first
    have here : ReflTransGen (Rewrites rewrite) (front ++ (routine, value) :: left)
        (front ++ (routine, value') :: left) := by
      refine steps.lift (fun value => front ++ (routine, value) :: left) ?_
      exact fun _ _ step => .intro front left routine step
    have rest := ih (front ++ [(routine, value')])
    simp only [List.append_assoc, List.singleton_append] at rest
    exact here.trans rest

theorem lookup_of_ne {front back : RoutineTable α} {routine other : Routine}
    (different : other ≠ routine) (left right : α) :
    (front ++ (routine, right) :: back).lookup other =
      (front ++ (routine, left) :: back).lookup other := by
  simp only [List.lookup_append, List.lookup_cons, beq_eq_false_iff_ne.mpr different]

theorem lookup_self {front back : RoutineTable α} {routine : Routine} {value : α}
    (nodup : ((front ++ (routine, value) :: back).map Prod.fst).Nodup) :
    (front ++ (routine, value) :: back).lookup routine = some value :=
  lookup_of_mem nodup (by simp)

end RoutineTable

open RoutineTable (Rewrites lookup_self lookup_of_ne)

theorem Instr.mem_slots_of_loadsFrom {instr : Instr} {slot : Slot}
    (loads : instr.loadsFrom slot = true) : slot ∈ instr.slots := by
  rw [loadsFrom_iff] at loads
  obtain ⟨operand, member, accessed⟩ := List.exists_of_findSome?_eq_some loads.2
  refine List.mem_filterMap.mpr ⟨operand, member, ?_⟩
  cases operand <;> simp_all [Operand.slot?, Operand.mentioned?]

/-! ## Usage -/

theorem Dedupe.straight_of_isPlain {instr : Instr} (plain : isPlain instr = true) :
    instr.op.isExit = false ∧ instr.op.isBranch = false ∧ instr.op ≠ .callsub := by
  simp only [isPlain, Bool.and_eq_true, Bool.not_eq_true'] at plain
  cases op : instr.op <;> simp_all [Opcode.hasSideEffects, Opcode.isExit, Opcode.isBranch]

theorem CallGraph.callee?_of_ne {instr : Instr} (other : instr.op ≠ .callsub) :
    callee? instr = none :=
  if_neg other

namespace Trims

variable {version : Version} {pinned : List Slot} {flat flat' : RoutineTable FlatCode}

/-- Rewriting the code of one routine. -/
theorem of_rewrite {front back : RoutineTable FlatCode} {routine : Routine} {code code' : FlatCode}
    (nodup : ((front ++ (routine, code) :: back).map Prod.fst).Nodup)
    (less : ∀ slot ∈ code'.instrs.flatMap Instr.slots, slot ∈ code.instrs.flatMap Instr.slots)
    (keeps : ∀ slot, (SlotUsage.ofRoutines (front ++ (routine, code) :: back)).isGlobal slot = true →
      slot ∈ code.instrs.flatMap Instr.slots → slot ∈ code'.instrs.flatMap Instr.slots)
    (calls : code'.instrs.filterMap CallGraph.callee? = code.instrs.filterMap CallGraph.callee?) :
    Trims (front ++ (routine, code) :: back) (front ++ (routine, code') :: back) := by
  -- The other routines mention what they did.
  have spreads : ∀ {old new : FlatCode} {other : Routine} {slot : Slot},
      (slot ∈ old.instrs.flatMap Instr.slots → slot ∈ new.instrs.flatMap Instr.slots) →
      slot ∈ (SlotUsage.ofRoutines (front ++ (routine, old) :: back)).slotsOf other →
        slot ∈ (SlotUsage.ofRoutines (front ++ (routine, new) :: back)).slotsOf other := by
    intro old new other slot more
    simp only [SlotUsage.slotsOf_ofRoutines, ← List.mem_flatMap]
    by_cases same : other = routine
    · rw [same, lookup_self (by simpa using nodup), lookup_self (by simpa using nodup)]
      rintro ⟨_, ⟨⟩, mentioned⟩
      exact ⟨new, rfl, more mentioned⟩
    · rw [lookup_of_ne same old new]
      exact id
  refine ⟨by simp, fun other slot => spreads (less slot),
    fun other slot isGlobal => spreads (keeps slot isGlobal), ?_⟩
  simp [CallGraph.ofRoutines, calls]

/-- Duplicating values keeps all usage. -/
theorem of_duplicates (nodup : (flat.map Prod.fst).Nodup)
    (step : Rewrites (FlatCode.Duplicates version) flat flat') : Trims flat flat' := by
  cases step with
  | intro front back routine step =>
    cases step with
    | @intro before window behind instr found =>
      have plain := (Dedupe.of_replacement? found).1
      have noCall : window.filterMap CallGraph.callee? = [] := by
        rw [List.filterMap_eq_nil_iff]
        exact fun other member =>
          CallGraph.callee?_of_ne (Dedupe.straight_of_isPlain (plain other member)).2.2
      obtain ⟨_, _, kind⟩ := Dedupe.replacement?_cases found
      have quiet : instr.slots = [] ∧ CallGraph.callee? instr = none := by
        rcases kind with rfl | rfl <;> exact ⟨rfl, rfl⟩
      refine of_rewrite nodup (fun slot => ?_) (fun slot _ => ?_) ?_ <;>
        simp only [FlatCode.instrs_append, FlatCode.instrs_map, List.flatMap_append,
          List.mem_append, List.flatMap_cons, List.flatMap_nil, quiet.1, List.not_mem_nil,
          List.filterMap_append, List.filterMap_cons, List.filterMap_nil, quiet.2, noCall]
      · tauto
      · tauto

/-- Leaving out the store and the load of a slot that is not shared. -/
theorem of_skips (nodup : (flat.map Prod.fst).Nodup) (static : flat.IsStatic)
    (shared : ∀ slot, (SlotUsage.ofRoutines flat).isGlobal slot = true → slot ∈ pinned)
    (step : Rewrites (FlatCode.Skips pinned) flat flat') : Trims flat flat' := by
  cases step with
  | intro front back routine step =>
    cases step with
    | @intro before behind store load slot stored free loads others =>
      simp only [Elide.storedSlot?, Option.ite_none_right_eq_some] at stored
      rw [Instr.loadsFrom_iff] at loads
      have each := static _ (List.mem_append_right _ (List.mem_cons_self ..))
      simp only [FlatCode.instrs_append, FlatCode.instrs_map, List.forall_mem_append,
        List.forall_mem_cons] at each
      have stores := Instr.operands_of_isStatic each.2.1.1 (.inr stored.1) stored.2
      have loadsIt := Instr.operands_of_isStatic each.2.1.2.1 (.inl loads.1) loads.2
      have noStore : CallGraph.callee? store = none :=
        CallGraph.callee?_of_ne (by simp [stored.1])
      have noLoad : CallGraph.callee? load = none :=
        CallGraph.callee?_of_ne (by simp [loads.1])
      refine of_rewrite nodup (fun other => ?_) (fun other isGlobal => ?_) ?_
      · simp only [FlatCode.instrs_append, List.flatMap_append, List.mem_append]
        tauto
      · have different : other ≠ slot := by
          rintro rfl
          exact free (shared other isGlobal)
        have storeSlots : store.slots = [slot] := by rw [Instr.slots, stores]; rfl
        have loadSlots : load.slots = [slot] := by rw [Instr.slots, loadsIt]; rfl
        simp only [FlatCode.instrs_append, FlatCode.instrs_map, List.flatMap_append,
          List.mem_append, List.flatMap_cons, List.flatMap_nil, storeSlots, loadSlots,
          List.mem_singleton, different, List.not_mem_nil]
        tauto
      · simp only [FlatCode.instrs_append, FlatCode.instrs_map, List.filterMap_append,
          List.filterMap_cons, List.filterMap_nil, noStore, noLoad, List.nil_append]

end Trims

namespace RoutineTable.IsStatic

variable {flat flat' : RoutineTable FlatCode}

theorem of_rewrite {rewrite : FlatCode → FlatCode → Prop} (static : flat.IsStatic)
    (step : Rewrites rewrite flat flat')
    (keeps : ∀ code code', rewrite code code' → (∀ instr ∈ code.instrs, instr.isStatic = true) →
      ∀ instr ∈ code'.instrs, instr.isStatic = true) : flat'.IsStatic := by
  cases step with
  | intro front back routine step =>
    simp only [IsStatic, List.forall_mem_append, List.forall_mem_cons] at static ⊢
    exact ⟨static.1, keeps _ _ step static.2.1, static.2.2⟩

theorem of_duplicates {version : Version} (static : flat.IsStatic)
    (step : Rewrites (FlatCode.Duplicates version) flat flat') : flat'.IsStatic := by
  refine static.of_rewrite step ?_
  rintro _ _ ⟨front, window, back, found⟩ each
  obtain ⟨_, _, kind⟩ := Dedupe.replacement?_cases found
  simp only [FlatCode.instrs_append, FlatCode.instrs_map, List.forall_mem_append,
    List.forall_mem_singleton] at each ⊢
  refine ⟨each.1, ⟨each.2.1.1, ?_⟩, each.2.2⟩
  rcases kind with rfl | rfl <;> rfl

theorem of_skips {pinned : List Slot} (static : flat.IsStatic)
    (step : Rewrites (FlatCode.Skips pinned) flat flat') : flat'.IsStatic := by
  refine static.of_rewrite step ?_
  rintro _ _ ⟨front, back, _, _, _, _⟩ each
  simp only [FlatCode.instrs_append, List.forall_mem_append] at each ⊢
  exact ⟨each.1, each.2.2⟩

end RoutineTable.IsStatic

/-! ## Runs -/

namespace Ideal

open Machine (Limits Environment)

/-- The program with other code. -/
def Setting.withCode (setting : Setting) (flat : RoutineTable FlatCode) : Setting :=
  { setting with code := fun routine => flat.lookup routine }

variable {setting : Setting} {limits : Limits} {env : Environment}
  {flat flat' : RoutineTable FlatCode} {count : Nat} {result : Result}

/-- Duplicating values keeps how a run ends. -/
theorem ends_of_duplicates {version : Version} (nodup : (flat.map Prod.fst).Nodup)
    (step : Rewrites (FlatCode.Duplicates version) flat flat')
    (ends : Ends (setting.withCode flat) limits env (setting.initial env) count result) :
    ∃ fewer, fewer ≤ count ∧
      Ends (setting.withCode flat') limits env (setting.initial env) fewer result := by
  cases step with
  | intro front back routine step =>
    cases step with
    | @intro before window behind instr found =>
      have improves : Improves limits env
          ⟨routine, before, window ++ window, window ++ [instr], behind⟩ (fun _ => False)
          (setting.withCode _) (setting.withCode _) := {
        old := lookup_self nodup
        new := lookup_self (by simpa using nodup)
        others := fun other different => lookup_of_ne different _ _
        declared := rfl
        shorter := by
          obtain ⟨nonempty, _, _⟩ := Dedupe.replacement?_cases found
          have positive := List.length_pos_iff.mpr nonempty
          simp only [List.length_append, List.length_singleton]
          omega
        straight := by
          have plain := (Dedupe.of_replacement? found).1
          simp only [List.forall_mem_append, and_self]
          exact fun other member => Dedupe.straight_of_isPlain (plain other member)
        unread := fun _ _ _ _ _ _ => False.elim
        own := fun _ _ => rfl
        saved := fun _ _ _ _ => Iff.rfl
        fewer := fun _ _ => Nat.le_refl _
        same := by
          intro below lower memory memory' after less fits agree runs
          cases agree.eq
          obtain ⟨after', runs, agree⟩ := (runs.duplicate found fits).agree less
            (.refl _ _) (fun _ _ _ => False.elim)
          exact ⟨after', runs, agree⟩ }
      exact improves.ends_initial ends

/-- Leaving out the store and the load of a slot that is not shared keeps how a run ends. -/
theorem ends_of_skips {pinned : List Slot} (nodup : (flat.map Prod.fst).Nodup)
    (shared : ∀ slot, (SlotUsage.ofRoutines flat).isGlobal slot = true → slot ∈ pinned)
    (step : Rewrites (FlatCode.Skips pinned) flat flat')
    (ends : Ends (setting.withCode flat) limits env (setting.initial env) count result) :
    ∃ fewer, fewer ≤ count ∧
      Ends (setting.withCode flat') limits env (setting.initial env) fewer result := by
  cases step with
  | intro front back routine step =>
    cases step with
    | @intro before behind store load slot stored free loads others =>
      have nodup' : ((front ++ (routine, before ++ behind) :: back).map Prod.fst).Nodup := by
        simpa using nodup
      have unread : ∀ other code,
          (front ++ (routine, before ++ behind) :: back).lookup other = some code →
          ∀ instr, .instr instr ∈ code → instr.loadsFrom slot = false := by
        intro other code isCode instr inCode
        by_cases same : other = routine
        · rw [same, lookup_self nodup'] at isCode
          cases isCode
          exact others instr (FlatCode.mem_instrs.mpr inCode)
        · rw [Bool.eq_false_iff]
          intro loadsToo
          rw [lookup_of_ne same (before ++ ([store, load].map .instr ++ behind))] at isCode
          refine free (shared slot (SlotUsage.isGlobal_of_ne same
            ((SlotUsage.slotsOf_ofRoutines _ _).mpr ⟨code, isCode, instr,
              FlatCode.mem_instrs.mpr inCode, Instr.mem_slots_of_loadsFrom loadsToo⟩)
            ((SlotUsage.slotsOf_ofRoutines _ _).mpr ⟨_, lookup_self nodup, load,
              FlatCode.mem_instrs.mpr (by simp), Instr.mem_slots_of_loadsFrom loads⟩)))
      have improves : Improves limits env ⟨routine, before, [store, load], [], behind⟩
          (· = slot) (setting.withCode _) (setting.withCode _) := {
        old := lookup_self nodup
        new := lookup_self nodup'
        others := fun other different => lookup_of_ne different _ _
        declared := rfl
        shorter := Nat.zero_le _
        straight := by
          simp only [Elide.storedSlot?, Option.ite_none_right_eq_some] at stored
          rw [Instr.loadsFrom_iff] at loads
          simp [stored.1, loads.1, Opcode.isExit, Opcode.isBranch]
        unread := by
          rintro other code isCode instr inCode _ rfl
          exact unread other code isCode instr inCode
        own := fun _ _ => rfl
        saved := fun _ _ _ _ => Iff.rfl
        fewer := fun _ _ => Nat.le_refl _
        same := fun below lower memory memory' after less fits agree runs =>
          ⟨memory', .nil, runs.skip stored loads agree⟩ }
      exact improves.ends_initial ends

end Ideal

end ContractBackend
