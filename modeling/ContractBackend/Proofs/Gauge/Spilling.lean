import ContractBackend.Proofs.Gauge.Routines

/-!
# Saving slots keeps code safe

The values of the slots lie below the arguments of a call and below its result, so that the
sequence around a call does to the height of the stack what the call does.
-/

namespace ContractBackend

namespace Spill

variable {dialect : Dialect} {declared : SubroutineId → Option Handle} {results : Nat}
  {level next : Level} {version : Version}

theorem toNat_ofNat_le (count : Nat) : (UInt64.ofNat count).toNat ≤ count := by
  rw [UInt64.toNat_ofNat']
  exact Nat.mod_le _ _

/-- An instruction that leaves the height as it is. -/
theorem carries_level {instr : Instr} {effect : StackEffect}
    (admitted : dialect.admits instr = true) (goes : instr.op.isExit = false)
    (known : instr.effectIn? declared = some effect) (even : effect.pops = effect.pushes)
    (enough : ∀ height, level = some height → effect.pops ≤ height) :
    (Gauge.heights dialect declared results).Carries [instr] level level := by
  refine .cons goes ?_ (.nil level)
  cases level with
  | none => simp [Gauge.heights, admitted]
  | some height =>
    rw [move_heights admitted known (enough height rfl), ← even,
      Nat.sub_add_cancel (enough height rfl)]

/-- Moving a value down leaves the height as it is. -/
theorem carries_sink {depth : Nat} {fault : ProgramFault} {instrs : List Instr}
    (admitted : dialect.Saves) (made : sink depth version fault = .ok instrs)
    (enough : ∀ height, level = some height → depth + 1 ≤ height) :
    (Gauge.heights dialect declared results).Carries instrs level level := by
  obtain ⟨_, rfl⟩ | ⟨_, _, rfl⟩ | ⟨rfl, _, rfl⟩ := sink_eq_ok.mp made
  · exact .nil level
  · refine carries_level (admitted.cover _) rfl rfl rfl fun height known => ?_
    exact Nat.le_trans (Nat.succ_le_succ (toNat_ofNat_le depth)) (enough height known)
  · exact carries_level admitted.swap rfl rfl rfl enough

/-- Saving slots raises the stack by their number. -/
theorem carries_saves {slots : List Slot} {argCount : Nat} {low : List Instr}
    (admitted : dialect.Saves)
    (made : slots ≠ [] → sink argCount version .spillBelowArguments = .ok low)
    (enough : ∀ height, level = some height → argCount ≤ height) :
    (Gauge.heights dialect declared results).Carries (saves slots low) level
      (level.map (· + slots.length)) := by
  induction slots generalizing level with
  | nil =>
    have same : level.map (· + 0) = level := by cases level <;> rfl
    rw [List.length_nil, same]
    exact .nil level
  | cons slot slots ih =>
    have sunk := made (List.cons_ne_nil _ _)
    have higher : ∀ height, level.map (· + 1) = some height → argCount + 1 ≤ height := by
      intro height known
      obtain ⟨low, rfl, rfl⟩ := Option.map_eq_some_iff.mp known
      exact Nat.succ_le_succ (enough low rfl)
    have count : level.map (· + (slots.length + 1)) =
        (level.map (· + 1)).map (· + slots.length) := by
      cases level with
      | none => rfl
      | some height => simp [Nat.add_comm, Nat.add_left_comm]
    have loads : (Gauge.heights dialect declared results).move (.load slot) level =
        some (level.map (· + 1)) := by
      cases level with
      | none => simp [Gauge.heights, admitted.load]
      | some height => exact move_heights (admitted.load slot) rfl (Nat.zero_le _)
    rw [List.length_cons, count, saves, List.flatMap_cons, List.cons_append]
    exact .cons rfl loads ((carries_sink admitted sunk higher).append
      (ih (fun _ => sunk) fun height known => Nat.le_of_succ_le (higher height known)))

/-- A call does the same to a higher stack. -/
theorem move_raised {instr : Instr} (count : Nat)
    (moves : (Gauge.heights dialect declared results).move instr level = some next) :
    (Gauge.heights dialect declared results).move instr (level.map (· + count)) =
      some (next.map (· + count)) := by
  have admitted := admits_of_move moves
  cases level with
  | none =>
    simp only [Gauge.heights, admitted, if_true] at moves
    cases moves
    simp [Gauge.heights, admitted]
  | some height =>
    obtain ⟨effect, known, enough, rfl⟩ := exists_effect_of_move moves
    rw [Option.map_some, move_heights admitted known (Nat.le_add_right_of_le enough),
      Option.map_some, Nat.sub_add_comm enough, Nat.add_right_comm]

/-- Saving slots around a call does to the height what the call does. -/
theorem carries_sequence {call : Instr} {callee : SubroutineId} {handle : Handle}
    {slots : List Slot} {instrs : List Instr} (admitted : dialect.Saves)
    (calls : CallGraph.callee? call = some callee) (isDeclared : declared callee = some handle)
    (made : sequence call slots handle.argCount handle.returns.isValue version = .ok instrs)
    (moves : (Gauge.heights dialect declared results).move call level = some next) :
    (Gauge.heights dialect declared results).Carries instrs level next := by
  have goes : call.op.isExit = false := by
    rw [(CallGraph.callee?_eq_some.mp calls).1]
    rfl
  have effect : call.effectIn? declared =
      some ⟨handle.argCount, if handle.returns.isValue then 1 else 0⟩ := by
    simp [Instr.effectIn?, calls, isDeclared]
  obtain ⟨enough, behind⟩ := of_move_heights effect moves
  obtain ⟨low, lower, ⟨isLow, isLower⟩, rfl⟩ := sequence_eq_ok.mp made
  have saving : (Gauge.heights dialect declared results).Carries (saves slots low) level
      (level.map (· + slots.length)) := carries_saves admitted isLow enough
  have calling := move_raised slots.length moves
  have storing : (Gauge.heights dialect declared results).Carries (slots.reverse.map .store)
      (next.map (· + slots.reverse.length)) next :=
    carries_stores admitted.store slots.reverse next
  rw [List.length_reverse] at storing
  have lowering : (Gauge.heights dialect declared results).Carries lower
      (next.map (· + slots.length)) (next.map (· + slots.length)) := by
    cases isValue : handle.returns.isValue with
    | false =>
      simp only [isValue, Bool.false_eq_true, if_false] at isLower
      cases isLower
      exact .nil _
    | true =>
      simp only [isValue, if_true] at isLower behind
      refine carries_sink admitted isLower fun height known => ?_
      rw [behind, Option.map_map, Option.map_eq_some_iff] at known
      obtain ⟨low, _, rfl⟩ := known
      simp only [Function.comp_apply]
      omega
  exact saving.append (.cons goes calling (lowering.append storing))

end Spill

/-! ## The code of a routine -/

/-- What an element of flat code becomes does the same to the level as the element. -/
inductive Gauge.Expands {α : Type} (gauge : Gauge α) (part : Item → FlatCode) (item : Item) :
    Prop where
  | kept : part item = [item] → Expands gauge part item
  | replaced {instr : Instr} {instrs : List Instr} : item = .instr instr →
      instr.op.isExit = false → instr.op.isBranch = false → part item = instrs.map .instr →
      instrs ≠ [] → (∀ level next, gauge.move instr level = some next →
        gauge.Carries instrs level next) → Expands gauge part item

namespace FlatCode

variable {α : Type} {gauge : Gauge α} {part : Item → FlatCode} {code : FlatCode} {level next : α}
  {position : Nat}

/-- Control is where what a safe element becomes starts, or among the instructions that it
becomes. -/
inductive Corresponds (gauge : Gauge α) (part : Item → FlatCode) (code : FlatCode) :
    Nat → α → Prop where
  | start {position : Nat} {level : α} : code.Safe gauge position level →
      Corresponds gauge part code (Concat.start part code position) level
  | within {position : Nat} {level next : α} {item : Item} {before rest : List Instr} :
      code[position]? = some item → part item = (before ++ rest).map .instr →
      gauge.Carries rest level next → code.Safe gauge (position + 1) next →
      Corresponds gauge part code (Concat.start part code position + before.length) level

theorem passes_within {item : Item} {instr : Instr} {before rest : List Instr}
    (here : code[position]? = some item)
    (expands : part item = (before ++ instr :: rest).map .instr)
    (carries : gauge.Carries (instr :: rest) level next)
    (safe : code.Safe gauge (position + 1) next) :
    FlatCode.Passes gauge (code.flatMap part) (Corresponds gauge part code)
      (Concat.start part code position + before.length) level := by
  obtain ⟨goes, after, moves, carries⟩ := carries.of_cons
  have inside : before.length < (part item).length := by simp [expands]
  have found := Concat.getElem?_start_add _ here inside
  rw [expands, List.getElem?_map, List.getElem?_append_right (Nat.le_refl _), Nat.sub_self] at found
  have further : part item = ((before ++ [instr]) ++ rest).map .instr := by simp [expands]
  have later := Corresponds.within here further carries safe
  rw [List.length_append] at later
  exact .move found goes moves later

theorem passes_kept {item : Item} (here : code[position]? = some item) (kept : part item = [item])
    (labels : ∀ label, part (.label label) = [.label label])
    (others : ∀ instr label, .label label ∉ part (.instr instr))
    (safe : code.Safe gauge position level) :
    FlatCode.Passes gauge (code.flatMap part) (Corresponds gauge part code)
      (Concat.start part code position) level := by
  have found : (code.flatMap part)[Concat.start part code position]? = some item := by
    have first := Concat.getElem?_start_add part here (kept ▸ Nat.one_pos : 0 < (part item).length)
    simpa [kept] using first
  have behind : Concat.start part code position + 1 = Concat.start part code (position + 1) := by
    rw [Concat.start_succ part here, kept, List.length_singleton]
  cases item with
  | label => exact .label found (behind ▸ .start (safe.label here))
  | instr =>
    cases safe.passes.instr here with
    | leave exits leaves => exact .leave found exits leaves
    | move goes moves safe => exact .move found goes moves (behind ▸ .start safe)
    | jump target safe =>
      exact .jump found (labelPosition?_flatMap labels others target) (.start safe)
    | branch conditional target tests taken passed =>
      exact .branch found conditional (labelPosition?_flatMap labels others target) tests
        (.start taken) (behind ▸ .start passed)

/-- Instructions that replace one may be executed where it may. -/
theorem passes_replaced {instr : Instr} {instrs : List Instr}
    (here : code[position]? = some (.instr instr)) (goes : instr.op.isExit = false)
    (straight : instr.op.isBranch = false) (expands : part (.instr instr) = instrs.map .instr)
    (present : instrs ≠ [])
    (carries : ∀ level next, gauge.move instr level = some next → gauge.Carries instrs level next)
    (safe : code.Safe gauge position level) :
    FlatCode.Passes gauge (code.flatMap part) (Corresponds gauge part code)
      (Concat.start part code position) level := by
  obtain ⟨first, rest, rfl⟩ := List.exists_cons_of_ne_nil present
  obtain ⟨_, moves, safe⟩ := (safe.passes.instr here).moves goes straight
  have same : part (.instr instr) = ([] ++ first :: rest).map .instr := expands
  exact passes_within here same (carries _ _ moves) safe

/-- Code stays safe if its instructions become instructions that do the same to the level. -/
theorem Safe.flatMap (labels : ∀ label, part (.label label) = [.label label])
    (others : ∀ instr label, .label label ∉ part (.instr instr))
    (expands : ∀ item ∈ code, gauge.Expands part item) (safe : code.Safe gauge 0 level) :
    FlatCode.Safe gauge (code.flatMap part) 0 level := by
  have atStart : ∀ position level, code.Safe gauge position level →
      FlatCode.Passes gauge (code.flatMap part) (Corresponds gauge part code)
        (Concat.start part code position) level := by
    intro position level safe
    obtain ⟨item, here⟩ := safe.exists_item
    cases expands item (List.mem_of_getElem? here) with
    | kept kept => exact passes_kept here kept labels others safe
    | replaced isInstr goes straight expands present carries =>
      subst isInstr
      exact passes_replaced here goes straight expands present carries safe
  refine ⟨Corresponds gauge part code, ?_, fun index level corresponds => ?_⟩
  · have first : Corresponds gauge part code (Concat.start part code 0) level := .start safe
    rwa [Concat.start_zero] at first
  · cases corresponds with
    | start safe => exact atStart _ _ safe
    | @within position _ next item before rest here expands carries safe =>
      cases rest with
      | cons instr rest => exact passes_within here expands carries safe
      | nil =>
        -- The sequence is over, so control is where the next element starts.
        obtain rfl : level = next := carries.1
        have behind := Concat.start_succ part here
        rw [expands, List.append_nil, List.length_map] at behind
        exact behind ▸ atStart _ _ safe

end FlatCode

namespace Spill

variable {dialect : Dialect} {results : Nat} {level : Level} {program : Program}
  {graph : CallGraph} {version : Version} {routine : Routine} {slots : List Slot} {flat : FlatCode}

/-- Saving slots keeps code safe. -/
theorem safe_flatMap (admitted : dialect.Saves)
    (becomes : ∀ item ∈ flat, Becomes program graph version routine slots item)
    (safe : flat.Safe (.heights dialect program.declared results) 0 level) :
    FlatCode.Safe (.heights dialect program.declared results)
      (flat.flatMap (expand program graph version routine slots)) 0 level := by
  refine safe.flatMap expand_label not_label_mem_expand fun item member => ?_
  cases becomes item member with
  | kept kept => exact .kept kept
  | saved saves =>
    have isCall := (CallGraph.callee?_eq_some.mp saves.calls).1
    refine .replaced saves.isCall (by rw [isCall]; rfl) (by rw [isCall]; rfl) saves.expands ?_
      fun level next moves => carries_sequence admitted saves.calls saves.isDeclared saves.made moves
    obtain ⟨_, _, _, equal⟩ := sequence_eq_ok.mp saves.made
    simp [equal]

end Spill

end ContractBackend
