import ContractBackend.Proofs.Ideal.Machine
import ContractBackend.Proofs.Run.Control

/-!
# Changes that keep the outcome

A straight piece of code takes the place of another one, or fewer slots are saved around calls. If
the pieces do the same, as far as slots are concerned that are loaded somewhere, then every run
that ends does so in the changed program too, in no more steps.
-/

namespace ContractBackend.Ideal

open Machine (Limits Environment Value Flow)

/-- A straight piece of code in a routine takes the place of another one. -/
structure Change where
  routine : Routine
  front : FlatCode
  old : List Instr
  new : List Instr
  back : FlatCode

namespace Change

/-- The code before the change. -/
def before (change : Change) : FlatCode :=
  change.front ++ (change.old.map .instr ++ change.back)

/-- The code behind the change. -/
def after (change : Change) : FlatCode :=
  change.front ++ (change.new.map .instr ++ change.back)

/-- Where positions come to be that are not within the piece. -/
inductive Moved (change : Change) : Nat → Nat → Prop where
  | front {position : Nat} : position < change.front.length → Moved change position position
  | back (offset : Nat) : Moved change (change.front.length + change.old.length + offset)
      (change.front.length + change.new.length + offset)

variable {change : Change} {position moved : Nat}

theorem Moved.getElem?_eq (at' : change.Moved position moved) :
    change.after[moved]? = change.before[position]? := by
  cases at' with
  | front inside =>
    rw [before, after, List.getElem?_append_left inside, List.getElem?_append_left inside]
  | back offset =>
    have behind : ∀ piece : List Instr,
        (change.front ++ (piece.map Item.instr ++ change.back))[change.front.length +
          piece.length + offset]? = change.back[offset]? := by
      intro piece
      rw [Nat.add_assoc, List.getElem?_append_right (Nat.le_add_right _ _),
        Nat.add_sub_cancel_left, List.getElem?_append_right (by simp), List.length_map,
        Nat.add_sub_cancel_left]
    rw [before, after, behind, behind]

/-- Behind a position that is not within the piece, the piece may start. -/
theorem Moved.succ (at' : change.Moved position moved) :
    change.Moved (position + 1) (moved + 1) ∨
      (position + 1 = change.front.length ∧ moved + 1 = change.front.length) := by
  cases at' with
  | front inside =>
    by_cases last : position + 1 < change.front.length
    · exact .inl (.front last)
    · exact .inr ⟨by omega, by omega⟩
  | back offset => exact .inl (.back (offset + 1))

/-- There are no labels in a straight piece of code. -/
theorem outside_of_label {front back : FlatCode} {piece : List Instr} {label : Label}
    (here : (front ++ (piece.map Item.instr ++ back))[position]? = some (.label label)) :
    position < front.length ∨ ∃ offset, position = front.length + piece.length + offset := by
  by_cases inFront : position < front.length
  · exact .inl inFront
  · by_cases inside : position < front.length + piece.length
    · rw [List.getElem?_append_right (by omega), List.getElem?_append_left
        (by rw [List.length_map]; omega), List.getElem?_map] at here
      simp at here
    · exact .inr (Nat.exists_eq_add_of_le (Nat.le_of_not_lt inside))

theorem Moved.le {position' moved' : Nat} (at' : change.Moved position moved)
    (other : change.Moved position' moved') (before : position' ≤ position) : moved' ≤ moved := by
  cases at' <;> cases other <;> omega

/-- Labels are found where they come to be. -/
theorem exists_labelPosition? {label : Label}
    (found : change.before.labelPosition? label = some position) :
    ∃ moved, change.after.labelPosition? label = some moved ∧ change.Moved position moved := by
  have here := FlatCode.getElem?_of_labelPosition? found
  obtain ⟨moved, isMoved⟩ : ∃ moved, change.Moved position moved := by
    rcases outside_of_label here with inFront | ⟨offset, rfl⟩
    · exact ⟨_, .front inFront⟩
    · exact ⟨_, .back offset⟩
  refine ⟨moved, FlatCode.labelPosition?_of_last (isMoved.getElem?_eq.trans here) ?_, isMoved⟩
  intro other there
  obtain ⟨earlier, isEarlier⟩ : ∃ position, change.Moved position other := by
    rcases outside_of_label there with inFront | ⟨offset, rfl⟩
    · exact ⟨_, .front inFront⟩
    · exact ⟨_, .back offset⟩
  exact isMoved.le isEarlier
    (FlatCode.le_of_labelPosition? found (isEarlier.getElem?_eq.symm.trans there))

/-- Where control can be in a routine before the change and behind it. -/
def At (change : Change) (routine : Routine) (position moved : Nat) : Prop :=
  if routine = change.routine then change.Moved position moved else moved = position

/-- Where control can be, or the piece starts. -/
def Nears (change : Change) (routine : Routine) (position moved : Nat) : Prop :=
  change.At routine position moved ∨ (routine = change.routine ∧
    position = change.front.length ∧ moved = change.front.length)

variable {routine : Routine}

theorem At.succ (at' : change.At routine position moved) :
    change.Nears routine (position + 1) (moved + 1) := by
  rw [At] at at'
  split at at'
  next same =>
    refine at'.succ.imp (fun moved => ?_) fun starts => ⟨same, starts⟩
    rwa [At, if_pos same]
  next other =>
    refine .inl ?_
    rw [At, if_neg other, at']

/-- A routine starts where it started. -/
theorem nears_zero (change : Change) (routine : Routine) : change.Nears routine 0 0 := by
  by_cases same : routine = change.routine
  · by_cases first : 0 < change.front.length
    · refine .inl ?_
      rw [At, if_pos same]
      exact .front first
    · exact .inr ⟨same, by omega, by omega⟩
  · refine .inl ?_
    rw [At, if_neg same]

end Change

/-- A program takes the place of another one: a straight piece of its code is changed, and the
slots that nothing loads may be treated in another way. -/
structure Improves (limits : Limits) (env : Environment) (change : Change) (dead : Slot → Prop)
    (setting other : Setting) : Prop where
  old : setting.code change.routine = some change.before
  new : other.code change.routine = some change.after
  others : ∀ routine, routine ≠ change.routine → other.code routine = setting.code routine
  declared : other.declared = setting.declared
  shorter : change.new.length ≤ change.old.length
  /-- Control goes through the piece from its start to its end. -/
  straight : ∀ instr ∈ change.old, instr.op.isExit = false ∧ instr.op.isBranch = false ∧
    instr.op ≠ .callsub
  unread : ∀ routine flat, other.code routine = some flat → ∀ instr, .instr instr ∈ flat →
    ∀ slot, dead slot → instr.loadsFrom slot = false
  own : ∀ slot, ¬ dead slot → other.isOwn slot = setting.isOwn slot
  saved : ∀ slot, ¬ dead slot → ∀ routine id,
    slot ∈ other.saved routine id ↔ slot ∈ setting.saved routine id
  fewer : ∀ routine id, (other.saved routine id).length ≤ (setting.saved routine id).length
  /-- The new piece does what the old one does. -/
  same : ∀ below lower memory memory' after, lower ≤ below → Fits limits below memory →
    Agree dead memory memory' → Runs limits env below change.old memory after →
    ∃ after', Runs limits env lower change.new memory' after' ∧ Agree dead after after'

variable {limits : Limits} {env : Environment} {change : Change} {dead : Slot → Prop}
  {setting other : Setting} {count : Nat} {result : Result} {flat : FlatCode}

/-- Activations that wait at the same place, before the change and behind it. -/
structure Matches (change : Change) (dead : Slot → Prop) (left right : Frame) : Prop where
  routine : right.routine = left.routine
  position : change.At left.routine left.position right.position
  callee : right.callee = left.callee
  stack : right.stack = left.stack
  slots : ∀ slot, ¬ dead slot → right.slots slot = left.slots slot

/-- States at the same place, before the change and behind it. Within the piece, the run behind
the change waits in front of it until the other one is through, and is some steps late. -/
inductive Tracks (limits : Limits) (env : Environment) (change : Change) (dead : Slot → Prop)
    (setting : Setting) : Nat → State → State → Prop where
  | outside {routine : Routine} {position moved : Nat} {memory memory' : Memory}
      {frames frames' : List Frame} : change.At routine position moved →
      Agree dead memory memory' → List.Forall₂ (Matches change dead) frames frames' →
      Fits limits (setting.below frames) memory →
      Tracks limits env change dead setting 0 ⟨routine, position, memory, frames⟩
        ⟨routine, moved, memory', frames'⟩
  | inside {done rest : List Instr} {first memory memory' : Memory} {frames frames' : List Frame} :
      change.old = done ++ rest → rest ≠ [] →
      Runs limits env (setting.below frames) done first memory → Agree dead first memory' →
      List.Forall₂ (Matches change dead) frames frames' →
      Fits limits (setting.below frames) first →
      Tracks limits env change dead setting done.length
        ⟨change.routine, change.front.length + done.length, memory, frames⟩
        ⟨change.routine, change.front.length, memory', frames'⟩

/-- Straight code is executed on the way to the end of a run. -/
theorem ends_of_runs {front back : FlatCode} {instrs : List Instr} {memory after : Memory}
    {frames : List Frame}
    (isCode : setting.code routine = some (front ++ (instrs.map Item.instr ++ back)))
    (runs : Runs limits env (setting.below frames) instrs memory after)
    (ends : Ends setting limits env ⟨routine, front.length + instrs.length, after, frames⟩ count
      result) :
    Ends setting limits env ⟨routine, front.length, memory, frames⟩ (instrs.length + count)
      result := by
  induction runs generalizing front with
  | nil => simpa using ends
  | @cons instr rest _ _ _ acts _ ih =>
    have here : (front ++ ((instr :: rest).map Item.instr ++ back))[front.length]? =
        some (.instr instr) := by simp
    have split : setting.code routine =
        some ((front ++ [.instr instr]) ++ (rest.map Item.instr ++ back)) := by
      simpa using isCode
    have behind := ih split (by simpa [Nat.add_comm, Nat.add_left_comm] using ends)
    rw [List.length_append, List.length_singleton] at behind
    rw [List.length_cons, Nat.add_comm rest.length, Nat.add_assoc]
    exact .step (.next isCode here acts) behind

theorem savingSteps_le {slots slots' : List Slot} (handle : Handle)
    (fewer : slots'.length ≤ slots.length) :
    savingSteps slots' handle ≤ savingSteps slots handle :=
  Nat.mul_le_mul_right _ fewer

theorem restoringSteps_le {slots slots' : List Slot} (handle : Handle)
    (fewer : slots'.length ≤ slots.length) :
    restoringSteps slots' handle ≤ restoringSteps slots handle := by
  refine Nat.add_le_add fewer ?_
  cases slots' with
  | nil => simp
  | cons =>
    cases slots with
    | nil => cases fewer
    | cons => exact Nat.le_refl _

namespace Improves

variable (improves : Improves limits env change dead setting other)
include improves

theorem below_le {frames frames' : List Frame}
    (related : List.Forall₂ (Matches change dead) frames frames') :
    other.below frames' ≤ setting.below frames := by
  induction related with
  | nil => exact Nat.le_refl _
  | cons first _ ih =>
    simp only [Setting.below, first.routine, first.callee, first.stack]
    exact Nat.add_le_add (Nat.add_le_add_left (improves.fewer _ _) _) ih

/-- The code at a place that is not within the piece stays there. -/
theorem getElem?_eq {position moved : Nat} (isCode : setting.code routine = some flat)
    (at' : change.At routine position moved) {item : Item} (here : flat[position]? = some item) :
    ∃ flat', other.code routine = some flat' ∧ flat'[moved]? = some item := by
  rw [Change.At] at at'
  split at at'
  next same =>
    subst same
    rw [improves.old] at isCode
    cases isCode
    exact ⟨_, improves.new, at'.getElem?_eq.trans here⟩
  next different =>
    rw [← improves.others _ different] at isCode
    exact ⟨flat, isCode, at' ▸ here⟩

theorem exists_code (isCode : setting.code routine = some flat) :
    ∃ flat', other.code routine = some flat' := by
  by_cases same : routine = change.routine
  · exact ⟨_, same ▸ improves.new⟩
  · exact ⟨flat, (improves.others routine same).trans isCode⟩

theorem exists_labelPosition? {target : Nat} {flat' : FlatCode} {label : Label}
    (isCode : setting.code routine = some flat) (isCode' : other.code routine = some flat')
    (isTarget : flat.labelPosition? label = some target) :
    ∃ moved, flat'.labelPosition? label = some moved ∧ change.At routine target moved := by
  by_cases same : routine = change.routine
  · subst same
    rw [improves.old] at isCode
    cases isCode
    rw [improves.new] at isCode'
    cases isCode'
    obtain ⟨moved, isMoved, at'⟩ := Change.exists_labelPosition? isTarget
    refine ⟨moved, isMoved, ?_⟩
    rwa [Change.At, if_pos rfl]
  · rw [improves.others _ same, isCode] at isCode'
    cases isCode'
    refine ⟨target, isTarget, ?_⟩
    rw [Change.At, if_neg same]

variable {routine : Routine} {position moved : Nat} {memory memory' : Memory}
  {frames frames' : List Frame}

/-- Where control comes to is not within the piece, or the piece starts there. -/
theorem tracks_of_nears (nears : change.Nears routine position moved)
    (agree : Agree dead memory memory')
    (related : List.Forall₂ (Matches change dead) frames frames')
    (fits : Fits limits (setting.below frames) memory) :
    Tracks limits env change dead setting 0 ⟨routine, position, memory, frames⟩
      ⟨routine, moved, memory', frames'⟩ := by
  rcases nears with at' | ⟨rfl, rfl, rfl⟩
  · exact .outside at' agree related fits
  · cases isOld : change.old with
    | nil =>
      have none : change.new = [] := by
        have shorter := improves.shorter
        rw [isOld, List.length_nil, Nat.le_zero] at shorter
        exact List.eq_nil_of_length_eq_zero shorter
      have stays : change.Moved change.front.length change.front.length := by
        have behind : change.Moved _ _ := .back 0
        rwa [isOld, none] at behind
      refine .outside ?_ agree related fits
      rwa [Change.At, if_pos rfl]
    | cons first rest =>
      have split : change.old = [] ++ first :: rest := isOld
      exact .inside split (List.cons_ne_nil _ _) .nil agree related fits

/-- A step that is not within the piece is done behind the change too. -/
theorem step_outside {cost : Nat} {next : State} (at' : change.At routine position moved)
    (agree : Agree dead memory memory')
    (related : List.Forall₂ (Matches change dead) frames frames')
    (fits : Fits limits (setting.below frames) memory)
    (steps : Step setting limits env ⟨routine, position, memory, frames⟩ cost next) :
    ∃ cost' next', cost' ≤ cost ∧
      Step other limits env ⟨routine, moved, memory', frames'⟩ cost' next' ∧
      Tracks limits env change dead setting 0 next next' := by
  have less := improves.below_le related
  cases steps with
  | label isCode here =>
    obtain ⟨flat', isCode', there⟩ := improves.getElem?_eq isCode at' here
    exact ⟨0, _, Nat.le_refl _, .label isCode' there,
      improves.tracks_of_nears at'.succ agree related fits⟩
  | next isCode here acts =>
    obtain ⟨flat', isCode', there⟩ := improves.getElem?_eq isCode at' here
    obtain ⟨after', acts', agree'⟩ := acts.agree less agree
      (improves.unread _ _ isCode' _ (List.mem_of_getElem? there))
    exact ⟨1, _, Nat.le_refl _, .next isCode' there acts',
      improves.tracks_of_nears at'.succ agree' related (acts.fits fits)⟩
  | jump isCode here acts isTarget =>
    obtain ⟨flat', isCode', there⟩ := improves.getElem?_eq isCode at' here
    obtain ⟨after', acts', agree'⟩ := acts.agree less agree
      (improves.unread _ _ isCode' _ (List.mem_of_getElem? there))
    obtain ⟨target, isTarget', leads⟩ := improves.exists_labelPosition? isCode isCode' isTarget
    exact ⟨1, _, Nat.le_refl _, .jump isCode' there acts' isTarget',
      .outside leads agree' related (acts.fits fits)⟩
  | @call _ _ _ _ flat callee instr id handle arguments rest isCode here calls isDeclared isCallee
      isStack count depth room =>
      obtain ⟨flat', isCode', there⟩ := improves.getElem?_eq isCode at' here
      obtain ⟨callee', isCallee'⟩ := improves.exists_code isCallee
      refine ⟨_, _, Nat.add_le_add_right (savingSteps_le handle (improves.fewer routine id)) 1,
        .call isCode' there calls (improves.declared ▸ isDeclared) isCallee'
          (agree.stack.trans isStack) count ?_ ?_, ?_⟩
      · rw [← related.length_eq]
        exact depth
      · rw [agree.stack]
        have fewer := improves.fewer routine id
        omega
      · refine improves.tracks_of_nears (change.nears_zero _)
          ⟨rfl, fun slot alive => ?_, agree.effects, agree.appState⟩
          (.cons ⟨rfl, at', rfl, rfl, agree.slots⟩ related) ?_
        · simp only [Setting.entered, improves.own slot alive, agree.slots slot alive]
        · rw [isStack, List.length_append] at room
          simp only [Fits, Setting.below]
          omega
  | @back _ _ _ frame frames flat instr handle isCode here isReturn isDeclared count =>
    obtain ⟨flat', isCode', there⟩ := improves.getElem?_eq isCode at' here
    cases related with
    | @cons _ frame' _ frames' first related =>
      refine ⟨_, _, ?_, .back isCode' there isReturn
        (first.callee ▸ improves.declared ▸ isDeclared) (agree.stack ▸ count), ?_⟩
      · rw [first.routine, first.callee]
        exact Nat.add_le_add_left (restoringSteps_le handle (improves.fewer _ _)) 1
      · rw [first.routine]
        refine improves.tracks_of_nears first.position.succ
          ⟨by rw [agree.stack, first.stack], fun slot alive => ?_, agree.effects,
            agree.appState⟩ related ?_
        · simp only [Setting.resumed, improves.own slot alive, first.routine, first.callee,
            improves.saved slot alive, first.slots slot alive, agree.slots slot alive]
        · simp only [Fits, Setting.below, List.length_append] at fits ⊢
          omega

/-- What stands in the piece. -/
theorem of_split {done rest : List Instr} {instr : Instr} {item : Item}
    (split : change.old = done ++ instr :: rest) (isCode : setting.code change.routine = some flat)
    (here : flat[change.front.length + done.length]? = some item) :
    item = .instr instr ∧ instr.op.isExit = false ∧ instr.op.isBranch = false ∧
      instr.op ≠ .callsub := by
  cases improves.old.symm.trans isCode
  refine ⟨?_, improves.straight instr (by simp [split])⟩
  rw [Change.before, List.getElem?_append_right (Nat.le_add_right _ _), Nat.add_sub_cancel_left,
    split] at here
  simpa [eq_comm] using here

/-- Control goes through the piece instruction by instruction. -/
theorem step_inside {done rest : List Instr} {instr : Instr} {cost : Nat} {next : State}
    (split : change.old = done ++ instr :: rest)
    (steps : Step setting limits env
      ⟨change.routine, change.front.length + done.length, memory, frames⟩ cost next) :
    ∃ after, cost = 1 ∧
      next = ⟨change.routine, change.front.length + (done ++ [instr]).length, after, frames⟩ ∧
      Acts limits env (setting.below frames) instr memory .next after := by
  cases steps with
  | label isCode here => cases (improves.of_split split isCode here).1
  | @next _ _ _ after _ _ _ isCode here acts =>
    cases (improves.of_split split isCode here).1
    exact ⟨after, rfl, by simp [Nat.add_assoc], acts⟩
  | jump isCode here acts =>
    obtain ⟨⟨⟩, _, noBranch, _⟩ := improves.of_split split isCode here
    rw [acts.flows.isBranch] at noBranch
    cases noBranch
  | call isCode here calls =>
    obtain ⟨⟨⟩, _, _, noCall⟩ := improves.of_split split isCode here
    exact absurd (CallGraph.callee?_eq_some.mp calls).1 noCall
  | back isCode here isReturn =>
    obtain ⟨⟨⟩, noExit, _⟩ := improves.of_split split isCode here
    rw [isReturn] at noExit
    cases noExit

/-- A run that ends does so behind the change too, with the same result and in no more
steps. -/
theorem ends {left right : State} {lag : Nat} (ends : Ends setting limits env left count result)
    (tracks : Tracks limits env change dead setting lag left right) :
    ∃ fewer, fewer ≤ count + lag ∧ Ends other limits env right fewer result := by
  induction ends generalizing lag right with
  | halt isCode here acts =>
    cases tracks with
    | outside at' agree related fits =>
      obtain ⟨flat', isCode', there⟩ := improves.getElem?_eq isCode at' here
      obtain ⟨after', acts', agree'⟩ := acts.agree (improves.below_le related) agree
        (improves.unread _ _ isCode' _ (List.mem_of_getElem? there))
      refine ⟨1, Nat.le_refl _, ?_⟩
      rw [← agree'.effects, ← agree'.appState]
      exact .halt isCode' there acts'
    | @inside done rest _ _ _ _ _ split more =>
      obtain ⟨instr, rest, rfl⟩ := List.exists_cons_of_ne_nil more
      obtain ⟨⟨⟩, noExit, noBranch, noCall⟩ := improves.of_split split isCode here
      have flows := acts.flows.eq_next noExit noBranch noCall
      cases flows
  | @step left next cost count result steps _ ih =>
    cases tracks with
    | outside at' agree related fits =>
      obtain ⟨cost', next', less, steps', tracks⟩ :=
        improves.step_outside at' agree related fits steps
      obtain ⟨fewer, lessCount, ends⟩ := ih tracks
      exact ⟨cost' + fewer, by omega, .step steps' ends⟩
    | @inside done rest first _ _ _ _ split more runs agree related fits =>
      obtain ⟨instr, rest, rfl⟩ := List.exists_cons_of_ne_nil more
      obtain ⟨after, rfl, rfl, acts⟩ := improves.step_inside split steps
      have runs := runs.append (.cons acts .nil)
      rw [← List.singleton_append, ← List.append_assoc] at split
      cases rest with
      | cons instr rest =>
        obtain ⟨fewer, less, ends⟩ :=
          ih (.inside split (List.cons_ne_nil _ _) runs agree related fits)
        refine ⟨fewer, Nat.le_trans less ?_, ends⟩
        simp only [List.length_append, List.length_singleton]
        omega
      | nil =>
        -- The old piece has been executed, so that the new one can be.
        rw [List.append_nil] at split
        rw [← split] at runs ih
        obtain ⟨after', runs', agree'⟩ := improves.same _ _ _ _ _
          (improves.below_le related) fits agree runs
        have behind : change.Nears change.routine
            (change.front.length + change.old.length)
            (change.front.length + change.new.length) := by
          refine .inl ?_
          rw [Change.At, if_pos rfl]
          exact .back 0
        obtain ⟨fewer, less, ends⟩ :=
          ih (improves.tracks_of_nears behind agree' related (runs.fits fits))
        refine ⟨change.new.length + fewer, ?_, ends_of_runs improves.new runs' ends⟩
        have shorter := improves.shorter
        rw [split, List.length_append, List.length_singleton] at shorter
        omega

/-- A program that ends does so behind the change too. -/
theorem ends_initial (ends : Ends setting limits env (setting.initial env) count result) :
    ∃ fewer, fewer ≤ count ∧ Ends other limits env (other.initial env) fewer result := by
  have agree : Agree dead (setting.initial env).memory (other.initial env).memory :=
    ⟨rfl, fun slot alive => by simp only [Setting.initial, improves.own slot alive], rfl, rfl⟩
  have fits : Fits limits (setting.below []) (setting.initial env).memory := by
    simp [Fits, Setting.below, Setting.initial]
  exact improves.ends ends (improves.tracks_of_nears (change.nears_zero .main) agree .nil fits)

end Improves

end ContractBackend.Ideal
