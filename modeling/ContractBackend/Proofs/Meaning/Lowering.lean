import ContractBackend.Proofs.Flattening
import ContractBackend.Proofs.Meaning.Results
import Mathlib.Data.List.Induction

/-!
# Lowering preserves meaning

Walking through the code of an expression does what evaluating the expression does: it
gets to the end of the last block with the value on top of the stack, or it ends the
routine or fails as the evaluation does. An evaluation that needs more rounds than
granted is matched by a walk that takes as many steps.
-/

namespace ContractBackend

open Machine (Value Memory)
open Progress (Runs Ends Lasts)

namespace Graph

/-- A walk gets from one place to another. -/
def Arrives (graph : Graph) (act : Action) (start last : Place) : Prop :=
  ∃ events, Runs (graph.walk act) start events last

/-- A walk comes to an end. -/
def Finishes (graph : Graph) (act : Action) (start : Place) (ending : Ending) : Prop :=
  ∃ events, Ends (graph.walk act) start events ending

/-- A walk does what an evaluation comes to. The stack is what lies below all values of the
evaluation; where the program ends or fails, some values may be left on it. -/
def Tracks {α : Type} (graph : Graph) (act : Action) (loop : JumpTargets) (stack : List Value)
    (count : Nat) (start : Place) (arrive : α → Store → Place) :
    Option (Except Stop α × Store) → Prop
  | none => Lasts (graph.walk act) count start
  | some (.ok value, store) => graph.Arrives act start (arrive value store)
  | some (.error .broke, store) =>
      ∃ target, loop .leave = some target ∧
        graph.Arrives act start (graph.enter target (store.memory stack))
  | some (.error .continued, store) =>
      ∃ target, loop .again = some target ∧
        graph.Arrives act start (graph.enter target (store.memory stack))
  | some (.error (.returned value), store) =>
      graph.Finishes act start (.left .back (store.memory (value.toList ++ stack)))
  | some (.error (.halted approved), store) =>
      ∃ left, graph.Finishes act start (.left (.halt approved) (store.memory (left ++ stack)))
  | some (.error (.failed fault), store) =>
      ∃ left, graph.Finishes act start (.failed fault (store.memory (left ++ stack)))
  | some (.error .undecided, store) =>
      ∃ left, graph.Finishes act start (.undecided (store.memory (left ++ stack)))

variable {graph : Graph} {act : Action} {start middle last : Place} {events : List Event}

theorem Arrives.refl (place : Place) : graph.Arrives act place place := ⟨[], .refl place⟩

theorem Arrives.trans (first : graph.Arrives act start middle)
    (second : graph.Arrives act middle last) : graph.Arrives act start last := by
  obtain ⟨events, run⟩ := first
  obtain ⟨more, rest⟩ := second
  exact ⟨events ++ more, run.trans rest⟩

theorem Arrives.single (moved : graph.walk act start = .moved events middle) :
    graph.Arrives act start middle :=
  ⟨events, .single moved⟩

/-- Where control gets to behind code: to the successor of the last block, or to the end of it. -/
def placeBehind (graph : Graph) (exit : BlockId) : Option BlockId → Memory → Place
  | some next, memory => graph.enter next memory
  | none, memory => ⟨exit, [], memory⟩

theorem Arrives.behind {id : BlockId} {next : Option BlockId} {memory : Memory}
    (shape : (graph.block id).shape = .simple next) :
    graph.Arrives act ⟨id, [], memory⟩ (graph.placeBehind id next memory) := by
  cases next with
  | none => exact .refl _
  | some next => exact .single (walk_simple shape)

theorem Arrives.ofEmpty {id : BlockId} {next : Option BlockId} {memory : Memory}
    (block : graph.block id = { shape := .simple next }) :
    graph.Arrives act (graph.enter id memory) (graph.placeBehind id next memory) := by
  rw [enter, block]
  exact .behind (congrArg Block.shape block)

theorem Arrives.finishes {ending : Ending} (first : graph.Arrives act start middle)
    (rest : graph.Finishes act middle ending) : graph.Finishes act start ending := by
  obtain ⟨events, run⟩ := first
  obtain ⟨more, finish⟩ := rest
  exact ⟨events ++ more, run.ends finish⟩

theorem Finishes.single {ending : Ending} (ended : graph.walk act start = .ended events ending) :
    graph.Finishes act start ending :=
  ⟨events, .single ended⟩

namespace Tracks

variable {α β : Type} {loop : JumpTargets} {stack : List Value} {count : Nat}
  {arrive : α → Store → Place} {outcome : Option (Except Stop α × Store)}

theorem after (tracks : graph.Tracks act loop stack count middle arrive outcome)
    (arrives : graph.Arrives act start middle) :
    graph.Tracks act loop stack count start arrive outcome := by
  rcases outcome with _ | ⟨stop | value, store⟩
  · obtain ⟨events, run⟩ := arrives
    exact run.lasts tracks
  · cases stop with
    | broke | continued =>
      obtain ⟨target, aims, rest⟩ := tracks
      exact ⟨target, aims, arrives.trans rest⟩
    | returned => exact arrives.finishes tracks
    | halted | failed | undecided =>
      obtain ⟨left, finish⟩ := tracks
      exact ⟨left, arrives.finishes finish⟩
  · exact arrives.trans tracks

theorem mono {bound : Nat} (tracks : graph.Tracks act loop stack bound start arrive outcome)
    (fewer : count ≤ bound) : graph.Tracks act loop stack count start arrive outcome := by
  rcases outcome with _ | ⟨stop | value, store⟩
  · exact Lasts.mono tracks fewer
  · cases stop <;> exact tracks
  · exact tracks

/-- A step before a walk counts. -/
theorem step (tracks : graph.Tracks act loop stack count middle arrive outcome)
    (moved : graph.walk act start = .moved events middle) :
    graph.Tracks act loop stack (count + 1) start arrive outcome := by
  rcases outcome with _ | ⟨stop | value, store⟩
  · exact .succ moved tracks
  · have arrived := tracks.after (.single moved)
    cases stop <;> exact arrived
  · exact Arrives.trans (.single moved) tracks

/-- An evaluation and then another one that depends on its result. -/
theorem bind {first : Eval α} {rest : α → Eval β} {store : Store} {onward : β → Store → Place}
    (tracks : graph.Tracks act loop stack count start arrive (first store))
    (continues : ∀ value after, first store = some (.ok value, after) →
      graph.Tracks act loop stack count (arrive value after) onward (rest value after)) :
    graph.Tracks act loop stack count start onward ((first >>= rest) store) := by
  rw [Eval.bind_apply]
  rcases result : first store with _ | ⟨stop | value, after⟩
  · rw [result] at tracks
    exact tracks
  · rw [result] at tracks
    cases stop <;> exact tracks
  · rw [result] at tracks
    exact (continues value after result).after tracks

/-- A walk that goes on behind the evaluation. -/
theorem onward {further : α → Store → Place}
    (tracks : graph.Tracks act loop stack count start arrive outcome)
    (goesOn : ∀ value store, outcome = some (.ok value, store) →
      graph.Arrives act (arrive value store) (further value store)) :
    graph.Tracks act loop stack count start further outcome := by
  rcases outcome with _ | ⟨stop | value, store⟩
  · exact tracks
  · cases stop <;> exact tracks
  · exact Arrives.trans tracks (goesOn value store rfl)

/-- An evaluation with some values already on the stack. -/
theorem deeper (extra : List Value)
    (tracks : graph.Tracks act loop (extra ++ stack) count start arrive outcome)
    (quiet : Eval.Quiet outcome) : graph.Tracks act loop stack count start arrive outcome := by
  rcases outcome with _ | ⟨stop | value, store⟩
  · exact tracks
  · cases stop with
    | broke | continued | returned => exact quiet.elim
    | halted | failed | undecided =>
      obtain ⟨left, finish⟩ := tracks
      exact ⟨left ++ extra, by rwa [List.append_assoc]⟩
  · exact tracks

end Tracks

/-! ## Single instructions -/

section Instructions

variable {setting : Setting} {program : Program} {instr : Instr} {rest : List Instr}
  {id : BlockId} {memory after : Memory} {loop : JumpTargets} {stack : List Value} {count : Nat}

theorem isExit_of_next (next : setting.action program instr memory = .ok (.next, after)) :
    instr.op.isExit = false := by
  by_contra exits
  have noCall : instr.op ≠ .callsub := by
    intro calls
    simp [calls, Opcode.isExit] at exits
  rw [Setting.action_of_ne noCall] at next
  cases op : instr.op <;> simp [op, Opcode.isExit] at exits <;> rw [op] at next
  case err | retsub => cases next
  case ret =>
    obtain ⟨⟨number, middle⟩, _, halts⟩ := Fallible.bind_eq_ok.mp next
    cases halts

theorem Arrives.ofNext (next : setting.action program instr memory = .ok (.next, after)) :
    graph.Arrives (setting.action program) ⟨id, instr :: rest, memory⟩ ⟨id, rest, after⟩ := by
  have moved : graph.walk (setting.action program) ⟨id, instr :: rest, memory⟩ =
      .moved [⟨instr, memory⟩] ⟨id, rest, after⟩ :=
    Action.perform_eq_moved.mpr ⟨after, next, isExit_of_next next, rfl, rfl⟩
  exact .single moved

theorem Finishes.ofLeft {flow : Machine.Flow}
    (left : setting.action program instr memory = .ok (flow, after)) (leaves : flow ≠ .next) :
    graph.Finishes (setting.action program) ⟨id, instr :: rest, memory⟩ (.left flow after) := by
  have ended : graph.walk (setting.action program) ⟨id, instr :: rest, memory⟩ =
      .ended [⟨instr, memory⟩] (.left flow after) := by
    simp [walk, Action.perform, left, leaves]
  exact .single ended

theorem Finishes.ofFailure {fault : Machine.Fault}
    (failed : setting.action program instr memory = .error fault) :
    graph.Finishes (setting.action program) ⟨id, instr :: rest, memory⟩
      (.failed fault memory) := by
  have ended : graph.walk (setting.action program) ⟨id, instr :: rest, memory⟩ =
      .ended [⟨instr, memory⟩] (.failed fault memory) := by
    simp [walk, Action.perform, failed]
  exact .single ended

/-- An instruction that does what an evaluation does, at the end of its block. -/
theorem Tracks.ofAnswers {outcome : Option (Except Stop (Option Value) × Store)} {store : Store}
    (operands : List Value)
    (answers : Answers outcome store stack
      (setting.action program instr (store.memory (operands ++ stack)))) :
    graph.Tracks (setting.action program) loop stack count
      ⟨id, [instr], store.memory (operands ++ stack)⟩
      (fun value after => ⟨id, [], after.memory (value.toList ++ stack)⟩) outcome := by
  rcases outcome with _ | ⟨stop | value, after⟩
  · exact answers.elim
  · cases stop with
    | broke | continued | undecided => exact answers.elim
    | returned value => exact .ofLeft answers (by simp)
    | halted approved => exact ⟨[], .ofLeft answers (by simp)⟩
    | failed fault =>
      obtain ⟨failed, rfl⟩ := answers
      exact ⟨operands, .ofFailure failed⟩
  · exact Arrives.ofNext answers

end Instructions

/-! ## Parts of expressions -/

end Graph

namespace Fragment

/-- A graph has some code, and the places are known that its jumps go to. -/
structure Stands (code : Fragment) (graph : Graph) (first : Nat) (next : Option Nat)
    (loop : JumpTargets) : Prop where
  holds : graph.Holds first (code.blocks first next loop)
  aims : ∀ jump, code.jumps jump first ≠ [] → ∃ target, loop jump = some target

/-- Wherever a graph has some code, walking through it does what an evaluation does, and leaves
the results of the evaluation on the stack. -/
def Follows {α : Type} (code : Fragment) (act : Action) (rounds : Nat) (push : α → List Value)
    (evaluation : Eval α) : Prop :=
  ∀ ⦃graph : Graph⦄ ⦃first : Nat⦄ ⦃next : Option Nat⦄ ⦃loop : JumpTargets⦄,
    code.Stands graph first next loop → ∀ stack store,
    graph.Tracks act loop stack rounds (graph.enter (code.entry first) (store.memory stack))
      (fun value after => graph.placeBehind (code.exit first) next (after.memory (push value ++ stack)))
      (evaluation store)

variable {code code' : Fragment} {graph : Graph} {first : Nat} {next : Option Nat}
  {loop : JumpTargets}

theorem Stands.attach (stands : (code.attach code').Stands graph first next loop) :
    code.Stands graph first (some (code'.entry (first + code.size))) loop ∧
      code'.Stands graph (first + code.size) next loop := by
  obtain ⟨front, back⟩ := (eachFrom_attach _ _).mp stands.holds
  exact ⟨⟨front, fun jump some => stands.aims jump (List.append_ne_nil_of_left_ne_nil some _)⟩,
    ⟨back, fun jump some => stands.aims jump (List.append_ne_nil_of_right_ne_nil _ some)⟩⟩

theorem Stands.attachBack (stands : (code.attachBack code').Stands graph first next loop) :
    code.Stands graph first next loop ∧
      code'.Stands graph (first + code.size) (some (code.exit first)) loop := by
  obtain ⟨front, back⟩ := (eachFrom_attachBack _ _).mp stands.holds
  exact ⟨⟨front, fun jump some => stands.aims jump (List.append_ne_nil_of_left_ne_nil some _)⟩,
    ⟨back, fun jump some => stands.aims jump (List.append_ne_nil_of_right_ne_nil _ some)⟩⟩

theorem Stands.fork {onTrue onFalse : Nat → Nat}
    {apart : ∀ start, start ≤ onTrue start ∧ onTrue start < onFalse start ∧
      onFalse start < start + code.size}
    (stands : (code.fork onTrue onFalse apart).Stands graph first next loop) :
    graph.block first =
        { shape := .conditional (some (onTrue (first + 1))) (some (onFalse (first + 1))) } ∧
      code.Stands graph (first + 1) next loop :=
  ⟨stands.holds.1, stands.holds.2, stands.aims⟩

/-- A jump goes where it aims. -/
theorem Stands.jump {kind : Jump} (stands : (Fragment.jump kind).Stands graph first next loop)
    {act : Action} {memory : Memory} : ∃ target, loop kind = some target ∧
      graph.Arrives act (graph.enter first memory) (graph.enter target memory) := by
  obtain ⟨target, aims⟩ := stands.aims kind (by simp [Fragment.jump])
  have block : graph.block first = { shape := .simple ((loop kind).or next) } := stands.holds.1
  rw [aims] at block
  exact ⟨target, aims, .ofEmpty block⟩

variable {α β : Type} {act : Action} {rounds count : Nat} {push : α → List Value}
  {push' : β → List Value} {evaluation : Eval α}

/-- Code behind some other code, on whose results it may depend. -/
theorem Follows.attach {further : α → Eval β} (follows : code.Follows act rounds push evaluation)
    (continues : ∀ ⦃graph first next loop⦄, code'.Stands graph first next loop →
      ∀ stack {value earlier store}, evaluation earlier = some (.ok value, store) →
      graph.Tracks act loop stack rounds
        (graph.enter (code'.entry first) (store.memory (push value ++ stack)))
        (fun result after =>
          graph.placeBehind (code'.exit first) next (after.memory (push' result ++ stack)))
        (further value store)) :
    (code.attach code').Follows act rounds push' (evaluation >>= further) := by
  intro graph first next loop stands stack store
  obtain ⟨front, back⟩ := stands.attach
  exact (follows front stack store).bind fun value after done => continues back stack done

variable {condition body : Eval (Option Value)}

/-- From the code of a condition to one of the targets of its branch. The step of the branch
itself is counted. -/
theorem Follows.test
    (follows : code.Follows act rounds (fun value => [value]) (Eval.value condition))
    {branch onTrue onFalse : BlockId} (stands : code.Stands graph first (some branch) loop)
    (forks : graph.block branch = { shape := .conditional (some onTrue) (some onFalse) })
    (fits : count ≤ rounds) (stack : List Value) (store : Store) {rest : Bool → Eval α}
    {onward : α → Store → Graph.Place} {left : Nat} (enough : count ≤ left + 1)
    (continues : ∀ holds after, graph.Tracks act loop stack left
      (graph.enter (if holds then onTrue else onFalse) (after.memory stack)) onward
      (rest holds after)) :
    graph.Tracks act loop stack count (graph.enter (code.entry first) (store.memory stack)) onward
      ((Eval.test condition >>= rest) store) := by
  rw [Eval.test, bind_assoc]
  refine ((follows stands stack store).mono fits).bind fun value after _ => ?_
  have empty : graph.placeBehind (code.exit first) (some branch) (after.memory ([value] ++ stack)) =
      ⟨branch, [], after.memory (value :: stack)⟩ := by
    rw [Graph.placeBehind, Graph.enter, forks]
    rfl
  have shape := congrArg Block.shape forks
  rw [empty]
  cases value with
  | bytes bytes =>
    have ended : graph.walk act ⟨branch, [], after.memory (.bytes bytes :: stack)⟩ =
        .ended [] (.undecided (after.memory (.bytes bytes :: stack))) :=
      Graph.walk_conditional shape
    exact ⟨[.bytes bytes], .single ended⟩
  | uint number =>
    have moved : graph.walk act ⟨branch, [], after.memory (.uint number :: stack)⟩ =
        .moved [] (graph.enter (if decide (number ≠ 0) then onTrue else onFalse)
          (after.memory stack)) :=
      Graph.walk_conditional shape
    exact ((continues _ after).step moved).mono enough

/-- One round of a loop gets back to its condition or behind its end. -/
theorem Follows.round (follows : code.Follows act rounds (fun _ => []) body)
    {entry exit : BlockId} (stands : code.Stands graph first (some entry) (closed exit entry))
    (stack : List Value) (store : Store) :
    graph.Tracks act loop stack rounds (graph.enter (code.entry first) (store.memory stack))
      (fun again after => graph.enter (if again then entry else exit) (after.memory stack))
      (Eval.round body store) := by
  have tracks := follows stands stack store
  rw [Eval.round]
  rcases done : body store with _ | ⟨stop | value, after⟩
  · rwa [done] at tracks
  · rw [done] at tracks
    cases stop with
    | broke | continued =>
      obtain ⟨target, aims, arrives⟩ := tracks
      cases aims
      exact arrives
    | _ => exact tracks
  · rwa [done] at tracks

/-- A loop, by induction on the number of rounds that are granted. -/
theorem Follows.whileLoop
    (tested : code.Follows act rounds (fun value => [value]) (Eval.value condition))
    (repeated : code'.Follows act rounds (fun _ => []) body) :
    (code.whileLoop code').Follows act rounds Option.toList (Eval.loop condition body rounds) := by
  intro graph first next loop stands stack store
  obtain ⟨front, fork, back, join⟩ := eachFrom_whileLoop.mp stands.holds
  have test : code.Stands graph first (some (first + code.size)) loop := ⟨front, stands.aims⟩
  have again : code'.Stands graph _ _ _ := ⟨back, fun jump _ => by cases jump <;> exact ⟨_, rfl⟩⟩
  suffices granted : ∀ count ≤ rounds, ∀ store, graph.Tracks act loop stack count
      (graph.enter (code.entry first) (store.memory stack))
      (fun value after => graph.placeBehind ((code.whileLoop code').exit first) next
        (after.memory (value.toList ++ stack)))
      (Eval.loop condition body count store) from granted rounds (Nat.le_refl _) store
  intro count
  induction count with
  | zero => exact fun _ store => .zero _
  | succ count ih =>
    intro fits store
    rw [Eval.loop]
    refine tested.test test fork fits stack store (Nat.le_refl _) fun holds after => ?_
    cases holds with
    | false => exact Graph.Arrives.ofEmpty join
    | true =>
      refine ((repeated.round again stack after).mono (Nat.le_of_succ_le fits)).bind
        fun again later _ => ?_
      cases again with
      | false => exact Graph.Arrives.ofEmpty join
      | true => exact ih (Nat.le_of_succ_le fits) later

end Fragment

namespace Expr

variable {setting : Setting} {home : Home} {ids : List SubroutineId} {rounds : Nat} {expr : Expr}
  {act : Action} {main : Bool}

/-- The code of an operand leaves its value on the stack. -/
theorem Passes.operand (passes : expr.Passes home ids) (isOperand : expr.isOperand = true)
    (disciplined : expr.disciplined = true)
    (follows : (expr.fragment main).Follows act rounds Option.toList
      (expr.eval setting home.isMain rounds)) :
    (expr.fragment main).Follows act rounds (fun value => [value])
      (Eval.value (expr.eval setting home.isMain rounds)) := by
  intro graph first next loop stands stack store
  refine (follows stands stack store).bind fun value after done => ?_
  have isSome := passes.isSome_eq_isValue disciplined done
  rw [Expr.isOperand, Bool.and_eq_true] at isOperand
  rw [isOperand.1, Option.isSome_iff_exists] at isSome
  obtain ⟨found, rfl⟩ := isSome
  exact Graph.Arrives.refl _

/-- The code of a statement leaves nothing on the stack. -/
theorem Passes.statement (passes : expr.Passes home ids) (empty : expr.ty.isValue = false)
    (disciplined : expr.disciplined = true)
    (follows : (expr.fragment main).Follows act rounds Option.toList
      (expr.eval setting home.isMain rounds)) :
    (expr.fragment main).Follows act rounds (fun _ => [])
      (expr.eval setting home.isMain rounds) := by
  intro graph first next loop stands stack store
  refine (follows stands stack store).onward fun value after done => ?_
  have none := passes.isSome_eq_isValue disciplined done
  rw [empty, Option.isSome_eq_false_iff, Option.isNone_iff_eq_none] at none
  subst none
  exact Graph.Arrives.refl _

theorem fragments_concat (init : List Expr) (last : Expr) :
    fragments main (init ++ [last]) = fragments main init ++ [last.fragment main] := by
  induction init with
  | nil => rfl
  | cons head tail ih => rw [List.cons_append, fragments, fragments, ih, List.cons_append]

theorem evalEach_concat (init : List Expr) (last : Expr) :
    evalEach setting main rounds (init ++ [last]) =
      (evalEach setting main rounds init >>= fun values =>
        Eval.value (last.eval setting main rounds) >>= fun value => pure (values ++ [value])) := by
  induction init with
  | nil => simp [evalEach]
  | cons head tail ih => simp [evalEach, ih]

theorem evalSeq_concat (head : Expr) (init : List Expr) (last : Expr) :
    evalSeq setting main rounds (head :: (init ++ [last])) =
      (evalSeq setting main rounds (head :: init) >>= fun _ => last.eval setting main rounds) := by
  induction init generalizing head with
  | nil => simp [evalSeq]
  | cons next rest ih => simp [evalSeq, ← ih]

/-- The values of several operands end up on the stack, the last one on top. -/
theorem follows_evalEach {head : Expr} {rest : List Expr}
    (each : ∀ operand ∈ head :: rest, (operand.fragment main).Follows act rounds
      (fun value => [value]) (Eval.value (operand.eval setting main rounds)))
    (quiet : ∀ operand ∈ head :: rest, operand.escapes = false) :
    ((fragments main rest).foldl .attach (head.fragment main)).Follows act rounds List.reverse
      (evalEach setting main rounds (head :: rest)) := by
  induction rest using List.reverseRecOn with
  | nil =>
    intro graph first next loop stands stack store
    rw [evalEach]
    refine (each head (by simp) stands stack store).bind fun value after _ => ?_
    rw [evalEach]
    exact Graph.Arrives.refl _
  | append_singleton init last ih =>
    rw [← List.cons_append, List.forall_mem_append, List.forall_mem_singleton] at each quiet
    rw [fragments_concat, List.foldl_concat, ← List.cons_append, evalEach_concat]
    refine (ih each.1 quiet.1).attach fun graph first next loop stands stack values _ store _ => ?_
    -- The values of the other operands wait on the stack, so nothing may jump now.
    have waiting := (each.2 stands (values.reverse ++ stack) store).deeper values.reverse
      (Eval.quiet_value (quiet_eval last quiet.2 store))
    refine waiting.bind fun value after _ => ?_
    rw [Eval.pure_apply, Graph.Tracks, List.reverse_concat]
    exact Graph.Arrives.refl _

/-- Statements one after the other leave nothing on the stack. -/
theorem follows_evalSeq {head : Expr} {rest : List Expr}
    (each : ∀ item ∈ head :: rest, (item.fragment main).Follows act rounds (fun _ => [])
      (item.eval setting main rounds)) :
    ((fragments main rest).foldl .attach (head.fragment main)).Follows act rounds (fun _ => [])
      (evalSeq setting main rounds (head :: rest)) := by
  induction rest using List.reverseRecOn with
  | nil =>
    rw [evalSeq_singleton]
    exact each head (by simp)
  | append_singleton init last ih =>
    rw [← List.cons_append, List.forall_mem_append, List.forall_mem_singleton] at each
    rw [fragments_concat, List.foldl_concat, evalSeq_concat]
    exact (ih each.1).attach fun graph first next loop stands stack _ _ store _ =>
      each.2 stands stack store

theorem follows_leaf {instrs : List Instr} (isLeaf : expr.leaf? = some instrs)
    (disciplined : expr.disciplined = true) (program : Program) :
    (Fragment.leaf instrs).Follows (setting.action program) rounds Option.toList
      (expr.eval setting main rounds) := by
  intro graph first next loop stands stack store
  have block : graph.block first = { instrs, shape := .simple next } := stands.holds.1
  have single : ∀ instr, instrs = [instr] →
      graph.Tracks (setting.action program) loop stack rounds
        (graph.enter first (store.memory stack))
        (fun value after => graph.placeBehind first next (after.memory (value.toList ++ stack)))
        (expr.eval setting main rounds store) := by
    rintro instr rfl
    rw [Graph.enter, block]
    refine (Graph.Tracks.ofAnswers [] (leaf_answers isLeaf disciplined)).onward fun _ _ _ => ?_
    exact .behind (congrArg Block.shape block)
  cases expr with
  | int | bytes | text | field | sigArg | ret | abort | load | slotIndex =>
    cases isLeaf
    exact single _ rfl
  | exit approved =>
    cases isLeaf
    have pushed : Answers ((Expr.int (if approved then 1 else 0)).eval setting main rounds store)
        store stack (setting.action program (.int (if approved then 1 else 0))
          (store.memory stack)) :=
      leaf_answers rfl rfl
    have halted : setting.action program ⟨.ret, []⟩
        (store.memory (.uint (if approved then 1 else 0) :: stack)) =
          .ok (.halt approved, store.memory stack) := by
      cases approved <;> rfl
    rw [Fragment.leaf, Graph.enter, block, eval]
    rw [eval] at pushed
    exact ⟨[], (Graph.Arrives.ofNext pushed).finishes (.ofLeft halted (by simp))⟩
  | seq items =>
    cases items with
    | cons => cases isLeaf
    | nil =>
      cases isLeaf
      rw [eval, evalSeq]
      exact Graph.Arrives.ofEmpty block
  | inline => cases disciplined
  | _ => cases isLeaf

/-- Walking through the code of an expression does what evaluating it does. -/
theorem Passes.follows (passes : expr.Passes home ids) (disciplined : expr.disciplined = true) :
    (expr.fragment home.isMain).Follows (setting.action home.program) rounds Option.toList
      (expr.eval setting home.isMain rounds) := by
  induction passes with
  | leaf isLeaf =>
    rw [fragment_of_leaf? isLeaf]
    exact follows_leaf isLeaf disciplined home.program
  | @operator expr instr operands isOperator admitted _ passes each =>
    have good := disciplined_of_operator? isOperator disciplined
    rw [fragment_of_operator? isOperator, eval_operator isOperator]
    intro graph first next loop stands stack store
    -- The instruction finds the values of the operands on the stack.
    have finishes : ∀ (block : graph.block first = { instrs := [instr], shape := .simple next })
        (values : List Value) (after : Store), values.length = operands.length →
        graph.Tracks (setting.action home.program) loop stack rounds
          (graph.enter first (after.memory (values.reverse ++ stack)))
          (fun value after => graph.placeBehind first next (after.memory (value.toList ++ stack)))
          (expr.finish setting home.isMain values after) := by
      intro block values after count
      rw [Graph.enter, block]
      refine (Graph.Tracks.ofAnswers values.reverse
        (finish_answers isOperator admitted count)).onward fun _ _ _ => ?_
      exact .behind (congrArg Block.shape block)
    cases operands with
    | nil =>
      rw [evalEach, pure_bind]
      exact finishes stands.holds.1 [] store rfl
    | cons operand rest =>
      obtain ⟨front, back⟩ := stands.attachBack
      refine (follows_evalEach (fun operand member => (passes operand member).operand
        (good operand member).1 (good operand member).2
        (each operand member (good operand member).2)) ?_ back stack store).bind
        fun values after done => finishes front.holds.1 values after (length_of_evalEach done)
      intro operand member
      have isOperand := (good operand member).1
      simp only [Expr.isOperand, Bool.and_eq_true, Bool.not_eq_true'] at isOperand
      exact isOperand.2
  | @seq init last empty passes each =>
    rw [Expr.disciplined, allDisciplined_eq_true] at disciplined
    have follows := fun item member => each item member (disciplined item member)
    have final := follows last (by simp)
    rw [eval]
    cases init with
    | nil =>
      rw [List.nil_append, evalSeq_singleton]
      exact final
    | cons head init =>
      have front := follows_evalSeq fun item member =>
        (passes item (List.mem_append_left _ member)).statement (empty item member)
          (disciplined item (List.mem_append_left _ member))
          (follows item (List.mem_append_left _ member))
      rw [List.cons_append, evalSeq_concat, fragment, fragments, Fragment.sequence,
        fragments_concat, List.foldl_concat]
      exact front.attach fun graph first next loop stands stack _ _ store _ =>
        final stands stack store
  | ifThen empty passes _ tested taken =>
    simp only [Expr.disciplined, Bool.and_eq_true] at disciplined
    have test := passes.operand disciplined.1.1 disciplined.1.2 (tested disciplined.1.2)
    intro graph first next loop stands stack store
    obtain ⟨front, back⟩ := stands.attach
    obtain ⟨fork, back⟩ := back.fork
    obtain ⟨branch, join⟩ := back.attach
    rw [eval]
    refine test.test front fork (Nat.le_refl _) stack store (Nat.le_succ _) fun holds after => ?_
    cases holds with
    | false => exact Graph.Arrives.ofEmpty join.holds.1
    | true =>
      refine (taken disciplined.2 branch stack after).onward fun value later _ => ?_
      exact Graph.Arrives.ofEmpty join.holds.1
  | ifElse _ passes _ _ tested taken other =>
    simp only [Expr.disciplined, Bool.and_eq_true] at disciplined
    have test := passes.operand disciplined.1.1.1 disciplined.1.1.2 (tested disciplined.1.1.2)
    intro graph first next loop stands stack store
    obtain ⟨front, back⟩ := stands.attach
    obtain ⟨fork, back⟩ := back.fork
    obtain ⟨back, alternative⟩ := back.attachBack
    obtain ⟨branch, join⟩ := back.attach
    rw [eval]
    refine test.test front fork (Nat.le_refl _) stack store (Nat.le_succ _) fun holds after => ?_
    cases holds with
    | false =>
      refine (other disciplined.2 alternative stack after).onward fun value later _ => ?_
      exact Graph.Arrives.ofEmpty join.holds.1
    | true =>
      refine (taken disciplined.1.2 branch stack after).onward fun value later _ => ?_
      exact Graph.Arrives.ofEmpty join.holds.1
  | whileLoop empty passes passes' tested repeated =>
    simp only [Expr.disciplined, Bool.and_eq_true] at disciplined
    have test := passes.operand disciplined.1.1 disciplined.1.2 (tested disciplined.1.2)
    have body := passes'.statement empty disciplined.2 (repeated disciplined.2)
    rw [eval]
    exact test.whileLoop body
  | breakLoop | continueLoop =>
    intro graph first next loop stands stack store
    rw [eval]
    exact Fragment.Stands.jump stands

end Expr

namespace Graph

/-! ## Whole expressions -/

/-- A walk through the code of a whole expression comes to a result of its evaluation: it
arrives behind the last block with the value, if there is one, on the stack, or it leaves the
routine, ends the program or fails with the same store. No loop is left or repeated from
outside. -/
def Reaches (graph : Graph) (act : Action) (span : Span) (stack : List Value) (store : Store) :
    Except Stop (Option Value) × Store → Prop
  | (.ok value, after) =>
      graph.Arrives act (graph.enter span.entry (store.memory stack))
        ⟨span.exit, [], after.memory (value.toList ++ stack)⟩
  | (.error (.returned value), after) =>
      graph.Finishes act (graph.enter span.entry (store.memory stack))
        (.left .back (after.memory (value.toList ++ stack)))
  | (.error (.halted approved), after) =>
      ∃ left, graph.Finishes act (graph.enter span.entry (store.memory stack))
        (.left (.halt approved) (after.memory (left ++ stack)))
  | (.error (.failed fault), after) =>
      ∃ left, graph.Finishes act (graph.enter span.entry (store.memory stack))
        (.failed fault (after.memory (left ++ stack)))
  | (.error .undecided, after) =>
      ∃ left, graph.Finishes act (graph.enter span.entry (store.memory stack))
        (.undecided (after.memory (left ++ stack)))
  | (.error .broke, _) | (.error .continued, _) => False

/-- The value above a stack, if there is one. -/
def valueAbove (stack : List Value) (memory : Memory) : Option Value :=
  (memory.stack.take (memory.stack.length - stack.length)).head?

def storeOf (memory : Memory) : Store := ⟨memory.scratch, memory.effects, memory.appState⟩

/-- The result that is read off the end of a walk. A walk that is lost has arrived behind the
last block. -/
def resultOf (stack : List Value) : Ending → Except Stop (Option Value) × Store
  | .lost memory => (.ok (valueAbove stack memory), storeOf memory)
  | .left (.halt approved) memory => (.error (.halted approved), storeOf memory)
  | .left _ memory => (.error (.returned (valueAbove stack memory)), storeOf memory)
  | .failed fault memory => (.error (.failed fault), storeOf memory)
  | .undecided memory => (.error .undecided, storeOf memory)

theorem valueAbove_memory (value : Option Value) (stack : List Value) (store : Store) :
    valueAbove stack (store.memory (value.toList ++ stack)) = value := by
  cases value with
  | none => simp [valueAbove, Store.memory]
  | some value => simp [valueAbove, Store.memory]

variable {graph : Graph} {act : Action} {span : Span} {stack : List Value} {store : Store}
  {result : Except Stop (Option Value) × Store}

/-- The result of a walk can be read off its end. -/
theorem Reaches.finishes (waits : (graph.block span.exit).shape.targets = [])
    (reaches : graph.Reaches act span stack store result) :
    ∃ ending, graph.Finishes act (graph.enter span.entry (store.memory stack)) ending ∧
      resultOf stack ending = result := by
  rcases result with ⟨stop | value, after⟩
  · cases stop with
    | broke | continued => exact reaches.elim
    | returned value =>
      refine ⟨_, reaches, ?_⟩
      simp only [resultOf, valueAbove_memory]
      rfl
    | halted | failed | undecided =>
      obtain ⟨left, finish⟩ := reaches
      exact ⟨_, finish, rfl⟩
  · refine ⟨_, reaches.finishes (.single (walk_lost waits)), ?_⟩
    rw [resultOf, valueAbove_memory]
    rfl

/-- A walk comes to one result only. -/
theorem Reaches.unique {other : Except Stop (Option Value) × Store}
    (waits : (graph.block span.exit).shape.targets = [])
    (first : graph.Reaches act span stack store result)
    (second : graph.Reaches act span stack store other) : result = other := by
  obtain ⟨ending, ⟨events, finish⟩, rfl⟩ := first.finishes waits
  obtain ⟨ending', ⟨events', finish'⟩, rfl⟩ := second.finishes waits
  rw [finish.unique finish']

/-- An evaluation outside of all loops. -/
theorem Tracks.reaches {count : Nat}
    (tracks : graph.Tracks act .open stack count (graph.enter span.entry (store.memory stack))
      (fun value after => ⟨span.exit, [], after.memory (value.toList ++ stack)⟩) (some result)) :
    graph.Reaches act span stack store result := by
  rcases result with ⟨stop | value, after⟩
  · cases stop with
    | broke | continued =>
      obtain ⟨_, aims, _⟩ := tracks
      cases aims
    | _ => exact tracks
  · exact tracks

end Graph

namespace Lowering

section Whole

variable {expr : Expr} {before after : Context} {span : Span}

/-- A walk through the code of a whole expression does what its evaluation does. -/
theorem tracks_of_lower (outside : before.loops = [])
    (lowered : expr.lower.run before = (.ok span, after)) (disciplined : expr.disciplined = true)
    (setting : Setting) (rounds : Nat) (stack : List Value) (store : Store) :
    after.graph.Tracks (setting.action before.program) .open stack rounds
      (after.graph.enter span.entry (store.memory stack))
      (fun value after => ⟨span.exit, [], after.memory (value.toList ++ stack)⟩)
      (expr.eval setting before.home.isMain rounds store) := by
  have code := lowered_of_yields lowered
  have passes := List.forall_mem_singleton.mp code.passes
  have stands : (expr.fragment before.home.isMain).Stands after.graph before.graph.size none .open :=
    ⟨code.holds, fun jump jumps => absurd (code.noted.outside outside jump) jumps⟩
  rw [code.entry, code.exit]
  exact passes.follows disciplined stands stack store

theorem waits_of_lower (lowered : expr.lower.run before = (.ok span, after)) :
    (after.graph.block span.exit).shape.targets = [] := by
  rw [(lowered_of_yields lowered).waits]
  rfl

theorem reaches_of_eval (outside : before.loops = [])
    (lowered : expr.lower.run before = (.ok span, after)) (disciplined : expr.disciplined = true)
    {setting : Setting} {store : Store} {rounds : Nat}
    {result : Except Stop (Option Value) × Store}
    (done : expr.eval setting before.home.isMain rounds store = some result)
    (stack : List Value) :
    after.graph.Reaches (setting.action before.program) span stack store result := by
  have tracks := tracks_of_lower outside lowered disciplined setting rounds stack store
  rw [done] at tracks
  exact tracks.reaches

theorem lasts_of_eval (outside : before.loops = [])
    (lowered : expr.lower.run before = (.ok span, after)) (disciplined : expr.disciplined = true)
    {setting : Setting} {store : Store} {rounds : Nat}
    (unfinished : expr.eval setting before.home.isMain rounds store = none)
    (stack : List Value) :
    Lasts (after.graph.walk (setting.action before.program)) rounds
      (after.graph.enter span.entry (store.memory stack)) := by
  have tracks := tracks_of_lower outside lowered disciplined setting rounds stack store
  rwa [unfinished] at tracks

/-- Lowering preserves meaning. Whatever calls do, on every stack and store, the evaluation of
a whole expression has a result exactly if a walk through its code comes to that result, and it
has none however many rounds are granted exactly if the walk never ends. -/
theorem lower_preserves_meaning (outside : before.loops = [])
    (lowered : expr.lower.run before = (.ok span, after)) (disciplined : expr.disciplined = true)
    (setting : Setting) (stack : List Value) (store : Store) :
    (∀ result, (∃ rounds, expr.eval setting before.home.isMain rounds store = some result) ↔
      after.graph.Reaches (setting.action before.program) span stack store result) ∧
    ((∀ rounds, expr.eval setting before.home.isMain rounds store = none) ↔
      ∀ count, Lasts (after.graph.walk (setting.action before.program)) count
        (after.graph.enter span.entry (store.memory stack))) := by
  have waits := waits_of_lower lowered
  refine ⟨fun result => ⟨fun ⟨rounds, done⟩ => ?_, fun reaches => ?_⟩,
    fun unfinished count => ?_, fun forever rounds => ?_⟩
  · exact reaches_of_eval outside lowered disciplined done stack
  · -- A walk that ends does not take every number of steps, so some bound suffices.
    obtain ⟨ending, ⟨events, finish⟩, _⟩ := reaches.finishes waits
    obtain ⟨rounds, short⟩ := finish.exists_not_lasts
    cases done : expr.eval setting before.home.isMain rounds store with
    | none => exact absurd (lasts_of_eval outside lowered disciplined done stack) short
    | some other =>
        have also := reaches_of_eval outside lowered disciplined done stack
        rw [reaches.unique waits also]
        exact ⟨rounds, done⟩
  · exact lasts_of_eval outside lowered disciplined (unfinished count) stack
  · cases done : expr.eval setting before.home.isMain rounds store with
    | none => rfl
    | some result =>
        have reaches := reaches_of_eval outside lowered disciplined done stack
        obtain ⟨ending, ⟨events, finish⟩, _⟩ := reaches.finishes waits
        obtain ⟨count, short⟩ := finish.exists_not_lasts
        exact absurd (forever count) short

end Whole

/-- Count down from three and leave the loop at one. -/
def countdownExpr : Expr :=
  .seq [
    .store ⟨0, none⟩ (.int 3),
    .whileLoop (.load ⟨0, none⟩ .uint64) (.seq [
      .ifThen (.binary .eq (.load ⟨0, none⟩ .uint64) (.int 1)) .breakLoop,
      .store ⟨0, none⟩ (.binary .sub (.load ⟨0, none⟩ .uint64) (.int 1))]),
    .load ⟨0, none⟩ .uint64]

/-- Nothing can be called, and every slot is in the first cell. -/
def plainSetting : Setting where
  env := {}
  place := fun _ => ⟨0, by decide⟩
  call := fun _ _ _ => .error (.failed 0)

theorem lower_preserves_meaning_countdown :
    ∃ span after store, countdownExpr.lower.run { program := {}, version := 5 } = (.ok span, after) ∧
      after.graph.Reaches (plainSetting.action {}) span [.uint 7]
        ⟨.replicate cellCount (.uint 0), #[], []⟩ (.ok (some (.uint 1)), store) := by
  obtain ⟨span, after, lowered⟩ : ∃ span after,
      countdownExpr.lower.run { program := {}, version := 5 } = (.ok span, after) :=
    Fallible.exists_of_isSome (by decide +kernel)
  have counts : ((countdownExpr.eval plainSetting true 3 ⟨.replicate cellCount (.uint 0), #[], []⟩).bind
      fun result => result.1.toOption) = some (some (.uint 1)) := by
    decide +kernel
  rcases done : countdownExpr.eval plainSetting true 3 ⟨.replicate cellCount (.uint 0), #[], []⟩
    with _ | ⟨_ | value, store⟩ <;> simp [done, Except.toOption] at counts
  subst counts
  have meaning := lower_preserves_meaning rfl lowered rfl plainSetting [.uint 7]
    ⟨.replicate cellCount (.uint 0), #[], []⟩
  exact ⟨span, after, store, lowered, (meaning.1 _).mp ⟨3, done⟩⟩

end Lowering

end ContractBackend
