import ContractBackend.Proofs.Lowering.Outcomes
import ContractBackend.Proofs.Meaning.Instructions

/-!
# Results of evaluations

What the static facts about an expression say of its evaluation: nothing goes on behind
an expression that terminates, a value is left exactly by an expression whose type is
that of a value, and only an expression that contains a jump jumps.
-/

namespace ContractBackend

open Machine (Value)

/-- An evaluation stays within the routine and its loop. -/
def Eval.Quiet {α : Type} : Option (Except Stop α × Store) → Prop
  | some (.error (.broke), _) | some (.error (.continued), _) | some (.error (.returned _), _) => False
  | _ => True

variable {store after : Store} {α : Type} {condition body : Eval (Option Value)} {init : List Expr}
  {last : Expr}

namespace Eval

theorem bind_eq_ok {β : Type} {first : Eval α} {rest : α → Eval β} {result : β}
    (done : (first >>= rest) store = some (.ok result, after)) :
    ∃ value middle, first store = some (.ok value, middle) ∧
      rest value middle = some (.ok result, after) := by
  rw [bind_apply] at done
  rcases firstResult : first store with _ | ⟨_ | value, middle⟩ <;> simp [firstResult] at done
  exact ⟨value, middle, rfl, done⟩

theorem value_eq_ok {operand : Eval (Option Value)} {result : Value}
    (done : value operand store = some (.ok result, after)) :
    operand store = some (.ok (some result), after) := by
  obtain ⟨found, middle, operandDone, rest⟩ := bind_eq_ok done
  cases found with
  | none => cases rest
  | some found =>
    cases rest
    exact operandDone

theorem test_eq_ok {holds : Bool} (done : test condition store = some (.ok holds, after)) :
    ∃ number : UInt64, condition store = some (.ok (some (.uint number)), after) ∧
      holds = decide (number ≠ 0) := by
  obtain ⟨found, middle, conditionDone, rest⟩ := bind_eq_ok done
  cases found with
  | bytes => cases rest
  | uint number =>
    cases rest
    exact ⟨number, value_eq_ok conditionDone, rfl⟩

theorem leave_ne_ok (main : Bool) (left : Value) (store : Store) (result : Option Value)
    (after : Store) : leave main left store ≠ some (.ok result, after) := by
  cases main with
  | false => nofun
  | true => cases left <;> nofun

theorem Quiet.bind {β : Type} {first : Eval α} {rest : α → Eval β}
    (firstQuiet : Quiet (first store)) (restQuiet : ∀ value after, Quiet (rest value after)) :
    Quiet ((first >>= rest) store) := by
  rw [bind_apply]
  rcases firstResult : first store with _ | ⟨stop | value, after⟩
  · trivial
  · rw [firstResult] at firstQuiet
    cases stop <;> trivial
  · exact restQuiet value after

theorem quiet_value {operand : Eval (Option Value)} (quiet : Quiet (operand store)) :
    Quiet (value operand store) := by
  refine quiet.bind fun result after => ?_
  cases result <;> trivial

theorem quiet_test (quiet : Quiet (condition store)) : Quiet (test condition store) := by
  refine (quiet_value quiet).bind fun result after => ?_
  cases result <;> trivial

theorem quiet_onStore (change : Store → Except Machine.Fault (α × Store)) (store : Store) :
    Quiet (onStore change store) := by
  rw [onStore]
  rcases change store with _ | ⟨_, _⟩ <;> trivial

theorem quiet_ofExcept (result : Except Machine.Fault α) (store : Store) :
    Quiet (ofExcept result store) := by
  cases result <;> trivial

theorem quiet_round (quiet : Quiet (body store)) :
    Quiet (round body store) := by
  rw [round]
  rcases result : body store with _ | ⟨stop | value, after⟩
  · trivial
  · rw [result] at quiet
    cases stop <;> trivial
  · trivial

theorem quiet_loop (conditionQuiet : ∀ store, Quiet (condition store))
    (bodyQuiet : ∀ store, Quiet (body store)) (rounds : Nat) (store : Store) :
    Quiet (loop condition body rounds store) := by
  induction rounds generalizing store with
  | zero => trivial
  | succ rounds ih =>
    refine (quiet_test (conditionQuiet store)).bind fun holds after => ?_
    cases holds with
    | false => trivial
    | true =>
      refine (quiet_round (bodyQuiet after)).bind fun again later => ?_
      cases again with
      | false => trivial
      | true => exact ih later

end Eval

namespace Expr

open Eval (Quiet bind_eq_ok test_eq_ok leave_ne_ok quiet_value quiet_test quiet_onStore
  quiet_ofExcept)

variable {setting : Setting} {main : Bool} {rounds : Nat} {expr : Expr} {instr : Instr}
  {operands items : List Expr} {value : Option Value}

/-! ## Parts of expressions -/

theorem anyEscapes_eq_false : anyEscapes items = false ↔ ∀ item ∈ items, item.escapes = false := by
  induction items with
  | nil => simp [anyEscapes]
  | cons head tail ih => simp [anyEscapes, ih]

theorem allDisciplined_eq_true :
    allDisciplined items = true ↔ ∀ item ∈ items, item.disciplined = true := by
  induction items with
  | nil => simp [allDisciplined]
  | cons head tail ih => simp [allDisciplined, ih]

theorem parts_stay (stays : expr.escapes = false) : ∀ part ∈ expr.parts, part.escapes = false := by
  cases expr <;> simp_all [parts, escapes, anyEscapes_eq_false]

theorem escapes_of_part {part : Expr} (isPart : part ∈ expr.parts) (leaves : part.escapes = true) :
    expr.escapes = true := by
  by_contra stays
  simp [parts_stay (Bool.eq_false_iff.mpr stays) part isPart] at leaves

theorem disciplined_of_part {part : Expr} (isPart : part ∈ expr.parts)
    (disciplined : expr.disciplined = true) : part.disciplined = true := by
  revert part
  cases expr <;> simp_all [parts, Expr.disciplined, allDisciplined_eq_true]

theorem disciplined_of_operator? (isOperator : expr.operator? main = some (instr, operands))
    (disciplined : expr.disciplined = true) :
    ∀ operand ∈ operands, operand.isOperand = true ∧ operand.disciplined = true := by
  cases expr <;> cases isOperator <;>
    simp_all [Expr.disciplined, allDisciplined_eq_true]

/-! ## Sequences -/

theorem evalSeq_cons (head : Expr) (init : List Expr) (last : Expr) :
    evalSeq setting main rounds (head :: (init ++ [last])) =
      (head.eval setting main rounds >>= fun _ =>
        evalSeq setting main rounds (init ++ [last])) := by
  cases init with
  | nil => simp [evalSeq]
  | cons next rest => simp [evalSeq]

theorem evalSeq_singleton (last : Expr) :
    evalSeq setting main rounds [last] = last.eval setting main rounds := by
  rw [evalSeq]

/-! ## Expressions that do not jump -/

theorem length_of_evalEach {values : List Value}
    (done : evalEach setting main rounds operands store = some (.ok values, after)) :
    values.length = operands.length := by
  induction operands generalizing store values with
  | nil =>
    rw [evalEach] at done
    cases done
    rfl
  | cons head tail ih =>
    rw [evalEach] at done
    obtain ⟨value, middle, _, rest⟩ := bind_eq_ok done
    obtain ⟨others, later, tailDone, equal⟩ := bind_eq_ok rest
    cases equal
    rw [List.length_cons, List.length_cons, ih tailDone]

theorem quiet_evalEach (quiet : ∀ operand ∈ operands, ∀ store,
    Quiet (operand.eval setting main rounds store)) (store : Store) :
    Quiet (evalEach setting main rounds operands store) := by
  induction operands generalizing store with
  | nil =>
    rw [evalEach]
    trivial
  | cons head tail ih =>
    rw [List.forall_mem_cons] at quiet
    rw [evalEach]
    refine (quiet_value (quiet.1 store)).bind fun value after => ?_
    exact (ih quiet.2 after).bind fun others later => trivial

theorem quiet_evalSeq (quiet : ∀ item ∈ init, ∀ store, Quiet (item.eval setting main rounds store))
    (lastQuiet : ∀ store, Quiet (last.eval setting main rounds store)) (store : Store) :
    Quiet (evalSeq setting main rounds (init ++ [last]) store) := by
  induction init generalizing store with
  | nil =>
    rw [List.nil_append, evalSeq_singleton]
    exact lastQuiet store
  | cons head tail ih =>
    rw [List.forall_mem_cons] at quiet
    rw [List.cons_append, evalSeq_cons]
    exact (quiet.1 store).bind fun _ after => ih quiet.2 after

theorem quiet_finish (isOperator : expr.operator? main = some (instr, operands))
    (stays : expr.escapes = false) (values : List Value) (store : Store) :
    Quiet (expr.finish setting main values store) := by
  rw [finish.eq_def]
  split
  next => exact (quiet_ofExcept _ store).bind fun _ _ => trivial
  on_goal 2 => cases stays
  on_goal 7 =>
    refine (quiet_onStore _ store).bind fun reply _ => ?_
    cases reply <;> trivial
  on_goal 7 => trivial
  all_goals exact quiet_onStore _ store

theorem quiet_leaf {instrs : List Instr} (isLeaf : expr.leaf? = some instrs)
    (stays : expr.escapes = false) (store : Store) :
    Quiet (expr.eval setting main rounds store) := by
  cases expr with
  | field | sigArg =>
    rw [eval]
    exact (quiet_ofExcept _ store).bind fun _ _ => trivial
  | load =>
    rw [eval]
    exact quiet_onStore _ store
  | seq items =>
    cases items with
    | nil =>
      rw [eval, evalSeq]
      trivial
    | cons => cases isLeaf
  | int | bytes | text | exit | abort | slotIndex | inline =>
    rw [eval]
    trivial
  | ret => cases stays
  | _ => cases isLeaf

/-- Control stays within an expression that contains no jump. -/
theorem quiet_eval : ∀ expr : Expr, expr.escapes = false →
    ∀ store, Quiet (expr.eval setting main rounds store) := by
  have compositional : Compositional main fun expr => expr.escapes = false →
      ∀ store, Quiet (expr.eval setting main rounds store) := {
    leaf := by
      intro expr instrs isLeaf stays store
      exact quiet_leaf isLeaf stays store
    operator := by
      intro expr instr operands isOperator each stays store
      rw [eval_operator isOperator]
      have quiet := parts_stay stays
      rw [parts_of_operator? isOperator] at quiet
      exact (quiet_evalEach (fun operand member => each operand member (quiet operand member))
        store).bind fun values after => quiet_finish isOperator stays values after
    seq := by
      intro init last each lastQuiet stays store
      rw [escapes, anyEscapes_eq_false] at stays
      rw [eval]
      exact quiet_evalSeq (fun item member => each item member (stays item (by simp [member])))
        (lastQuiet (stays last (by simp))) store
    ifThen := by
      intro condition thenBranch conditionQuiet thenQuiet stays store
      rw [escapes, Bool.or_eq_false_iff] at stays
      rw [eval]
      refine (quiet_test (conditionQuiet stays.1 store)).bind fun holds after => ?_
      cases holds with
      | true => exact thenQuiet stays.2 after
      | false => trivial
    ifElse := by
      intro condition thenBranch elseBranch conditionQuiet thenQuiet elseQuiet stays store
      rw [escapes, Bool.or_eq_false_iff, Bool.or_eq_false_iff] at stays
      rw [eval]
      refine (quiet_test (conditionQuiet stays.1.1 store)).bind fun holds after => ?_
      cases holds with
      | true => exact thenQuiet stays.1.2 after
      | false => exact elseQuiet stays.2 after
    whileLoop := by
      intro condition body conditionQuiet bodyQuiet stays store
      rw [escapes, Bool.or_eq_false_iff] at stays
      rw [eval]
      exact Eval.quiet_loop (conditionQuiet stays.1) (bodyQuiet stays.2) rounds store
    breakLoop := by simp [escapes]
    continueLoop := by simp [escapes] }
  exact compositional.all

/-! ## Expressions that terminate -/

theorem anyTerminates_eq_true :
    anyTerminates items = true ↔ ∃ item ∈ items, item.terminates = true := by
  induction items with
  | nil => simp [anyTerminates]
  | cons head tail ih => simp [anyTerminates, ih]

theorem evalSeq_ne_ok (stopping : ∃ item ∈ init ++ [last], ∀ store value after,
      item.eval setting main rounds store ≠ some (.ok value, after))
    (store : Store) (value : Option Value) (after : Store) :
    evalSeq setting main rounds (init ++ [last]) store ≠ some (.ok value, after) := by
  induction init generalizing store with
  | nil =>
    obtain ⟨item, member, stops⟩ := stopping
    rw [List.nil_append, List.mem_singleton] at member
    subst member
    rw [List.nil_append, evalSeq_singleton]
    exact stops store value after
  | cons head tail ih =>
    rw [List.cons_append, evalSeq_cons]
    intro done
    obtain ⟨first, middle, headDone, tailDone⟩ := bind_eq_ok done
    obtain ⟨item, member, stops⟩ := stopping
    rcases List.mem_cons.mp member with rfl | later
    · exact stops store first middle headDone
    · exact ih ⟨item, later, stops⟩ middle tailDone

/-- Nothing goes on behind an expression that terminates. -/
theorem eval_ne_ok : ∀ expr : Expr, expr.terminates = true → ∀ store value after,
    expr.eval setting main rounds store ≠ some (.ok value, after) := by
  have compositional : Compositional main fun expr => expr.terminates = true →
      ∀ store value after, expr.eval setting main rounds store ≠ some (.ok value, after) := {
    leaf := by
      intro expr instrs isLeaf terminates store value after
      cases expr with
      | ret | exit | abort | inline =>
        rw [eval]
        rintro ⟨⟩
      | seq items =>
        cases items with
        | nil => simp [Expr.terminates, anyTerminates] at terminates
        | cons => cases isLeaf
      | ifThen | ifElse | retValue => cases isLeaf
      | _ => simp [Expr.terminates] at terminates
    operator := by
      intro expr instr operands isOperator _ terminates store value after
      cases expr with
      | retValue returned =>
        intro done
        rw [eval] at done
        obtain ⟨_, _, _, left⟩ := bind_eq_ok done
        exact leave_ne_ok _ _ _ _ _ left
      | _ => simp [Expr.terminates, operator?] at terminates isOperator
    seq := by
      intro init last each lastStops terminates
      rw [Expr.terminates, anyTerminates_eq_true] at terminates
      obtain ⟨item, member, stops⟩ := terminates
      rw [eval]
      apply evalSeq_ne_ok
      refine ⟨item, member, ?_⟩
      rcases List.mem_append.mp member with early | isLast
      · exact each item early stops
      · rw [List.mem_singleton.mp isLast] at stops ⊢
        exact lastStops stops
    ifThen := by
      intro condition thenBranch conditionStops _ terminates store value after done
      rw [Expr.terminates] at terminates
      rw [eval] at done
      obtain ⟨holds, middle, tested, _⟩ := bind_eq_ok done
      obtain ⟨number, conditionDone, _⟩ := test_eq_ok tested
      exact conditionStops terminates _ _ _ conditionDone
    ifElse := by
      intro condition thenBranch elseBranch conditionStops thenStops elseStops terminates store
        value after done
      rw [Expr.terminates, Bool.or_eq_true, Bool.and_eq_true] at terminates
      rw [eval] at done
      obtain ⟨holds, middle, tested, branchDone⟩ := bind_eq_ok done
      obtain ⟨number, conditionDone, _⟩ := test_eq_ok tested
      rcases terminates with terminates | ⟨thenTerminates, elseTerminates⟩
      · exact conditionStops terminates _ _ _ conditionDone
      · cases holds with
        | true => exact thenStops thenTerminates _ _ _ branchDone
        | false => exact elseStops elseTerminates _ _ _ branchDone
    whileLoop := by simp [Expr.terminates]
    breakLoop := by simp [Expr.terminates]
    continueLoop := by simp [Expr.terminates] }
  exact compositional.all

theorem terminates_of_eval (done : expr.eval setting main rounds store = some (.ok value, after)) :
    expr.terminates = false :=
  Bool.eq_false_iff.mpr fun stops => eval_ne_ok expr stops store value after done

/-! ## Values -/

theorem lastTy_append (init : List Expr) (last : Expr) : lastTy (init ++ [last]) = last.ty := by
  induction init with
  | nil => simp [lastTy]
  | cons head tail ih =>
    cases tail with
    | nil => simp [lastTy]
    | cons next rest => simpa [lastTy] using ih

theorem eq_ok_of_onStore {change : Store → Except Machine.Fault (α × Store)} {result : α}
    (done : Eval.onStore change store = some (.ok result, after)) :
    change store = .ok (result, after) := by
  rw [Eval.onStore] at done
  rcases changed : change store with _ | ⟨_, _⟩ <;> simp [changed] at done
  obtain ⟨rfl, rfl⟩ := done
  rfl

theorem isSome_of_ofExcept {result : Except Machine.Fault Value}
    (done : (some <$> Eval.ofExcept result : Eval (Option Value)) store = some (.ok value, after)) :
    value.isSome = true := by
  cases result <;> cases done
  rfl

theorem isSome_of_unary {op : UnaryOp} {operand : Value}
    (done : op.apply operand store = .ok (value, after)) : value.isSome = op.ty.isValue := by
  cases op with
  | not | bitNot | itob | len | log =>
    cases operand <;> cases done
    rfl
  | pop =>
    cases done
    rfl
  | btoi =>
    cases operand with
    | uint => cases done
    | bytes =>
      simp only [UnaryOp.apply, onBytes] at done
      split at done <;> cases done
      rfl
  | assert =>
    cases operand with
    | bytes => cases done
    | uint =>
      simp only [UnaryOp.apply, onUint] at done
      split at done <;> cases done
      rfl

theorem isSome_of_finish {values : List Value} (disciplined : expr.disciplined = true)
    (isOperator : expr.operator? main = some (instr, operands))
    (done : expr.finish setting main values store = some (.ok value, after)) :
    value.isSome = expr.ty.isValue := by
  rw [finish.eq_def] at done
  split at done
  next op _ _ _ _ =>
    rw [isSome_of_ofExcept done, ty]
    cases op <;> rfl
  next =>
    rw [ty]
    exact isSome_of_unary (eq_ok_of_onStore done)
  next => exact absurd done (leave_ne_ok _ _ _ _ _)
  next =>
    cases eq_ok_of_onStore done
    rfl
  next =>
    obtain ⟨cell, _, equal⟩ := Fallible.bind_eq_ok.mp (eq_ok_of_onStore done)
    cases equal
    rfl
  next =>
    obtain ⟨cell, _, equal⟩ := Fallible.bind_eq_ok.mp (eq_ok_of_onStore done)
    cases equal
    rfl
  next key =>
    cases key <;> cases eq_ok_of_onStore done
    rfl
  next key _ =>
    cases key <;> cases eq_ok_of_onStore done
    rfl
  next target arguments =>
    obtain ⟨reply, middle, _, rest⟩ := bind_eq_ok done
    cases reply with
    | halted => cases rest
    | returned result =>
      cases rest
      cases returns : target.returns with
      | nothing => simp [ty, returns, Returns.isValue, Returns.ty, Ty.isValue]
      | value kind =>
        cases kind <;> simp_all [ty, Returns.isValue, Returns.ty, Ty.isValue, Expr.disciplined]
  next => cases done

theorem isSome_of_loop (done : Eval.loop condition body rounds store = some (.ok value, after)) :
    value = none := by
  induction rounds generalizing store with
  | zero => cases done
  | succ rounds ih =>
    rw [Eval.loop] at done
    obtain ⟨holds, middle, _, rest⟩ := bind_eq_ok done
    cases holds with
    | false =>
      cases rest
      rfl
    | true =>
      obtain ⟨again, later, _, rest⟩ := bind_eq_ok rest
      cases again with
      | false =>
        cases rest
        rfl
      | true => exact ih rest

theorem isSome_of_leaf {instrs : List Instr} (isLeaf : expr.leaf? = some instrs)
    (disciplined : expr.disciplined = true)
    (done : expr.eval setting main rounds store = some (.ok value, after)) :
    value.isSome = expr.ty.isValue := by
  cases expr with
  | int | bytes | text | slotIndex =>
    rw [eval] at done
    cases done
    rfl
  | field | sigArg =>
    rw [eval] at done
    rw [isSome_of_ofExcept done, ty]
    exact disciplined.symm
  | load =>
    rw [eval] at done
    cases eq_ok_of_onStore done
    exact disciplined.symm
  | seq items =>
    cases items with
    | nil =>
      rw [eval, evalSeq] at done
      cases done
      rfl
    | cons => cases isLeaf
  | ret | exit | abort => exact absurd done (eval_ne_ok _ (by simp [Expr.terminates]) _ _ _)
  | inline => cases disciplined
  | _ => cases isLeaf

theorem evalSeq_eq_ok
    (done : evalSeq setting main rounds (init ++ [last]) store = some (.ok value, after)) :
    ∃ middle, last.eval setting main rounds middle = some (.ok value, after) := by
  induction init generalizing store with
  | nil =>
    rw [List.nil_append, evalSeq_singleton] at done
    exact ⟨store, done⟩
  | cons head tail ih =>
    rw [List.cons_append, evalSeq_cons] at done
    obtain ⟨_, middle, _, rest⟩ := bind_eq_ok done
    exact ih rest

/-- A value is left exactly by an expression whose type is that of a value. -/
theorem Passes.isSome_eq_isValue {home : Home} {ids : List SubroutineId}
    (passes : expr.Passes home ids) (disciplined : expr.disciplined = true)
    (done : expr.eval setting home.isMain rounds store = some (.ok value, after)) :
    value.isSome = expr.ty.isValue := by
  induction passes generalizing store value after with
  | leaf isLeaf => exact isSome_of_leaf isLeaf disciplined done
  | operator isOperator =>
    rw [eval_operator isOperator] at done
    obtain ⟨values, _, _, finished⟩ := bind_eq_ok done
    exact isSome_of_finish disciplined isOperator finished
  | @seq init last _ _ typed =>
    rw [Expr.disciplined, allDisciplined_eq_true] at disciplined
    rw [eval] at done
    obtain ⟨_, lastDone⟩ := evalSeq_eq_ok done
    rw [ty, lastTy_append]
    exact typed last (by simp) (disciplined last (by simp)) lastDone
  | ifThen empty _ _ _ taken =>
    simp only [Expr.disciplined, Bool.and_eq_true] at disciplined
    rw [eval] at done
    obtain ⟨holds, _, _, rest⟩ := bind_eq_ok done
    rw [ty]
    cases holds with
    | true => exact taken disciplined.2 rest
    | false =>
      cases rest
      rw [empty]
      rfl
  | @ifElse condition thenBranch elseBranch agree _ _ _ _ taken other =>
    simp only [Expr.disciplined, Bool.and_eq_true] at disciplined
    rw [eval] at done
    obtain ⟨holds, _, _, rest⟩ := bind_eq_ok done
    rw [ty]
    cases holds with
    | true =>
      rw [terminates_of_eval rest]
      exact taken disciplined.1.2 rest
    | false =>
      have elseGoesOn := terminates_of_eval rest
      have typed := other disciplined.2 rest
      cases thenGoesOn : thenBranch.terminates with
      | true => exact typed
      | false => exact typed.trans (agree thenGoesOn elseGoesOn).symm
  | whileLoop =>
    rw [eval] at done
    rw [isSome_of_loop done]
    rfl
  | breakLoop | continueLoop =>
    rw [eval] at done
    cases done

end Expr

end ContractBackend
