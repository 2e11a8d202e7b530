import ContractBackend.Proofs.Gauge.Marks

/-!
# Lowering makes safe code

The blocks of an expression that fits the level it is entered at can be marked with the levels at
which control comes to them. Control that is marked along its way is safe.
-/

namespace ContractBackend

variable {home : Home} {dialect : Dialect} {level : Level}

namespace Expr

section Parts

variable {main : Bool} {expr inner condition thenBranch elseBranch body last : Expr}
  {items : List Expr}

theorem Fits.part (fits : expr.Fits main dialect level) (isPart : inner ∈ expr.parts) :
    inner.Fits main dialect level where
  admitted := (every_iff.mp fits.admitted).2 inner isPart
  proper := (every_iff.mp fits.proper).2 inner isPart
  steady height known :=
    ⟨disciplined_of_part isPart (fits.steady height known).1,
      fun leaves => (fits.steady height known).2 (escapes_of_part isPart leaves)⟩

/-- A condition may be executed at a level, and leaves a value where the height is known. -/
def FitsTest (main : Bool) (dialect : Dialect) (condition : Expr) (level : Level) : Prop :=
  condition.Fits main dialect level ∧
    ∀ height, level = some height → condition.ty.isValue = true

/-- The decision on a condition leaves the stack as it was before the condition. -/
theorem FitsTest.test (fits : condition.FitsTest home.isMain dialect level) :
    (home.gauge dialect).test (condition.raise level) = some level := by
  cases level with
  | none => rfl
  | some height =>
    rw [raise_of_isValue (fits.2 height rfl)]
    rfl

theorem Fits.test (fits : expr.Fits main dialect level) (isPart : inner ∈ expr.parts)
    (operand : expr.disciplined = true → inner.isOperand = true) :
    inner.FitsTest main dialect level := by
  refine ⟨fits.part isPart, fun height known => ?_⟩
  have isOperand := operand (fits.steady height known).1
  rw [Expr.isOperand, Bool.and_eq_true] at isOperand
  exact isOperand.1

theorem Fits.ifThen (fits : (Expr.ifThen condition thenBranch).Fits main dialect level) :
    condition.FitsTest main dialect level ∧ thenBranch.Fits main dialect level :=
  ⟨fits.test (by simp [parts]) (by simp +contextual [Expr.disciplined]),
    fits.part (by simp [parts])⟩

theorem Fits.ifElse
    (fits : (Expr.ifElse condition thenBranch elseBranch).Fits main dialect level) :
    condition.FitsTest main dialect level ∧ thenBranch.Fits main dialect level ∧
      elseBranch.Fits main dialect level :=
  ⟨fits.test (by simp [parts]) (by simp +contextual [Expr.disciplined]),
    fits.part (by simp [parts]), fits.part (by simp [parts])⟩

theorem Fits.whileLoop (fits : (Expr.whileLoop condition body).Fits main dialect level) :
    condition.FitsTest main dialect level ∧ body.Fits main dialect level :=
  ⟨fits.test (by simp [parts]) (by simp +contextual [Expr.disciplined]),
    fits.part (by simp [parts])⟩

/-- Expressions of which all but the last one leave no value may be executed one after the
other. -/
theorem fitEach_items {init : List Expr}
    (fits : ∀ item ∈ init ++ [last], item.Fits main dialect level)
    (empty : ∀ item ∈ init, item.ty.isValue = false) :
    FitEach main dialect level (init ++ [last]) level ∧
      raiseEach (init ++ [last]) level = last.raise level := by
  induction init with
  | nil => exact ⟨⟨fits last (by simp), fun _ => rfl, trivial⟩, rfl⟩
  | cons head tail ih =>
    rw [List.cons_append, List.forall_mem_cons] at fits
    rw [List.forall_mem_cons] at empty
    obtain ⟨each, raised⟩ := ih fits.2 empty.2
    have same : head.raise level = level := raise_of_not_isValue empty.1
    refine ⟨⟨fits.1, fun _ => rfl, ?_⟩, ?_⟩
    · rwa [same]
    · rwa [List.cons_append, raiseEach, List.foldl_cons, same]

end Parts

end Expr

namespace Expr

variable {expr condition thenBranch elseBranch body item : Expr} {items rest : List Expr}
  {mark start base : Option Level} {after : Level}

/-- A mark, unless control ends in the expression. -/
def beyond (expr : Expr) (mark : Option Level) : Option Level :=
  if expr.terminates then none else mark

/-- The mark behind an expression. -/
def onward (expr : Expr) (mark : Option Level) : Option Level := (expr.beyond mark).map expr.raise

/-- The mark behind several expressions, one behind the other. -/
def onwardEach (items : List Expr) (mark : Option Level) : Option Level :=
  items.foldl (fun mark item => item.onward mark) mark

theorem beyond_eq_some :
    expr.beyond mark = some level ↔ expr.terminates = false ∧ mark = some level := by
  cases ends : expr.terminates <;> simp [beyond, ends]

theorem eq_of_beyond (isLevel : expr.beyond mark = some level) : mark = some level :=
  (beyond_eq_some.mp isLevel).2

theorem onward_eq_some :
    expr.onward mark = some after ↔
      expr.terminates = false ∧ ∃ level, mark = some level ∧ expr.raise level = after := by
  simp only [onward, Option.map_eq_some_iff, beyond_eq_some, and_assoc, exists_and_left]

/-- Behind an expression that goes on without a value, nothing has changed. -/
theorem onward_eq_self (goes : expr.terminates = false) (empty : expr.ty.isValue = false) :
    expr.onward mark = mark := by
  refine Option.ext fun level => ?_
  simp [onward_eq_some, goes, raise_of_not_isValue empty]

theorem onwardEach_eq_some :
    onwardEach items mark = some after ↔
      anyTerminates items = false ∧ ∃ level, mark = some level ∧ raiseEach items level = after := by
  induction items generalizing mark with
  | nil => simp [onwardEach, anyTerminates, raiseEach]
  | cons item rest ih =>
    have split : onwardEach (item :: rest) mark = onwardEach rest (item.onward mark) := rfl
    simp only [split, ih, onward_eq_some, anyTerminates, Bool.or_eq_false_iff, raiseEach,
      List.foldl_cons]
    constructor
    · rintro ⟨others, _, ⟨goes, level, isLevel, rfl⟩, raised⟩
      exact ⟨⟨goes, others⟩, level, isLevel, raised⟩
    · rintro ⟨⟨goes, others⟩, level, isLevel, raised⟩
      exact ⟨others, _, ⟨goes, level, isLevel, rfl⟩, raised⟩

/-- The blocks of an expression can be marked wherever it fits. -/
def Grades (home : Home) (dialect : Dialect) (expr : Expr) : Prop :=
  ∀ start, (∀ level, start = some level → expr.Fits home.isMain dialect level) →
    (expr.fragment home.isMain).Graded (home.gauge dialect) expr.jumpBlocks expr.escapes start
      (expr.onward start) start

/-- The same, seen from a loop with a mark of its own. -/
theorem Grades.within (grades : expr.Grades home dialect)
    (fits : ∀ level, start = some level → expr.Fits home.isMain dialect level)
    (same : expr.escapes = true → ∀ level, start = some level → base = some level) :
    (expr.fragment home.isMain).Graded (home.gauge dialect) expr.jumpBlocks expr.escapes start
      (expr.onward start) base :=
  (grades start fits).rebase (fun first _ => expr.escapes_of_mem_jumpBlocks first) same

/-- The first of several expressions that may be executed one after the other. -/
theorem graded_item (grades : item.Grades home dialect)
    (fits : ∀ level, mark = some level → ∃ bottom, base = some bottom ∧
      FitEach home.isMain dialect bottom (item :: rest) level) :
    (item.fragment home.isMain).Graded (home.gauge dialect) item.jumpBlocks item.escapes mark
        (item.onward mark) base ∧
      ∀ level, item.onward mark = some level → ∃ bottom, base = some bottom ∧
        FitEach home.isMain dialect bottom rest level := by
  refine ⟨grades.within (fun level isLevel => ?_) fun out level isLevel => ?_,
    fun after isAfter => ?_⟩
  · obtain ⟨_, _, fits, _⟩ := fits level isLevel
    exact fits
  · obtain ⟨bottom, isBase, _, same, _⟩ := fits level isLevel
    rw [isBase, same out]
  · obtain ⟨_, level, isLevel, rfl⟩ := onward_eq_some.mp isAfter
    obtain ⟨bottom, isBase, _, _, others⟩ := fits level isLevel
    exact ⟨bottom, isBase, others⟩

theorem graded_foldl {code : Fragment} {jumps : Nat → List Nat} {escapes : Bool}
    (each : ∀ item ∈ rest, item.Grades home dialect)
    (graded : code.Graded (home.gauge dialect) jumps escapes start mark base)
    (fits : ∀ level, mark = some level → ∃ bottom, base = some bottom ∧
      FitEach home.isMain dialect bottom rest level) :
    ((fragments home.isMain rest).foldl .attach code).Graded (home.gauge dialect)
      (fun first => jumps first ++ jumpBlocksOf (first + code.size) rest)
      (escapes || anyEscapes rest) start (onwardEach rest mark) base := by
  induction rest generalizing code jumps escapes mark with
  | nil =>
    simp only [jumpBlocksOf, anyEscapes, List.append_nil, Bool.or_false]
    exact graded
  | cons item rest ih =>
    rw [List.forall_mem_cons] at each
    obtain ⟨itemGraded, restFits⟩ := graded_item each.1 fits
    have whole := ih each.2 (graded.attach itemGraded) restFits
    simp only [Fragment.size_attach, (numbers home.isMain item).1, List.append_assoc,
      Bool.or_assoc, ← Nat.add_assoc] at whole
    simp only [jumpBlocksOf, anyEscapes]
    exact whole

theorem graded_chain (each : ∀ other ∈ item :: rest, other.Grades home dialect)
    (fits : ∀ level, start = some level → ∃ bottom, base = some bottom ∧
      FitEach home.isMain dialect bottom (item :: rest) level) :
    ((fragments home.isMain rest).foldl .attach (item.fragment home.isMain)).Graded
      (home.gauge dialect) (fun first => jumpBlocksOf first (item :: rest))
      (anyEscapes (item :: rest)) start (onwardEach (item :: rest) start) base := by
  rw [List.forall_mem_cons] at each
  obtain ⟨itemGraded, restFits⟩ := graded_item each.1 fits
  have whole := graded_foldl each.2 itemGraded restFits
  simp only [(numbers home.isMain item).1] at whole
  simp only [jumpBlocksOf, anyEscapes]
  exact whole

/-- The decision on a condition. -/
theorem tests_condition
    (fits : ∀ level, start = some level → condition.FitsTest home.isMain dialect level) :
    ∀ level, condition.onward start = some level → ∃ after,
      (home.gauge dialect).test level = some after ∧ condition.beyond start = some after := by
  intro level isLevel
  obtain ⟨goes, after, isStart, rfl⟩ := onward_eq_some.mp isLevel
  exact ⟨after, (fits after isStart).test, beyond_eq_some.mpr ⟨goes, isStart⟩⟩

/-- Behind a branch that goes on, the height is the one behind both. -/
theorem onward_thenBranch
    (isAfter : thenBranch.onward (condition.beyond mark) = some after) :
    (ifElse condition thenBranch elseBranch).onward mark = some after := by
  obtain ⟨thenGoes, level, isLevel, rfl⟩ := onward_eq_some.mp isAfter
  obtain ⟨goes, isMark⟩ := beyond_eq_some.mp isLevel
  refine onward_eq_some.mpr ⟨by simp [terminates, goes, thenGoes], level, isMark, ?_⟩
  simp [raise, width, ty, thenGoes]

theorem onward_elseBranch
    (agree : thenBranch.terminates = false → elseBranch.terminates = false →
      thenBranch.ty.isValue = elseBranch.ty.isValue)
    (isAfter : elseBranch.onward (condition.beyond mark) = some after) :
    (ifElse condition thenBranch elseBranch).onward mark = some after := by
  obtain ⟨elseGoes, level, isLevel, rfl⟩ := onward_eq_some.mp isAfter
  obtain ⟨goes, isMark⟩ := beyond_eq_some.mp isLevel
  refine onward_eq_some.mpr ⟨by simp [terminates, goes, elseGoes], level, isMark, ?_⟩
  cases thenGoes : thenBranch.terminates with
  | true => simp [raise, width, ty, thenGoes]
  | false => simp [raise, width, ty, thenGoes, agree thenGoes elseGoes]

/-- The blocks of every expression that passes the checks can be marked wherever it fits. -/
theorem Passes.grades {ids : List SubroutineId} (passes : expr.Passes home ids) :
    expr.Grades home dialect := by
  induction passes with
  | @leaf expr instrs isLeaf admitted =>
    intro start fits
    have noJumps : expr.jumpBlocks = fun _ => [] :=
      funext fun first => (blocks_of_leaf? isLeaf first).2
    rw [fragment_of_leaf? isLeaf, noJumps]
    refine .leaf fun level isLevel => through_leaf isLeaf admitted (fits level isLevel) fun goes => ?_
    exact onward_eq_some.mpr ⟨goes, level, isLevel, rfl⟩
  | @operator expr instr operands isOperator admitted _ _ each =>
    intro start fits
    have jumps : expr.jumpBlocks = fun first => jumpBlocksOf (first + 1) operands :=
      funext fun first => (blocks_of_operator? isOperator first).2
    have through : ∀ level, onwardEach operands start = some level →
        (home.gauge dialect).Through [instr] level fun after => expr.onward start = some after := by
      intro after isAfter
      obtain ⟨_, level, isLevel, rfl⟩ := onwardEach_eq_some.mp isAfter
      exact (through_operator isOperator admitted (fits level isLevel) fun goes =>
        onward_eq_some.mpr ⟨goes, level, isLevel, rfl⟩).2
    have operandsFit : ∀ level, start = some level → ∃ bottom, start = some bottom ∧
        FitEach home.isMain dialect bottom operands level := fun level isLevel =>
      ⟨level, isLevel, (@through_operator instr home dialect expr level (fun _ => True) operands
        isOperator admitted (fits level isLevel) fun _ => trivial).1⟩
    rw [fragment_of_operator? isOperator, jumps]
    cases operands with
    | nil => exact .leaf through
    | cons operand rest =>
      refine (Fragment.Graded.attachBack through (graded_chain each operandsFit)).widen fun out => ?_
      by_contra stays
      rw [← parts_of_operator? isOperator,
        anyEscapes_eq_false.mpr (parts_stay (by simpa using stays))] at out
      cases out
  | @seq init last empty _ each =>
    intro start fits
    have itemsFit : ∀ level, start = some level →
        FitEach home.isMain dialect level (init ++ [last]) level ∧
          raiseEach (init ++ [last]) level = last.raise level := fun level isLevel =>
      fitEach_items (fun item member => (fits level isLevel).part member) empty
    have same : (Expr.seq (init ++ [last])).onward start = onwardEach (init ++ [last]) start := by
      refine Option.ext fun after => ?_
      simp only [onward_eq_some, onwardEach_eq_some, terminates]
      refine and_congr_right fun _ => exists_congr fun level => and_congr_right fun isLevel => ?_
      rw [(itemsFit level isLevel).2, raise, raise, width, width, ty, lastTy_append]
    rw [same]
    cases items : init ++ [last] with
    | nil => simp at items
    | cons item rest =>
      rw [items] at each itemsFit
      have whole := graded_chain each fun level isLevel =>
        ⟨level, isLevel, (itemsFit level isLevel).1⟩
      exact whole
  | @ifThen condition thenBranch empty _ _ test taken =>
    intro start fits
    have parts := fun level isLevel => Fits.ifThen (fits level isLevel)
    have behind : ∀ level, condition.beyond start = some level →
        (Expr.ifThen condition thenBranch).onward start = some level := fun level isLevel =>
      onward_eq_some.mpr ⟨(beyond_eq_some.mp isLevel).1, level, eq_of_beyond isLevel,
        raise_of_not_isValue empty⟩
    have whole := Fragment.Graded.ifThen (test start fun level isLevel => (parts level isLevel).1.1)
      (taken.within (fun level isLevel => (parts level (eq_of_beyond isLevel)).2)
        fun _ _ => eq_of_beyond)
      (tests_condition fun level isLevel => (parts level isLevel).1) behind ?_
    · simp only [(numbers home.isMain condition).1] at whole
      exact whole
    · intro after isAfter
      obtain ⟨_, level, isLevel, rfl⟩ := onward_eq_some.mp isAfter
      rw [raise_of_not_isValue empty]
      exact behind level isLevel
  | @ifElse condition thenBranch elseBranch agree _ _ _ test taken other =>
    intro start fits
    have parts := fun level isLevel => Fits.ifElse (fits level isLevel)
    have whole := Fragment.Graded.ifElse (test start fun level isLevel => (parts level isLevel).1.1)
      (taken.within (fun level isLevel => (parts level (eq_of_beyond isLevel)).2.1)
        fun _ _ => eq_of_beyond)
      (other.within (fun level isLevel => (parts level (eq_of_beyond isLevel)).2.2)
        fun _ _ => eq_of_beyond)
      (tests_condition fun level isLevel => (parts level isLevel).1)
      (fun _ => onward_thenBranch) fun _ => onward_elseBranch agree
    simp only [(numbers home.isMain condition).1, (numbers home.isMain thenBranch).1] at whole
    exact whole
  | @whileLoop condition body empty _ _ test repeated =>
    intro start fits
    have parts := fun level isLevel => Fits.whileLoop (fits level isLevel)
    have whole := Fragment.Graded.whileLoop
      (test start fun level isLevel => (parts level isLevel).1.1)
      (repeated _ fun level isLevel => (parts level (eq_of_beyond isLevel)).2)
      (tests_condition fun level isLevel => (parts level isLevel).1) (fun _ => eq_of_beyond) ?_
    · simp only [(numbers home.isMain condition).1] at whole
      rw [onward_eq_self rfl rfl]
      exact whole.widen fun out => by rw [escapes, out, Bool.true_or]
    · intro after isAfter
      obtain ⟨_, level, isLevel, rfl⟩ := onward_eq_some.mp isAfter
      rw [raise_of_not_isValue empty]
      exact eq_of_beyond isLevel
  | breakLoop | continueLoop =>
    intro start _
    rw [onward_eq_self rfl rfl]
    exact .jump _

end Expr

end ContractBackend
