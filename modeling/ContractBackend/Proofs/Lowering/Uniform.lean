import ContractBackend.Compile
import ContractBackend.Proofs.Lowering.Steps
import ContractBackend.Proofs.Program

/-!
# Lowering does not depend on its surroundings

Of the program, lowering sees nothing but what has been declared, so which bodies have been built
makes no difference to it. The version makes a difference in one way only: where it is too old,
lowering fails. Two runs of the same step that both succeed therefore do the same.
-/

namespace ContractBackend

namespace Context

/-- The same state of lowering, for another program and another version. -/
def moved (context : Context) (program : Program) (version : Version) : Context :=
  { context with program, version }

end Context

namespace Lowering

variable {α β : Type} {expr condition : Expr}

def Succeeds (step : LowerM α) (context : Context) : Prop :=
  ∃ result after, Yields step context result after

/-- A step does the same for another program with the same declarations; for another version, it
does so where it succeeds for both. -/
def Uniform (step : LowerM α) : Prop :=
  ∀ (context : Context) (program : Program) (version : Version),
    context.program.SameDeclarations program →
    version = context.version ∨ (Succeeds step context ∧ Succeeds step (context.moved program version)) →
    outcome step (context.moved program version) =
      ((outcome step context).1, (outcome step context).2.moved program version)

theorem outcome_get (context : Context) : outcome get context = (.ok context, context) := rfl

theorem outcome_lift (value : Except CompileError α) (context : Context) :
    outcome (liftM value) context = (value, context) :=
  rfl

variable {step first : LowerM α} {rest : α → LowerM β} {context : Context}

theorem Succeeds.of_bind (succeeds : Succeeds (first >>= rest) context) : Succeeds first context := by
  obtain ⟨result, after, yields⟩ := succeeds
  obtain ⟨value, middle, yields, _⟩ := yields_bind.mp yields
  exact ⟨value, middle, yields⟩

theorem Succeeds.behind {value : α} {middle : Context} (succeeds : Succeeds (first >>= rest) context)
    (yields : outcome first context = (.ok value, middle)) : Succeeds (rest value) middle := by
  obtain ⟨result, after, both⟩ := succeeds
  obtain ⟨other, between, isFirst, isRest⟩ := yields_bind.mp both
  rw [Yields, yields] at isFirst
  cases isFirst
  exact ⟨result, after, isRest⟩

/-- A step that does not depend on its surroundings leaves them as they are. -/
theorem Uniform.keeps (uniform : Uniform step) (context : Context) :
    (outcome step context).2.program = context.program ∧
      (outcome step context).2.version = context.version := by
  have same := uniform context context.program context.version (.refl _) (.inl rfl)
  have unmoved : context.moved context.program context.version = context := rfl
  rw [unmoved] at same
  rw [same]
  exact ⟨rfl, rfl⟩

/-- A step that looks neither at the program nor at the version. -/
theorem uniform_of_blind (blind : ∀ (context : Context) (program : Program) (version : Version),
    outcome step (context.moved program version) =
      ((outcome step context).1, (outcome step context).2.moved program version)) :
    Uniform step :=
  fun context program version _ _ => blind context program version

theorem Uniform.bind (start : Uniform first) (behind : ∀ value, Uniform (rest value)) :
    Uniform (first >>= rest) := by
  intro context program version same agrees
  have isFirst := start context program version same
    (agrees.imp_right fun both => ⟨both.1.of_bind, both.2.of_bind⟩)
  have keeps := start.keeps context
  rw [outcome_bind, outcome_bind, isFirst]
  rcases here : outcome first context with ⟨_ | value, middle⟩
  · rfl
  · rw [here] at isFirst keeps
    obtain ⟨program', version'⟩ := keeps
    simp only at program' version'
    refine behind value middle program version (program' ▸ same) ?_
    rw [version']
    exact agrees.imp_right fun both => ⟨both.1.behind here, both.2.behind isFirst⟩

theorem uniform_pure (value : α) : Uniform (pure value : LowerM α) :=
  uniform_of_blind fun _ _ _ => rfl

theorem uniform_throw (cause : CompileError) : Uniform (throw cause : LowerM α) :=
  uniform_of_blind fun _ _ _ => rfl

theorem uniform_lift (value : Except CompileError α) : Uniform (liftM value : LowerM α) :=
  uniform_of_blind fun _ _ _ => rfl

/-- A check in front of further steps. -/
theorem uniform_guard {cause : CompileError} {condition : Prop} [Decidable condition]
    {rest : PUnit → LowerM α} (behind : Uniform (rest ⟨⟩)) :
    Uniform (if condition then throw cause >>= rest else rest ⟨⟩) := by
  split
  next => exact uniform_of_blind fun _ _ _ => rfl
  next => exact behind

/-- A step that looks at something else of the context. -/
theorem uniform_get {rest : Context → LowerM α}
    (unmoved : ∀ context program version, rest (context.moved program version) = rest context)
    (each : ∀ context, Uniform (rest context)) : Uniform (get >>= rest) := by
  intro context program version same agrees
  have unfolded : ∀ context, outcome (get >>= rest) context = outcome (rest context) context :=
    fun _ => rfl
  have succeeds : ∀ context, Succeeds (get >>= rest) context → Succeeds (rest context) context :=
    fun _ succeeds => succeeds
  rw [unfolded, unfolded, unmoved]
  refine each context context program version same (agrees.imp_right fun both => ?_)
  exact ⟨succeeds _ both.1, unmoved context program version ▸ succeeds _ both.2⟩

/-! ## Steps -/

theorem uniform_addBlock (block : Block) : Uniform (addBlock block) :=
  uniform_of_blind fun _ _ _ => rfl

/-- A step that changes the graph. -/
theorem uniform_regraph (change : Graph → Except CompileError Graph) :
    Uniform (do let context ← get; set { context with graph := ← change context.graph } :
      LowerM PUnit) := by
  refine uniform_of_blind fun context program version => ?_
  have graph : (context.moved program version).graph = context.graph := rfl
  simp only [outcome_bind, outcome_get, outcome_lift, graph]
  cases change context.graph <;> rfl

theorem uniform_setNext (source target : BlockId) : Uniform (setNext source target) :=
  uniform_regraph fun graph => graph.setNext source target

theorem uniform_setBranches (source onTrue onFalse : BlockId) :
    Uniform (setBranches source onTrue onFalse) :=
  uniform_regraph fun graph => graph.setBranches source onTrue onFalse

theorem uniform_addBreak (block : BlockId) : Uniform (addBreak block) := by
  refine uniform_of_blind fun context program version => ?_
  obtain ⟨_, _, _, _, loops, _⟩ := context
  cases loops <;> rfl

theorem uniform_addContinue (block : BlockId) : Uniform (addContinue block) := by
  refine uniform_of_blind fun context program version => ?_
  obtain ⟨_, _, _, _, loops, _⟩ := context
  cases loops <;> rfl

theorem uniform_exitLoop : Uniform exitLoop := by
  refine uniform_of_blind fun context program version => ?_
  obtain ⟨_, _, _, _, loops, _⟩ := context
  cases loops <;> rfl

theorem outcome_requireVersion (expr : Expr) (context : Context) :
    outcome (requireVersion expr) context =
      if context.version < expr.minVersion then
        (.error (.versionMismatch expr.name expr.minVersion context.version context.routineName),
          context)
      else (.ok (), context) := by
  simp only [requireVersion, outcome_bind, outcome_get]
  split <;> rfl

/-- Only here the version is looked at. -/
theorem uniform_requireVersion (expr : Expr) : Uniform (requireVersion expr) := by
  intro context program version same agrees
  rcases agrees with rfl | ⟨⟨_, _, here⟩, ⟨_, _, there⟩⟩
  · by_cases old : context.version < expr.minVersion
    · have older : (context.moved program context.version).version < expr.minVersion := old
      rw [outcome_requireVersion, outcome_requireVersion, if_pos old, if_pos older]
      rfl
    · have recent : ¬ (context.moved program context.version).version < expr.minVersion := old
      rw [outcome_requireVersion, outcome_requireVersion, if_neg old, if_neg recent]
  · rw [Yields, outcome_requireVersion] at here there
    rw [outcome_requireVersion, outcome_requireVersion]
    split at here
    next => cases here
    next recent =>
      split at there
      next => cases there
      next recentToo => rw [if_neg recent, if_neg recentToo]

/-- Only here the program is looked at. -/
theorem uniform_checkCall (target : Handle) (arguments : List Expr) :
    Uniform (checkCall target arguments) := by
  intro context program version same _
  have moved : (context.moved program version).program = program := rfl
  have declared := congrFun same.declared target.id
  simp only [checkCall, outcome_bind, outcome_get, outcome_lift, moved]
  cases here : context.program.resolve target with
  | error cause =>
    rw [Program.resolve_eq_error, ← declared, ← Program.resolve_eq_error] at here
    rw [here]
  | ok =>
    cases there : program.resolve target with
    | error =>
      rw [Program.resolve_eq_error, declared, ← Program.resolve_eq_error, here] at there
      cases there
    | ok =>
      simp only
      split
      next => rfl
      next => split <;> rfl

/-- The body of a loop is lowered with the loop open, and the loop is closed behind it in any
case. -/
theorem uniform_loopBody {body : LowerM α} {rest : α → LoopExits → LowerM β} (inner : Uniform body)
    (behind : ∀ value exits, Uniform (rest value exits)) :
    Uniform (do
      enterLoop
      let outcome ← attempt body
      let exits ← exitLoop
      let value ← outcome
      rest value exits) := by
  intro context program version same agrees
  let closing : Except CompileError α → LowerM β := fun result => do
    let exits ← exitLoop
    let value ← result
    rest value exits
  have closes : ∀ result, Uniform (closing result) := fun result =>
    uniform_exitLoop.bind fun exits => (uniform_lift _).bind fun value => behind value exits
  -- What the whole comes to, by what the body comes to.
  have unfolded : ∀ context : Context, outcome (do
      enterLoop
      let outcome ← attempt body
      let exits ← exitLoop
      let value ← outcome
      rest value exits) context =
    outcome (closing (outcome body { context with loops := {} :: context.loops }).1)
      (outcome body { context with loops := {} :: context.loops }).2 := fun _ => rfl
  have lowered : ∀ context : Context, Succeeds (do
      enterLoop
      let outcome ← attempt body
      let exits ← exitLoop
      let value ← outcome
      rest value exits) context →
      Succeeds body { context with loops := {} :: context.loops } ∧
        Succeeds (closing (outcome body { context with loops := {} :: context.loops }).1)
          (outcome body { context with loops := {} :: context.loops }).2 := by
    rintro context ⟨result, after, yields⟩
    rw [Yields, unfolded] at yields
    refine ⟨?_, result, after, yields⟩
    obtain ⟨exits, closed, _, yields⟩ := yields_bind.mp yields
    obtain ⟨value, _, isOk, _⟩ := yields_bind.mp yields
    exact ⟨value, _, Prod.ext (yields_lift.mp isOk).1 rfl⟩
  have isBody := inner { context with loops := {} :: context.loops } program version same
    (agrees.imp_right fun both => ⟨(lowered _ both.1).1, (lowered _ both.2).1⟩)
  have keeps := inner.keeps { context with loops := {} :: context.loops }
  have opened : { context.moved program version with
      loops := {} :: (context.moved program version).loops } =
    Context.moved { context with loops := {} :: context.loops } program version := rfl
  have agreesToo := agrees.imp_right fun both => And.intro (lowered _ both.1).2 (lowered _ both.2).2
  rw [opened, isBody] at agreesToo
  rw [unfolded, unfolded, opened, isBody]
  refine closes _ _ program version (keeps.1.symm ▸ same) ?_
  rwa [keeps.2]

/-! ## Expressions -/

theorem uniform_wholeBlock (instrs : List Instr) :
    Uniform (do let block ← simple instrs; pure ⟨block, block⟩ : LowerM Span) :=
  (uniform_addBlock _).bind fun _ => uniform_pure _

theorem uniform_chainFrom {items : List Expr} (each : ∀ item ∈ items, Uniform item.lower)
    (exit : BlockId) : Uniform (chainFrom exit (Expr.lowerEach items)) := by
  induction items generalizing exit with
  | nil => exact uniform_pure _
  | cons item rest ih =>
    rw [List.forall_mem_cons] at each
    exact each.1.bind fun span => (uniform_setNext _ _).bind fun _ => ih each.2 _

theorem uniform_chain {first : Expr} {rest : List Expr}
    (each : ∀ item ∈ first :: rest, Uniform item.lower) :
    Uniform (chain first.lower (Expr.lowerEach rest)) := by
  rw [List.forall_mem_cons] at each
  exact each.1.bind fun span => (uniform_chainFrom each.2 _).bind fun _ => uniform_pure _

theorem uniform_fromInstr {operands : List Expr} (each : ∀ operand ∈ operands, Uniform operand.lower)
    (instr : Instr) : Uniform (fromInstr instr (Expr.lowerEach operands)) := by
  refine (uniform_addBlock _).bind fun block => ?_
  cases operands with
  | nil => exact uniform_pure _
  | cons first rest =>
    exact (uniform_chain each).bind fun span => (uniform_setNext _ _).bind fun _ => uniform_pure _

theorem uniform_lowerCondition {condition : LowerM Span} (uniform : Uniform condition) :
    Uniform (lowerCondition condition) :=
  uniform.bind fun _ => (uniform_addBlock _).bind fun _ => (uniform_setNext _ _).bind fun _ =>
    uniform_pure _

theorem uniform_checkItems (items : List Expr) : Uniform (checkItems items) := by
  induction items with
  | nil => exact uniform_pure _
  | cons item rest ih =>
    cases rest with
    | nil => exact uniform_pure _
    | cons next others =>
      rw [checkItems]
      · exact uniform_guard ih
      · rintro ⟨⟩

theorem uniform_forM_setNext (ids : List BlockId) (target : BlockId) :
    Uniform (ids.forM fun id => setNext id target) := by
  induction ids with
  | nil => exact uniform_pure _
  | cons id rest ih => exact (uniform_setNext _ _).bind fun _ => ih

theorem uniform_lower_of_rest {rest : LowerM Span}
    (isLower : expr.lower = requireVersion expr >>= fun _ => rest) (behind : Uniform rest) :
    Uniform expr.lower := by
  rw [isLower]
  exact (uniform_requireVersion expr).bind fun _ => behind

theorem uniform_leaf {instrs : List Instr} (isLeaf : expr.leaf? = some instrs) :
    Uniform expr.lower := by
  refine uniform_lower_of_rest (by rw [Expr.lower.eq_def]) ?_
  cases expr with
  | seq items =>
    cases items with
    | nil => exact (uniform_pure _).bind fun _ => uniform_wholeBlock []
    | cons => cases isLeaf
  | ret =>
    refine uniform_get (fun _ _ _ => rfl) fun context => ?_
    split
    next => exact uniform_throw _
    next => exact uniform_wholeBlock _
    next => exact uniform_throw _
  | int | bytes | text | field | sigArg | exit | abort | load | slotIndex | inline =>
    exact uniform_wholeBlock _
  | _ => cases isLeaf

theorem uniform_operator {main : Bool} {instr : Instr} {operands : List Expr}
    (isOperator : expr.operator? main = some (instr, operands))
    (each : ∀ operand ∈ operands, Uniform operand.lower) : Uniform expr.lower := by
  refine uniform_lower_of_rest (by rw [Expr.lower.eq_def]) ?_
  cases expr with
  | binary | loadIndirect | storeIndirect | stateGet | statePut =>
    cases isOperator
    exact uniform_fromInstr each _
  | unary | store =>
    cases isOperator
    simp only
    split
    next => exact uniform_fromInstr each _
    next => exact uniform_throw _
  | retValue value =>
    cases isOperator
    refine uniform_get (fun _ _ _ => rfl) fun context => ?_
    split
    next => exact uniform_fromInstr each _
    next =>
      split
      next => exact uniform_fromInstr each _
      next => exact uniform_throw _
    next => exact uniform_throw _
  | call target arguments =>
    cases isOperator
    refine (uniform_checkCall target _).bind fun _ => ?_
    exact (uniform_of_blind fun _ _ _ => rfl).bind fun _ => uniform_fromInstr each _
  | _ => cases isOperator

theorem uniform_ifThen {thenBranch : Expr} (test : Uniform condition.lower)
    (taken : Uniform thenBranch.lower) : Uniform (Expr.ifThen condition thenBranch).lower := by
  refine uniform_lower_of_rest (by rw [Expr.lower.eq_def]) (uniform_guard ?_)
  refine (uniform_lowerCondition test).bind fun branch => taken.bind fun thenSpan => ?_
  refine (uniform_addBlock _).bind fun join => (uniform_setNext _ _).bind fun _ => ?_
  exact (uniform_setBranches _ _ _).bind fun _ => uniform_pure _

theorem uniform_ifElse {thenBranch elseBranch : Expr} (test : Uniform condition.lower)
    (taken : Uniform thenBranch.lower) (passed : Uniform elseBranch.lower) :
    Uniform (Expr.ifElse condition thenBranch elseBranch).lower := by
  refine uniform_lower_of_rest (by rw [Expr.lower.eq_def]) ?_
  have checks : Uniform (checkBranches thenBranch elseBranch) := by
    rw [checkBranches]
    split
    next => exact uniform_throw _
    next => exact uniform_pure _
  refine checks.bind fun _ => ?_
  refine (uniform_lowerCondition test).bind fun branch => taken.bind fun thenSpan => ?_
  refine (uniform_addBlock _).bind fun join => (uniform_setNext _ _).bind fun _ => ?_
  refine passed.bind fun elseSpan => (uniform_setNext _ _).bind fun _ => ?_
  exact (uniform_setBranches _ _ _).bind fun _ => uniform_pure _

theorem uniform_whileLoop {body : Expr} (test : Uniform condition.lower)
    (inner : Uniform body.lower) : Uniform (Expr.whileLoop condition body).lower := by
  refine uniform_lower_of_rest (by rw [Expr.lower.eq_def]) (uniform_guard ?_)
  refine (uniform_lowerCondition test).bind fun branch => ?_
  refine uniform_loopBody inner fun bodySpan exits => ?_
  refine (uniform_addBlock _).bind fun join => (uniform_setBranches _ _ _).bind fun _ => ?_
  refine (uniform_setNext _ _).bind fun _ => (uniform_forM_setNext _ _).bind fun _ => ?_
  exact (uniform_forM_setNext _ _).bind fun _ => uniform_pure _

/-- Lowering an expression does not depend on its surroundings. -/
theorem uniform_lower (expr : Expr) : Uniform expr.lower := by
  suffices compositional : Expr.Compositional true fun expr => Uniform expr.lower from
    compositional.all expr
  constructor
  case leaf => exact fun _ _ isLeaf => uniform_leaf isLeaf
  case operator => exact fun _ _ _ isOperator each => uniform_operator isOperator each
  case seq =>
    intro init last each final
    have all : ∀ item ∈ init ++ [last], Uniform item.lower := by
      simpa [or_imp, forall_and] using ⟨each, final⟩
    refine uniform_lower_of_rest (by rw [Expr.lower.eq_def]) ?_
    refine (uniform_checkItems _).bind fun _ => ?_
    cases items : init ++ [last] with
    | nil => simp at items
    | cons first rest =>
      rw [items] at all
      exact uniform_chain all
  case ifThen => exact fun _ _ => uniform_ifThen
  case ifElse => exact fun _ _ _ => uniform_ifElse
  case whileLoop => exact fun _ _ => uniform_whileLoop
  case breakLoop =>
    refine uniform_lower_of_rest (by rw [Expr.lower.eq_def]) ?_
    exact (uniform_addBlock _).bind fun _ => (uniform_addBreak _).bind fun _ => uniform_pure _
  case continueLoop =>
    refine uniform_lower_of_rest (by rw [Expr.lower.eq_def]) ?_
    exact (uniform_addBlock _).bind fun _ => (uniform_addContinue _).bind fun _ => uniform_pure _

end Lowering

/-! ## Routines -/

namespace Compile

open Lowering

theorem uniform_append (exit : BlockId) (op : Opcode) : Uniform (append exit op) :=
  (uniform_addBlock _).bind fun _ => uniform_setNext _ _

theorem uniform_finishMain (main : Expr) (exit : BlockId) : Uniform (finishMain main exit) := by
  rw [finishMain]
  split
  next => exact uniform_pure _
  next =>
    split
    next => exact uniform_append _ _
    next => exact uniform_append _ _
    next => exact uniform_throw _
    next => exact uniform_throw _

theorem uniform_finishSubroutine (handle : Handle) (body : Expr) (exit : BlockId) :
    Uniform (finishSubroutine handle body exit) := by
  rw [finishSubroutine]
  split
  next => exact uniform_pure _
  next =>
    split
    next => exact uniform_throw _
    next => exact uniform_throw _
    next => exact uniform_append _ _

/-- A routine is handed over and prepared. -/
theorem uniform_hand (entry : BlockId) :
    Uniform (do let graph ← finishRoutine; RoutineGraph.prepare ⟨graph, entry⟩ :
      LowerM RoutineGraph) :=
  (uniform_of_blind fun _ _ _ => rfl).bind fun _ => uniform_lift _

theorem uniform_lowerMain (main : Expr) : Uniform (lowerMain main) := by
  refine (uniform_of_blind fun _ _ _ => rfl).bind fun _ => ?_
  refine (uniform_lower main).bind fun span => ?_
  exact (uniform_finishMain main span.exit).bind fun _ => uniform_hand span.entry

/-- What is done for a subroutine once its body is at hand. -/
def lowerBody (handle : Handle) (params : List Var) (body : Expr) : LowerM RoutineGraph := do
  beginRoutine (some handle)
  let entry ← simple (params.reverse.map fun param => .store param.slot)
  let span ← body.lower
  setNext entry span.entry
  finishSubroutine handle body span.exit
  let graph ← finishRoutine
  RoutineGraph.prepare ⟨graph, entry⟩

theorem uniform_lowerBody (handle : Handle) (params : List Var) (body : Expr) :
    Uniform (lowerBody handle params body) := by
  refine (uniform_of_blind fun _ _ _ => rfl).bind fun _ => (uniform_addBlock _).bind fun entry => ?_
  refine (uniform_lower body).bind fun span => (uniform_setNext _ _).bind fun _ => ?_
  exact (uniform_finishSubroutine handle body span.exit).bind fun _ => uniform_hand entry

end Compile

end ContractBackend
