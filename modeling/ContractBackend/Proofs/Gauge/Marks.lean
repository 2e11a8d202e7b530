import ContractBackend.Proofs.Gauge.Heights

/-!
# Marks of blocks

The blocks of a piece of code are marked with what a gauge knows where control comes to them, and
not marked where it does not. The marks agree if each block that is marked may be executed, and
goes on at blocks that are marked with what it leaves. The blocks of an expression are numbered in
the order in which they are made.
-/

namespace ContractBackend

/-- How many values are taken off the stack where control goes on. -/
def Shape.taken : Shape → Nat
  | .simple _ => 0
  | .conditional _ _ => 1

namespace Expr

/-! ## Numbers of blocks -/

mutual

/-- How many blocks the code of an expression has. -/
def blocks : Expr → Nat
  | .seq items => if items.isEmpty then 1 else blocksOf items
  | .ifThen condition body | .whileLoop condition body => condition.blocks + 1 + (body.blocks + 1)
  | .ifElse condition thenBranch elseBranch =>
      condition.blocks + 1 + (thenBranch.blocks + 1 + elseBranch.blocks)
  | .binary _ left right | .storeIndirect left right | .statePut left right =>
      1 + (left.blocks + right.blocks)
  | .unary _ part | .retValue part | .store _ part | .loadIndirect part | .stateGet part =>
      1 + part.blocks
  | .call _ arguments => 1 + blocksOf arguments
  | .int _ | .bytes _ | .text _ | .field .. | .sigArg _ | .breakLoop | .continueLoop | .ret
  | .exit _ | .abort | .load .. | .slotIndex _ | .inline _ => 1

/-- How many blocks the code of several expressions has. -/
def blocksOf : List Expr → Nat
  | [] => 0
  | item :: rest => item.blocks + blocksOf rest

end

mutual

/-- The blocks of the code of an expression that leave or repeat a loop, if the blocks of the code
are numbered from a first one on. -/
def jumpBlocks (first : BlockId) : Expr → List BlockId
  | .breakLoop | .continueLoop => [first]
  | .seq items => jumpBlocksOf first items
  | .ifThen condition body | .whileLoop condition body =>
      condition.jumpBlocks first ++ body.jumpBlocks (first + (condition.blocks + 1))
  | .ifElse condition thenBranch elseBranch =>
      condition.jumpBlocks first ++ (thenBranch.jumpBlocks (first + (condition.blocks + 1)) ++
        elseBranch.jumpBlocks (first + (condition.blocks + 1) + (thenBranch.blocks + 1)))
  | .binary _ left right | .storeIndirect left right | .statePut left right =>
      left.jumpBlocks (first + 1) ++ right.jumpBlocks (first + 1 + left.blocks)
  | .unary _ part | .retValue part | .store _ part | .loadIndirect part | .stateGet part =>
      part.jumpBlocks (first + 1)
  | .call _ arguments => jumpBlocksOf (first + 1) arguments
  | .int _ | .bytes _ | .text _ | .field .. | .sigArg _ | .ret | .exit _ | .abort | .load ..
  | .slotIndex _ | .inline _ => []

/-- The blocks of the code of several expressions, one behind the other, that do so. -/
def jumpBlocksOf (first : BlockId) : List Expr → List BlockId
  | [] => []
  | item :: rest => item.jumpBlocks first ++ jumpBlocksOf (first + item.blocks) rest

end

variable {expr : Expr} {main : Bool} {instr : Instr} {instrs : List Instr} {operands : List Expr}
  {id : BlockId}

theorem blocks_of_leaf? (isLeaf : expr.leaf? = some instrs) (first : BlockId) :
    expr.blocks = 1 ∧ expr.jumpBlocks first = [] := by
  cases expr with
  | seq items =>
    cases items with
    | nil => exact ⟨by simp [blocks], by simp [jumpBlocks, jumpBlocksOf]⟩
    | cons => cases isLeaf
  | int | bytes | text | field | sigArg | ret | exit | abort | load | slotIndex | inline =>
    exact ⟨by rw [blocks], by rw [jumpBlocks]⟩
  | _ => cases isLeaf

theorem blocks_of_operator? (isOperator : expr.operator? main = some (instr, operands))
    (first : BlockId) :
    expr.blocks = 1 + blocksOf operands ∧
      expr.jumpBlocks first = jumpBlocksOf (first + 1) operands := by
  cases expr with
  | binary | unary | retValue | store | loadIndirect | storeIndirect | stateGet | statePut | call =>
    cases isOperator
    simp [blocks, blocksOf, jumpBlocks, jumpBlocksOf]
  | _ => cases isOperator

theorem mem_jumpBlocksOf {items : List Expr} {first : BlockId}
    (member : id ∈ jumpBlocksOf first items) : ∃ item ∈ items, ∃ place, id ∈ item.jumpBlocks place := by
  induction items generalizing first with
  | nil => simp [jumpBlocksOf] at member
  | cons item rest ih =>
    rw [jumpBlocksOf, List.mem_append] at member
    rcases member with here | later
    · exact ⟨item, List.mem_cons_self, first, here⟩
    · obtain ⟨other, inRest, found⟩ := ih later
      exact ⟨other, List.mem_cons_of_mem _ inRest, found⟩

/-- Where no control gets out of an expression, it has no such blocks. -/
theorem escapes_of_mem_jumpBlocks (expr : Expr) (first : BlockId)
    (member : id ∈ expr.jumpBlocks first) : expr.escapes = true := by
  induction expr using parts_induction generalizing first with
  | whole expr ih =>
    have ofPart : ∀ part ∈ expr.parts, ∀ place, id ∈ part.jumpBlocks place →
        expr.escapes = true := by
      intro part isPart place inPart
      exact escapes_of_part isPart (ih part isPart place inPart)
    cases expr with
    | breakLoop | continueLoop => rfl
    | seq items | call _ items =>
      rw [jumpBlocks] at member
      obtain ⟨item, isItem, place, inItem⟩ := mem_jumpBlocksOf member
      exact ofPart item isItem place inItem
    | _ =>
      rw [jumpBlocks] at member
      grind [parts]

/-- The code of an expression has as many blocks as it is said to, and its jumps are among the
blocks that leave or repeat a loop. -/
def Numbers (main : Bool) (expr : Expr) : Prop :=
  (expr.fragment main).size = expr.blocks ∧
    ∀ jump first, ∀ id ∈ (expr.fragment main).jumps jump first, id ∈ expr.jumpBlocks first

theorem numbers_foldl {items : List Expr} (each : ∀ item ∈ items, item.Numbers main)
    (code : Fragment) :
    ((fragments main items).foldl .attach code).size = code.size + blocksOf items ∧
      ∀ jump first, ∀ id ∈ ((fragments main items).foldl .attach code).jumps jump first,
        id ∈ code.jumps jump first ∨ id ∈ jumpBlocksOf (first + code.size) items := by
  induction items generalizing code with
  | nil => exact ⟨rfl, fun _ _ _ => .inl⟩
  | cons item rest ih =>
    rw [List.forall_mem_cons] at each
    obtain ⟨size, jumps⟩ := ih each.2 (code.attach (item.fragment main))
    rw [Fragment.size_attach, each.1.1, Nat.add_assoc] at size
    refine ⟨size, fun jump first id member => ?_⟩
    have split := jumps jump first id member
    rw [Fragment.jumps_attach, Fragment.size_attach, each.1.1, ← Nat.add_assoc, List.mem_append,
      or_assoc] at split
    rw [jumpBlocksOf, List.mem_append]
    exact split.imp_right (Or.imp_left (each.1.2 jump _ id))

theorem numbers_sequence {item : Expr} {rest : List Expr}
    (each : ∀ other ∈ item :: rest, other.Numbers main) :
    ((fragments main rest).foldl .attach (item.fragment main)).size = blocksOf (item :: rest) ∧
      ∀ jump first, ∀ id ∈ ((fragments main rest).foldl .attach (item.fragment main)).jumps jump first,
        id ∈ jumpBlocksOf first (item :: rest) := by
  rw [List.forall_mem_cons] at each
  obtain ⟨size, jumps⟩ := numbers_foldl each.2 (item.fragment main)
  rw [each.1.1] at size jumps
  refine ⟨size, fun jump first id member => ?_⟩
  rw [jumpBlocksOf, List.mem_append]
  exact (jumps jump first id member).imp_left (each.1.2 jump first id)

theorem numbers (main : Bool) (expr : Expr) : expr.Numbers main := by
  suffices compositional : Compositional main (Numbers main) from compositional.all expr
  constructor
  case leaf =>
    intro expr instrs isLeaf
    rw [Numbers, fragment_of_leaf? isLeaf, (blocks_of_leaf? isLeaf 0).1]
    exact ⟨rfl, fun _ _ => List.forall_mem_nil _⟩
  case operator =>
    intro expr instr operands isOperator each
    rw [Numbers, fragment_of_operator? isOperator, (blocks_of_operator? isOperator 0).1]
    simp only [(blocks_of_operator? isOperator _).2]
    cases operands with
    | nil => exact ⟨rfl, fun _ _ => List.forall_mem_nil _⟩
    | cons operand rest =>
      obtain ⟨size, jumps⟩ := numbers_sequence each
      exact ⟨congrArg (1 + ·) size, fun jump first id => jumps jump (first + 1) id⟩
  case seq =>
    intro init last each final
    have all : ∀ item ∈ init ++ [last], item.Numbers main :=
      List.forall_mem_append.mpr ⟨each, List.forall_mem_singleton.mpr final⟩
    cases items : init ++ [last] with
    | nil => simp at items
    | cons item rest =>
      rw [items] at all
      simp only [Numbers, blocks, jumpBlocks]
      exact numbers_sequence all
  case ifThen =>
    intro condition thenBranch test taken
    simp only [Numbers, fragment, Fragment.ifThen, Fragment.attach, Fragment.fork, Fragment.leaf,
      blocks, jumpBlocks, test.1, taken.1, List.mem_append, List.append_nil, Nat.add_assoc]
    exact ⟨by omega, fun jump first id => Or.imp (test.2 jump _ id) (taken.2 jump _ id)⟩
  case ifElse =>
    intro condition thenBranch elseBranch test taken other
    simp only [Numbers, fragment, Fragment.ifElse, Fragment.attach, Fragment.attachBack,
      Fragment.fork, Fragment.leaf, blocks, jumpBlocks, test.1, taken.1, other.1, List.mem_append,
      List.append_nil, Nat.add_assoc]
    exact ⟨by omega, fun jump first id => Or.imp (test.2 jump _ id)
      (Or.imp (taken.2 jump _ id) (other.2 jump _ id))⟩
  case whileLoop =>
    intro condition body test repeated
    simp only [Numbers, fragment, Fragment.whileLoop, blocks, jumpBlocks, test.1, repeated.1,
      List.mem_append]
    exact ⟨by omega, fun jump first id member => .inl (test.2 jump _ id member)⟩
  case breakLoop =>
    exact ⟨rfl, fun jump first id member => by
      cases jump <;> simp_all [fragment, Fragment.jump, jumpBlocks]⟩
  case continueLoop =>
    exact ⟨rfl, fun jump first id member => by
      cases jump <;> simp_all [fragment, Fragment.jump, jumpBlocks]⟩

end Expr

/-! ## Marks -/

section Marks

variable {α : Type} {gauge : Gauge α} {level : α}

/-- Control goes on at blocks that are marked with what is known behind a block. -/
inductive Shape.Hands (gauge : Gauge α) (marks : Nat → Option α) : Shape → α → Prop where
  | simple {target : Nat} {level : α} : marks target = some level →
      Hands gauge marks (.simple (some target)) level
  | conditional {onTrue onFalse : Nat} {level after : α} : gauge.test level = some after →
      marks onTrue = some after → marks onFalse = some after →
      Hands gauge marks (.conditional (some onTrue) (some onFalse)) level

/-- A block that is marked may be executed, and its targets are marked with what it leaves. -/
def Block.Agrees (gauge : Gauge α) (marks : Nat → Option α) (id : Nat) (block : Block) : Prop :=
  ∀ level, marks id = some level → gauge.Through block.instrs level (block.shape.Hands gauge marks)

/-- Control comes to a place with what a mark says, if it comes there. -/
def Arrives (marks : Nat → Option α) (mark : Option α) (place : Option Nat) : Prop :=
  ∀ level, mark = some level → ∃ target, place = some target ∧ marks target = some level

section Arrives

variable {marks : Nat → Option α} {behind middle : Option α}

theorem hands_next {next : Option Nat} (arrives : Arrives marks behind next)
    (isBehind : behind = some level) : (Shape.simple next).Hands gauge marks level := by
  obtain ⟨target, rfl, isMarked⟩ := arrives level isBehind
  exact .simple isMarked

theorem arrives_some {target : Nat} (isMarked : marks target = behind) :
    Arrives marks behind (some target) :=
  fun _ isBehind => ⟨target, rfl, isMarked.trans isBehind⟩

theorem Arrives.mono {place : Option Nat} (arrives : Arrives marks behind place)
    (fewer : ∀ level, middle = some level → behind = some level) : Arrives marks middle place :=
  fun level isLevel => arrives level (fewer level isLevel)

end Arrives

/-- The marks of code that stands at some place: its first block has the mark it starts with, and
blocks that leave or repeat a loop have the mark of the loop if they have any. The marks agree if
control comes with the right marks to wherever the code goes on. -/
structure Fragment.Marked (gauge : Gauge α) (code : Fragment) (jumps : List Nat) (escapes : Bool)
    (start behind base : Option α) (first : Nat) (marks : Nat → Option α) : Prop where
  entry : marks (code.entry first) = start
  jumping : ∀ id ∈ jumps, ∀ level, marks id = some level → base = some level
  agrees : ∀ next loop, Arrives marks behind next →
    (escapes = true → ∀ jump, loop jump = none ∨ Arrives marks base (loop jump)) →
    EachFrom (Block.Agrees gauge marks) first (code.blocks first next loop)

/-- Blocks can be marked, wherever they stand and whatever the marks of other blocks, so that
something holds of the marks. -/
def Markable (size : Nat) (holds : Nat → (Nat → Option α) → Prop) : Prop :=
  ∀ first, ∃ list : List (Option α), list.length = size ∧ ∀ marks,
    EachFrom (fun id mark => marks id = mark) first list → holds first marks

namespace Markable

variable {size size' : Nat} {holds holds' : Nat → (Nat → Option α) → Prop}

theorem one (mark : Option α) : Markable 1 fun first marks => marks first = mark :=
  fun _ => ⟨[mark], rfl, fun _ marked => marked.1⟩

theorem beside (early : Markable size holds) (late : Markable size' holds') :
    Markable (size + size') fun first (marks : Nat → Option α) =>
      holds first marks ∧ holds' (first + size) marks := by
  intro first
  obtain ⟨list, length, marked⟩ := early first
  obtain ⟨list', length', marked'⟩ := late (first + size)
  refine ⟨list ++ list', by rw [List.length_append, length, length'], fun marks isMarked => ?_⟩
  rw [eachFrom_append, length] at isMarked
  exact ⟨marked marks isMarked.1, marked' marks isMarked.2⟩

theorem mono (markable : Markable size holds) (same : size = size')
    (weaker : ∀ first marks, holds first marks → holds' first marks) : Markable size' holds' := by
  intro first
  obtain ⟨list, length, marked⟩ := markable first
  exact ⟨list, length.trans same, fun marks isMarked => weaker first marks (marked marks isMarked)⟩

/-- Blocks that stand somewhere are marked, and other blocks have marks as given. -/
theorem exists_marks (markable : Markable size holds) (first : Nat) (others : Nat → Option α) :
    ∃ marks, holds first marks ∧
      ∀ id, id < first ∨ first + size ≤ id → marks id = others id := by
  obtain ⟨list, rfl, marked⟩ := markable first
  refine ⟨fun id => if id < first then others id else list[id - first]?.getD (others id),
    marked _ (eachFrom_iff.mpr fun index mark found => ?_), fun id off => ?_⟩
  · rw [if_neg (Nat.not_lt.mpr (Nat.le_add_right ..)), Nat.add_sub_cancel_left, found]
    rfl
  · rcases off with before | behind
    · exact if_pos before
    · simp [List.getElem?_eq_none (Nat.le_sub_of_add_le' behind)]

end Markable

namespace Fragment

/-- The blocks of code can be marked. -/
def Graded (gauge : Gauge α) (code : Fragment) (jumps : Nat → List Nat) (escapes : Bool)
    (start behind base : Option α) : Prop :=
  Markable code.size fun first =>
    code.Marked gauge (jumps first) escapes start behind base first

variable {code code' condition branch alternative body : Fragment}
  {jumps jumps' jumps'' : Nat → List Nat} {escapes escapes' escapes'' : Bool}
  {start middle other behind base decided inner : Option α}

/-- The code of a single block. -/
theorem Graded.leaf {instrs : List Instr} (through : ∀ level, start = some level →
    gauge.Through instrs level fun after => behind = some after) :
    (Fragment.leaf instrs).Graded gauge (fun _ => []) escapes start behind base := by
  refine (Markable.one start).mono rfl fun first marks isMarked => ?_
  exact {
    entry := isMarked
    jumping := List.forall_mem_nil _
    agrees := fun next loop arrives _ => ⟨fun level isLevel =>
      (through level (isMarked.symm.trans isLevel)).mono fun _ => hands_next arrives, trivial⟩ }

/-- A block that leaves or repeats a loop. -/
theorem Graded.jump (kind : Jump) :
    (Fragment.jump kind).Graded gauge (fun first => [first]) true start start start := by
  refine (Markable.one start).mono rfl fun first marks isMarked => ?_
  exact {
    entry := isMarked
    jumping := List.forall_mem_singleton.mpr fun level isLevel => isMarked.symm.trans isLevel
    agrees := fun next loop arrives around => by
      refine ⟨fun level isLevel => ?_, trivial⟩
      have isStart := isMarked.symm.trans isLevel
      rcases around rfl kind with isOpen | arrives'
      · rw [isOpen]
        exact hands_next arrives isStart
      · obtain ⟨target, goes, isTarget⟩ := arrives' level isStart
        rw [goes]
        exact .simple isTarget }

/-- Code seen from a loop with another mark. -/
theorem Graded.rebase (graded : code.Graded gauge jumps escapes start behind start)
    (escaping : ∀ first, ∀ id ∈ jumps first, escapes = true)
    (same : escapes = true → ∀ level, start = some level → base = some level) :
    code.Graded gauge jumps escapes start behind base := by
  refine Markable.mono graded rfl fun first marks marked => ?_
  exact {
    entry := marked.entry
    jumping := fun id member level isLevel =>
      same (escaping first id member) level (marked.jumping id member level isLevel)
    agrees := fun next loop arrives around => marked.agrees next loop arrives fun out jump =>
      (around out jump).imp_right fun arrives => arrives.mono (same out) }

theorem Graded.widen (graded : code.Graded gauge jumps escapes start behind base)
    (more : escapes = true → escapes' = true) :
    code.Graded gauge jumps escapes' start behind base := by
  refine Markable.mono graded rfl fun first marks marked => ?_
  exact { marked with
    agrees := fun next loop arrives around =>
      marked.agrees next loop arrives fun out => around (more out) }

/-- Code that goes on at other code. -/
theorem Graded.attach (first : code.Graded gauge jumps escapes start middle base)
    (second : code'.Graded gauge jumps' escapes' middle behind base) :
    (code.attach code').Graded gauge (fun place => jumps place ++ jumps' (place + code.size))
      (escapes || escapes') start behind base := by
  refine (Markable.beside first second).mono rfl fun place marks both => ?_
  obtain ⟨front, back⟩ := both
  exact {
    entry := front.entry
    jumping := List.forall_mem_append.mpr ⟨front.jumping, back.jumping⟩
    agrees := fun next loop arrives around => (eachFrom_attach ..).mpr
      ⟨front.agrees _ loop (arrives_some back.entry) fun out => around (by rw [out, Bool.true_or]),
        back.agrees next loop arrives fun out => around (by rw [out, Bool.or_true])⟩ }

/-- A block with code that leads to it. -/
theorem Graded.attachBack {instrs : List Instr} (through : ∀ level, middle = some level →
      gauge.Through instrs level fun after => behind = some after)
    (operands : code.Graded gauge jumps escapes start middle base) :
    ((Fragment.leaf instrs).attachBack code).Graded gauge (fun place => jumps (place + 1)) escapes
      start behind base := by
  have block : (Fragment.leaf instrs).Graded gauge (fun _ => []) false middle behind base :=
    .leaf through
  refine (Markable.beside block operands).mono rfl fun place marks both => ?_
  obtain ⟨front, back⟩ := both
  exact {
    entry := back.entry
    jumping := back.jumping
    agrees := fun next loop arrives around => (eachFrom_attachBack ..).mpr
      ⟨front.agrees next loop arrives (by rintro ⟨⟩),
        back.agrees _ loop (arrives_some front.entry) around⟩ }

/-- A branch without an alternative. -/
theorem Graded.ifThen (test : condition.Graded gauge jumps escapes start decided base)
    (taken : branch.Graded gauge jumps' escapes' inner middle base)
    (tests : ∀ level, decided = some level →
      ∃ after, gauge.test level = some after ∧ inner = some after)
    (passes : ∀ level, inner = some level → behind = some level)
    (joins : ∀ level, middle = some level → behind = some level) :
    (Fragment.ifThen condition branch).Graded gauge
      (fun place => jumps place ++ jumps' (place + (condition.size + 1))) (escapes || escapes')
      start behind base := by
  refine (Markable.beside test
    ((Markable.one decided).beside (taken.beside (.one behind)))).mono ?_ fun place marks parts => ?_
  · simp only [Fragment.ifThen, Fragment.attach, Fragment.fork, Fragment.leaf]
    omega
  obtain ⟨test, isFork, taken, isJoin⟩ := parts
  exact {
    entry := test.entry
    jumping := List.forall_mem_append.mpr ⟨test.jumping, taken.jumping⟩
    agrees := fun next loop arrives around => by
      refine (eachFrom_attach ..).mpr ⟨test.agrees _ loop (arrives_some isFork)
        (fun out => around (by rw [out, Bool.true_or])), fun level isLevel => ?_,
        (eachFrom_attach ..).mpr ⟨taken.agrees _ loop ((arrives_some isJoin).mono joins)
          (fun out => around (by rw [out, Bool.or_true])),
          fun level isLevel => hands_next arrives (isJoin.symm.trans isLevel), trivial⟩⟩
      obtain ⟨after, isAfter, isInner⟩ := tests level (isFork.symm.trans isLevel)
      exact .conditional isAfter (taken.entry.trans isInner) (isJoin.trans (passes after isInner)) }

/-- Two branches. -/
theorem Graded.ifElse (test : condition.Graded gauge jumps escapes start decided base)
    (taken : branch.Graded gauge jumps' escapes' inner middle base)
    (passed : alternative.Graded gauge jumps'' escapes'' inner other base)
    (tests : ∀ level, decided = some level →
      ∃ after, gauge.test level = some after ∧ inner = some after)
    (joins : ∀ level, middle = some level → behind = some level)
    (joins' : ∀ level, other = some level → behind = some level) :
    (Fragment.ifElse condition branch alternative).Graded gauge
      (fun place => jumps place ++ (jumps' (place + (condition.size + 1)) ++
        jumps'' (place + (condition.size + 1) + (branch.size + 1))))
      (escapes || escapes' || escapes'') start behind base := by
  refine (Markable.beside test ((Markable.one decided).beside
    ((taken.beside (.one behind)).beside passed))).mono ?_ fun place marks parts => ?_
  · simp only [Fragment.ifElse, Fragment.attach, Fragment.attachBack, Fragment.fork, Fragment.leaf]
    omega
  obtain ⟨test, isFork, ⟨taken, isJoin⟩, passed⟩ := parts
  exact {
    entry := test.entry
    jumping := List.forall_mem_append.mpr
      ⟨test.jumping, List.forall_mem_append.mpr ⟨taken.jumping, passed.jumping⟩⟩
    agrees := fun next loop arrives around => by
      refine (eachFrom_attach ..).mpr ⟨test.agrees _ loop (arrives_some isFork)
        (fun out => around (by simp [out])), fun level isLevel => ?_,
        (eachFrom_attachBack ..).mpr ⟨(eachFrom_attach ..).mpr
          ⟨taken.agrees _ loop ((arrives_some isJoin).mono joins)
            (fun out => around (by simp [out])),
            fun level isLevel => hands_next arrives (isJoin.symm.trans isLevel), trivial⟩,
          passed.agrees _ loop ((arrives_some isJoin).mono joins')
            fun out => around (by simp [out])⟩⟩
      obtain ⟨after, isAfter, isInner⟩ := tests level (isFork.symm.trans isLevel)
      exact .conditional isAfter (taken.entry.trans isInner) (passed.entry.trans isInner) }

/-- A loop, whose jumps go to where it leaves off or is repeated. -/
theorem Graded.whileLoop (test : condition.Graded gauge jumps escapes start decided start)
    (repeated : body.Graded gauge jumps' escapes' inner middle inner)
    (tests : ∀ level, decided = some level →
      ∃ after, gauge.test level = some after ∧ inner = some after)
    (repeats : ∀ level, inner = some level → start = some level)
    (joins : ∀ level, middle = some level → start = some level) :
    (Fragment.whileLoop condition body).Graded gauge
      (fun place => jumps place ++ jumps' (place + (condition.size + 1))) escapes
      start start start := by
  refine (Markable.beside test
    ((Markable.one decided).beside (repeated.beside (.one start)))).mono ?_ fun place marks parts => ?_
  · simp only [Fragment.whileLoop]
    omega
  obtain ⟨test, isFork, repeated, isJoin⟩ := parts
  have join : place + condition.size + 1 + body.size =
      place + (condition.size + (body.size + 1)) := by omega
  rw [join] at isJoin
  exact {
    entry := test.entry
    jumping := List.forall_mem_append.mpr ⟨test.jumping, fun id member level isLevel =>
      repeats level (repeated.jumping id member level isLevel)⟩
    agrees := fun next loop arrives around => by
      refine eachFrom_whileLoop.mpr ⟨test.agrees _ loop (arrives_some isFork) around,
        fun level isLevel => ?_, repeated.agrees _ _ ((arrives_some test.entry).mono joins)
          (fun _ jump => .inr ?_),
        fun level isLevel => hands_next arrives (isJoin.symm.trans isLevel)⟩
      · obtain ⟨after, isAfter, isInner⟩ := tests level (isFork.symm.trans isLevel)
        exact .conditional isAfter (repeated.entry.trans isInner)
          (isJoin.trans (repeats after isInner))
      · cases jump with
        | leave => exact (arrives_some isJoin).mono repeats
        | again => exact (arrives_some test.entry).mono repeats }

/-- The marks of code at the end of a graph, outside of all loops that are closed. -/
theorem Graded.exists_agreeing (graded : code.Graded gauge jumps escapes start behind base)
    (graph : Graph) (others : Nat → Option α) (next : Option Nat)
    (arrives : ∀ level, behind = some level → ∃ target, next = some target ∧
      (target < graph.size ∨ graph.size + code.size ≤ target) ∧ others target = some level) :
    ∃ marks, marks (code.entry graph.size) = start ∧
      (∀ id ∈ jumps graph.size, ∀ level, marks id = some level → base = some level) ∧
      (∀ id, id < graph.size ∨ graph.size + code.size ≤ id → marks id = others id) ∧
      ∀ id, graph.size ≤ id → id < graph.size + code.size →
        Block.Agrees gauge marks id ((graph.append (code.blocks graph.size next .open)).block id) := by
  obtain ⟨marks, marked, outside⟩ := Markable.exists_marks graded graph.size others
  refine ⟨marks, marked.entry, marked.jumping, outside, fun id low high => ?_⟩
  have agrees := marked.agrees next .open (fun level isLevel => ?_) fun _ _ => .inl rfl
  · refine Graph.forall_of_eachFrom agrees id low ?_
    rwa [code.size_append_blocks rfl]
  · obtain ⟨target, isNext, off, isTarget⟩ := arrives level isLevel
    exact ⟨target, isNext, (outside target off).trans isTarget⟩

end Fragment

/-- Control goes on as the marks say. -/
theorem Graph.goes_of_hands {graph : Graph} {marks : Nat → Option α} {id : BlockId}
    (hands : (graph.block id).shape.Hands gauge marks level) :
    graph.Goes gauge (fun id level => marks id = some level) id level := by
  generalize isShape : (graph.block id).shape = shape at hands
  cases hands with
  | simple isTarget => exact .simple isShape isTarget
  | conditional tests onTrue onFalse => exact .conditional isShape tests onTrue onFalse

/-- Code behind which control does not get is safe. -/
theorem Lowering.Lowered.safe {code : Fragment} {items : List Expr} {before after : Context}
    {span : Span} {jumps : Nat → List Nat} {escapes : Bool} {base : Option α}
    (lowered : Lowered code items before span after)
    (graded : code.Graded gauge jumps escapes (some level) none base) :
    after.graph.Safe gauge span.entry level := by
  obtain ⟨marks, isEntry, _, outside, agrees⟩ :=
    graded.exists_agreeing before.graph (fun _ => none) none (by rintro _ ⟨⟩)
  rw [← lowered.graph] at agrees
  refine Graph.safe_of_kept (fun id level => marks id = some level)
    (fun (id : Nat) level isLevel => ?_) (by rw [lowered.entry]; exact isEntry)
  have inside : before.graph.size ≤ id ∧ id < before.graph.size + code.size := by
    by_contra off
    rw [outside id (by omega)] at isLevel
    cases isLevel
  exact (agrees id inside.1 inside.2 level isLevel).mono fun _ => Graph.goes_of_hands

end Marks

end ContractBackend
