import ContractBackend.Proofs.Lowering.Steps

/-!
# Fragments of code

The code of an expression as a function of the expression: the blocks it has, from whatever
number on they stand in a graph, with their targets. What follows a piece of code and what is
around it is not known while it is made. A fragment therefore says what its blocks are for every
successor of its last block, and for all places that its jumps out of a loop may go to, and it
carries the proof that linking those blocks later comes to the same.
-/

namespace ContractBackend

/-- Something holds of each of several things that are numbered from a first number on. -/
def EachFrom {α : Type} (holds : Nat → α → Prop) : Nat → List α → Prop
  | _, [] => True
  | first, item :: rest => holds first item ∧ EachFrom holds (first + 1) rest

section EachFrom

variable {α : Type} {holds holds' : Nat → α → Prop} {first : Nat} {items others : List α}

theorem eachFrom_append :
    EachFrom holds first (items ++ others) ↔
      EachFrom holds first items ∧ EachFrom holds (first + items.length) others := by
  induction items generalizing first with
  | nil => simp [EachFrom]
  | cons head tail ih =>
    simp only [List.cons_append, EachFrom, ih, List.length_cons, and_assoc]
    rw [Nat.add_right_comm, Nat.add_assoc first tail.length 1]

theorem eachFrom_iff : EachFrom holds first items ↔
    ∀ index item, items[index]? = some item → holds (first + index) item := by
  induction items generalizing first with
  | nil => simp [EachFrom]
  | cons head tail ih =>
    rw [EachFrom, ih]
    simp only [Nat.add_right_comm first 1]
    constructor
    · rintro ⟨here, rest⟩ (_ | index) item found
      · cases found
        exact here
      · exact rest index item found
    · exact fun each => ⟨each 0 head rfl, fun index => each (index + 1)⟩

theorem eachFrom_of_forall {property : α → Prop} (each : ∀ item ∈ items, property item) :
    EachFrom (fun _ item => property item) first items :=
  eachFrom_iff.mpr fun _ item found => each item (List.mem_of_getElem? found)

theorem EachFrom.mono (each : EachFrom holds first items)
    (weaker : ∀ id item, first ≤ id → id < first + items.length → item ∈ items → holds id item →
      holds' id item) : EachFrom holds' first items := by
  rw [eachFrom_iff] at each ⊢
  intro index item found
  have inside := (List.getElem?_eq_some_iff.mp found).1
  exact weaker _ item (Nat.le_add_right ..) (Nat.add_lt_add_left inside _)
    (List.mem_of_getElem? found) (each index item found)

end EachFrom

namespace Graph

variable {graph : Graph} {blocks others : List Block} {block : Block} {id target : BlockId}

/-! ## Blocks at the end of a graph -/

def append (graph : Graph) (blocks : List Block) : Graph := ⟨graph.blocks ++ blocks.toArray⟩

theorem append_append : (graph.append blocks).append others = graph.append (blocks ++ others) := by
  simp [append]

theorem append_singleton (graph : Graph) (block : Block) : graph.append [block] = graph.push block :=
  congrArg Graph.mk Array.append_singleton

theorem append_cons : graph.append (block :: blocks) = (graph.push block).append blocks := by
  rw [← append_singleton, append_append, List.singleton_append]

theorem size_append : (graph.append blocks).size = graph.size + blocks.length := by
  simp [append, size]

theorem block_append_of_lt (blocks : List Block) (inside : id < graph.size) :
    (graph.append blocks).block id = graph.block id := by
  have bound : id < graph.blocks.size := inside
  simp [Graph.block, append, Array.getElem?_append, bound]

theorem modify_append (blocks : List Block) (change : Block → Block) (inside : id < graph.size) :
    (graph.append blocks).modify id change = (graph.modify id change).append blocks := by
  have bound : id < graph.blocks.size := inside
  refine congrArg Graph.mk (Array.ext_getElem? fun other => ?_)
  simp only [append, modify, Array.getElem?_modify, Array.getElem?_append, Array.size_modify]
  by_cases same : id = other
  · simp [← same, bound]
  · simp [same]

theorem modify_append_size (graph : Graph) (block : Block) (blocks : List Block)
    (change : Block → Block) :
    (graph.append (block :: blocks)).modify graph.size change =
      graph.append (change block :: blocks) := by
  have here : (graph.push block).modify graph.size change = graph.push (change block) := by
    refine congrArg Graph.mk (Array.ext_getElem? fun other => ?_)
    simp only [push, Array.getElem?_modify, Array.getElem?_push, size]
    by_cases same : graph.blocks.size = other
    · simp [← same]
    · simp [same, Ne.symm same]
  rw [append_cons, modify_append _ _ (by rw [size_push]; exact Nat.lt_succ_self _), here,
    ← append_cons]

theorem block_append_size_add {index : Nat} (found : blocks[index]? = some block) :
    (graph.append blocks).block (graph.size + index) = block := by
  simp [Graph.block, append, size, Array.getElem?_append_right, found]

/-- What holds of each of the blocks that are added holds of them in the graph. -/
theorem forall_of_eachFrom {holds : BlockId → Block → Prop}
    (each : EachFrom holds graph.size blocks) :
    ∀ id, graph.size ≤ id → id < (graph.append blocks).size →
      holds id ((graph.append blocks).block id) := by
  intro id low high
  obtain ⟨index, rfl⟩ := Nat.exists_eq_add_of_le low
  rw [size_append] at high
  have found := List.getElem?_eq_getElem (Nat.lt_of_add_lt_add_left high)
  rw [block_append_size_add found]
  exact eachFrom_iff.mp each index _ found

/-- The graph has these blocks from a number on. -/
def Holds (graph : Graph) (first : BlockId) (blocks : List Block) : Prop :=
  EachFrom (fun id block => graph.block id = block) first blocks

theorem holds_append (graph : Graph) (blocks : List Block) :
    (graph.append blocks).Holds graph.size blocks :=
  eachFrom_iff.mpr fun _ _ => block_append_size_add

/-! ## Links -/

/-- The graph with several blocks linked to one successor. -/
def relinked (graph : Graph) (ids : List BlockId) (target : BlockId) : Graph :=
  ids.foldl (fun graph id => graph.linked id target) graph

theorem size_linked (graph : Graph) (id target : BlockId) :
    (graph.linked id target).size = graph.size :=
  size_modify ..

theorem linked_append (blocks : List Block) (inside : id < graph.size) :
    (graph.append blocks).linked id target = (graph.linked id target).append blocks :=
  modify_append blocks _ inside

theorem relinked_append {ids : List BlockId} (inside : ∀ id ∈ ids, id < graph.size) :
    (graph.append blocks).relinked ids target = (graph.relinked ids target).append blocks := by
  induction ids generalizing graph with
  | nil => rfl
  | cons id rest ih =>
    rw [List.forall_mem_cons] at inside
    rw [relinked, List.foldl_cons, linked_append _ inside.1]
    exact ih fun other member => by rw [size_linked]; exact inside.2 other member

theorem relinked_concat (graph : Graph) (ids others : List BlockId) (target : BlockId) :
    graph.relinked (ids ++ others) target = (graph.relinked ids target).relinked others target :=
  List.foldl_append

end Graph

/-! ## Fragments -/

/-- How a block gets out of the body of a loop: it leaves the loop or repeats it. -/
inductive Jump where
  | leave
  | again
  deriving DecidableEq

/-- Where the jumps out of a loop go, as far as the loop has been closed. -/
abbrev JumpTargets := Jump → Option Nat

/-- The loop around is open. -/
def JumpTargets.open : JumpTargets := fun _ => none

/-- Where a block of a piece of code goes on: at another block of the code, at its successor if it
is the last one, or where the jumps out of the loop go. -/
inductive Leads (first last exit : Nat) (jumps : Jump → List Nat) (next : Option Nat)
    (loop : JumpTargets) (id : Nat) : Shape → Prop where
  | inner {target : Nat} : id ≠ exit → first ≤ target → target < last →
      Leads first last exit jumps next loop id (.simple (some target))
  | next : id = exit → Leads first last exit jumps next loop id (.simple next)
  | jump {jump : Jump} {target : Nat} : id ∈ jumps jump → loop jump = some target →
      Leads first last exit jumps next loop id (.simple (some target))
  | fork {onTrue onFalse : Nat} : id ≠ exit → (∀ jump, id ∉ jumps jump) →
      first ≤ onTrue → onTrue < onFalse → onFalse < last →
      Leads first last exit jumps next loop id (.conditional (some onTrue) (some onFalse))

variable {first last exit id : Nat} {jumps : Jump → List Nat} {next : Option Nat}
  {loop : JumpTargets} {shape : Shape}

theorem Leads.widen {first' last' exit' : Nat} {jumps' : Jump → List Nat} {next' : Option Nat}
    {loop' : JumpTargets} (leads : Leads first last exit jumps next loop id shape)
    (lower : first' ≤ first) (upper : last ≤ last')
    (atExit : id = exit → Leads first' last' exit' jumps' next' loop' id (.simple next))
    (atJump : ∀ jump target, id ∈ jumps jump → loop jump = some target →
      Leads first' last' exit' jumps' next' loop' id (.simple (some target)))
    (offExit : id ≠ exit → id ≠ exit')
    (offJumps : (∀ jump, id ∉ jumps jump) → ∀ jump, id ∉ jumps' jump) :
    Leads first' last' exit' jumps' next' loop' id shape := by
  cases leads with
  | inner notExit low high =>
    exact .inner (offExit notExit) (Nat.le_trans lower low) (Nat.lt_of_lt_of_le high upper)
  | next isExit => exact atExit isExit
  | jump isJump goes => exact atJump _ _ isJump goes
  | fork notExit noJump low apart high =>
    exact .fork (offExit notExit) (offJumps noJump) (Nat.le_trans lower low) apart
      (Nat.lt_of_lt_of_le high upper)

/-- Blocks whose targets are set later are simple ones. -/
theorem Leads.exists_simple (leads : Leads first last exit jumps next loop id shape)
    (isOpen : id = exit ∨ ∃ jump, id ∈ jumps jump) : ∃ target, shape = .simple target := by
  cases leads with
  | inner | next | jump => exact ⟨_, rfl⟩
  | fork notExit noJump =>
    rcases isOpen with isExit | ⟨jump, isJump⟩
    · exact absurd isExit notExit
    · exact absurd isJump (noJump jump)

/-- While nothing follows code and the loop around it is open, its blocks lead to each other. -/
theorem Leads.inside (leads : Leads first last exit jumps none .open id shape) :
    ∀ target ∈ shape.targets, first ≤ target ∧ target < last := by
  cases leads with
  | inner _ low high => exact List.forall_mem_singleton.mpr ⟨low, high⟩
  | next => exact List.forall_mem_nil _
  | jump _ goes => cases goes
  | fork _ _ low apart high =>
    exact List.forall_mem_cons.mpr ⟨⟨low, Nat.lt_trans apart high⟩,
      List.forall_mem_singleton.mpr ⟨Nat.le_trans low (Nat.le_of_lt apart), high⟩⟩

theorem Leads.apart (leads : Leads first last exit jumps next loop id shape) :
    shape.targets.Nodup := by
  cases leads with
  | inner | jump => exact List.nodup_singleton _
  | next => cases next <;> simp [Shape.targets]
  | fork _ _ _ apart => simpa [Shape.targets] using Nat.ne_of_lt apart

theorem Leads.whole (leads : Leads first last exit jumps next loop id shape) :
    shape.isHalf = false := by
  cases leads <;> rfl

/-- A piece of code that can stand at any place of a graph, from whatever number on. -/
structure Fragment where
  size : Nat
  entry : Nat → Nat
  exit : Nat → Nat
  /-- The blocks that leave or repeat the loop around the code. -/
  jumps : Jump → Nat → List Nat
  /-- The blocks, by the number of the first one, by the successor of the last one and by where
  the jumps go. -/
  blocks : Nat → Option Nat → JumpTargets → List Block
  length_blocks : ∀ first next loop, (blocks first next loop).length = size
  entry_inside : ∀ first, first ≤ entry first ∧ entry first < first + size
  exit_inside : ∀ first, first ≤ exit first ∧ exit first < first + size
  jumps_inside : ∀ jump first, ∀ id ∈ jumps jump first, first ≤ id ∧ id < first + size
  /-- Linking the last block gives the code its successor. -/
  links : ∀ {graph : Graph} {first : Nat}, graph.size = first → ∀ target,
    (graph.append (blocks first none .open)).linked (exit first) target =
      graph.append (blocks first (some target) .open)
  /-- Linking the jumps lets them go where they are linked to. -/
  relinks : ∀ {graph : Graph} {first : Nat}, graph.size = first → ∀ next loop jump target,
    (graph.append (blocks first next loop)).relinked (jumps jump first) target =
      graph.append (blocks first next (Function.update loop jump (some target)))
  leads : ∀ first next loop, EachFrom (fun id block => Leads first (first + size) (exit first)
    (fun jump => jumps jump first) next loop id block.shape) first (blocks first next loop)

namespace Fragment

/-- A single block. -/
def leaf (instrs : List Instr) : Fragment where
  size := 1
  entry first := first
  exit first := first
  jumps _ _ := []
  blocks _ next _ := [{ instrs, shape := .simple next }]
  length_blocks _ _ _ := rfl
  entry_inside _ := ⟨Nat.le_refl _, Nat.lt_succ_self _⟩
  exit_inside _ := ⟨Nat.le_refl _, Nat.lt_succ_self _⟩
  jumps_inside _ _ := List.forall_mem_nil _
  links size _ := size ▸ Graph.modify_append_size ..
  relinks _ _ _ _ _ := rfl
  leads _ _ _ := ⟨.next rfl, trivial⟩

/-- An empty block that leaves or repeats the loop around it. -/
def jump (kind : Jump) : Fragment where
  size := 1
  entry first := first
  exit first := first
  jumps other first := if other = kind then [first] else []
  blocks _ next loop := [{ shape := .simple ((loop kind).or next) }]
  length_blocks _ _ _ := rfl
  entry_inside _ := ⟨Nat.le_refl _, Nat.lt_succ_self _⟩
  exit_inside _ := ⟨Nat.le_refl _, Nat.lt_succ_self _⟩
  jumps_inside other first id member := by
    split at member
    next => simp_all
    next => cases member
  links size _ := size ▸ Graph.modify_append_size ..
  relinks size next loop other target := by
    split
    next same =>
      subst same size
      rw [Function.update_self]
      exact Graph.modify_append_size ..
    next different => rw [Function.update_of_ne (Ne.symm different)]; rfl
  leads first next loop := by
    refine ⟨?_, trivial⟩
    cases goes : loop kind with
    | none => exact .next rfl
    | some target => exact .jump (by simp) goes

variable (code first second : Fragment) {graph : Graph} {start : Nat}

theorem size_append_blocks (size : graph.size = start) (place : Nat) (next : Option Nat)
    (loop : JumpTargets) : (graph.append (code.blocks place next loop)).size = start + code.size := by
  rw [Graph.size_append, code.length_blocks, size]

/-- Where the blocks of the code go on in a graph that has them. -/
theorem leads_block (size : graph.size = start) {others : List Block} (low : start ≤ id)
    (high : id < start + code.size) :
    Leads start (start + code.size) (code.exit start) (fun jump => code.jumps jump start) next loop
      id ((graph.append (code.blocks start next loop ++ others)).block id).shape := by
  subst size
  have inside : id < (graph.append (code.blocks graph.size next loop)).size := by
    rwa [code.size_append_blocks rfl]
  rw [← Graph.append_append, Graph.block_append_of_lt _ inside]
  exact Graph.forall_of_eachFrom (code.leads graph.size next loop) id low inside

/-- Linking the last block, with other blocks behind the code. -/
theorem links_before (size : graph.size = start) (target : Nat) (others : List Block) :
    (graph.append (code.blocks start none .open ++ others)).linked (code.exit start) target =
      graph.append (code.blocks start (some target) .open ++ others) := by
  rw [← Graph.append_append, Graph.linked_append, code.links size, Graph.append_append]
  rw [code.size_append_blocks size]
  exact (code.exit_inside _).2

theorem relinks_before (size : graph.size = start) (next : Option Nat) (loop : JumpTargets)
    (jump : Jump) (target : Nat) (others : List Block) :
    (graph.append (code.blocks start next loop ++ others)).relinked (code.jumps jump start) target =
      graph.append
        (code.blocks start next (Function.update loop jump (some target)) ++ others) := by
  rw [← Graph.append_append, Graph.relinked_append, code.relinks size, Graph.append_append]
  intro id member
  rw [code.size_append_blocks size]
  exact (code.jumps_inside jump _ id member).2

/-! Two pieces of code side by side. -/

theorem jumps_beside_inside (jump : Jump) (start : Nat) :
    ∀ id ∈ first.jumps jump start ++ second.jumps jump (start + first.size),
      start ≤ id ∧ id < start + (first.size + second.size) := by
  intro id member
  rcases List.mem_append.mp member with early | late
  · have range := first.jumps_inside jump start id early
    omega
  · have range := second.jumps_inside jump _ id late
    omega

theorem relinks_beside (size : graph.size = start) (next next' : Option Nat) (loop : JumpTargets)
    (jump : Jump) (target : Nat) :
    (graph.append (first.blocks start next loop ++
        second.blocks (start + first.size) next' loop)).relinked
      (first.jumps jump start ++ second.jumps jump (start + first.size)) target =
    graph.append (first.blocks start next (Function.update loop jump (some target)) ++
      second.blocks (start + first.size) next' (Function.update loop jump (some target))) := by
  rw [Graph.relinked_concat, first.relinks_before size, ← Graph.append_append,
    second.relinks (first.size_append_blocks size ..), Graph.append_append]

theorem leads_beside {firstNext secondNext : Option Nat}
    (early : Leads start (start + (first.size + second.size)) exit
      (fun jump => first.jumps jump start ++ second.jumps jump (start + first.size)) next loop
      (first.exit start) (.simple firstNext))
    (late : Leads start (start + (first.size + second.size)) exit
      (fun jump => first.jumps jump start ++ second.jumps jump (start + first.size)) next loop
      (second.exit (start + first.size)) (.simple secondNext))
    (isExit : exit = first.exit start ∨ exit = second.exit (start + first.size)) :
    EachFrom (fun id block => Leads start (start + (first.size + second.size)) exit
        (fun jump => first.jumps jump start ++ second.jumps jump (start + first.size)) next loop id
        block.shape) start
      (first.blocks start firstNext loop ++ second.blocks (start + first.size) secondNext loop) := by
  have firstExit := first.exit_inside start
  have secondExit := second.exit_inside (start + first.size)
  rw [eachFrom_append, first.length_blocks]
  refine ⟨(first.leads start firstNext loop).mono fun id block low high _ leads => ?_,
    (second.leads (start + first.size) secondNext loop).mono fun id block low high _ leads => ?_⟩
  · rw [first.length_blocks] at high
    refine leads.widen (Nat.le_refl _) (by omega) (fun same => same ▸ early)
      (fun jump target member goes => .jump (List.mem_append_left _ member) goes)
      (fun notExit => by omega) fun noJump jump member => ?_
    refine (List.mem_append.mp member).elim (noJump jump) fun later => ?_
    have range := second.jumps_inside jump _ id later
    omega
  · refine leads.widen (Nat.le_add_right _ _) (by omega) (fun same => same ▸ late)
      (fun jump target member goes => .jump (List.mem_append_right _ member) goes)
      (fun notExit => by omega) fun noJump jump member => ?_
    refine (List.mem_append.mp member).elim (fun earlier => ?_) (noJump jump)
    have range := first.jumps_inside jump _ id earlier
    omega

/-- One piece of code, which goes on at another one behind it. -/
def attach : Fragment where
  size := first.size + second.size
  entry start := first.entry start
  exit start := second.exit (start + first.size)
  jumps jump start := first.jumps jump start ++ second.jumps jump (start + first.size)
  blocks start next loop := first.blocks start (some (second.entry (start + first.size))) loop ++
    second.blocks (start + first.size) next loop
  length_blocks start next loop := by simp [length_blocks]
  entry_inside start := by
    have range := first.entry_inside start
    omega
  exit_inside start := by
    have range := second.exit_inside (start + first.size)
    omega
  jumps_inside := first.jumps_beside_inside second
  links size target := by
    rw [← Graph.append_append, second.links (first.size_append_blocks size ..), Graph.append_append]
  relinks size next loop := first.relinks_beside second size _ next loop
  leads start next loop := by
    have range := second.entry_inside (start + first.size)
    have exit := first.exit_inside start
    have exit' := second.exit_inside (start + first.size)
    exact first.leads_beside second (.inner (by omega) (by omega) (by omega)) (.next rfl) (.inr rfl)

theorem size_attach : (first.attach second).size = first.size + second.size := rfl

theorem jumps_attach (jump : Jump) : (first.attach second).jumps jump start =
    first.jumps jump start ++ second.jumps jump (start + first.size) :=
  rfl

/-- One piece of code, behind which another one stands that leads to its last block. -/
def attachBack : Fragment where
  size := first.size + second.size
  entry start := second.entry (start + first.size)
  exit start := first.exit start
  jumps jump start := first.jumps jump start ++ second.jumps jump (start + first.size)
  blocks start next loop := first.blocks start next loop ++
    second.blocks (start + first.size) (some (first.exit start)) loop
  length_blocks start next loop := by simp [length_blocks]
  entry_inside start := by
    have range := second.entry_inside (start + first.size)
    omega
  exit_inside start := by
    have range := first.exit_inside start
    omega
  jumps_inside := first.jumps_beside_inside second
  links size target := first.links_before size target _
  relinks size next loop := first.relinks_beside second size next _ loop
  leads start next loop := by
    have exit := first.exit_inside start
    have exit' := second.exit_inside (start + first.size)
    exact first.leads_beside second (.next rfl) (.inner (by omega) (by omega) (by omega)) (.inl rfl)

/-- A decision in front of code with two places where it goes on. -/
def fork (onTrue onFalse : Nat → Nat)
    (apart : ∀ start, start ≤ onTrue start ∧ onTrue start < onFalse start ∧
      onFalse start < start + code.size) : Fragment where
  size := code.size + 1
  entry start := start
  exit start := code.exit (start + 1)
  jumps jump start := code.jumps jump (start + 1)
  blocks start next loop :=
    { shape := .conditional (some (onTrue (start + 1))) (some (onFalse (start + 1))) } ::
      code.blocks (start + 1) next loop
  length_blocks start next loop := by simp [length_blocks]
  entry_inside start := by omega
  exit_inside start := by
    have range := code.exit_inside (start + 1)
    omega
  jumps_inside jump start id member := by
    have range := code.jumps_inside jump (start + 1) id member
    omega
  links size target := by
    rw [Graph.append_cons, Graph.append_cons, code.links (by rw [Graph.size_push, size])]
  relinks size next loop jump target := by
    rw [Graph.append_cons, Graph.append_cons, code.relinks (by rw [Graph.size_push, size])]
  leads start next loop := by
    have range := apart (start + 1)
    have exit := code.exit_inside (start + 1)
    refine ⟨.fork (by omega) (fun jump member => ?_) (by omega) range.2.1 (by omega), ?_⟩
    · have later := code.jumps_inside jump (start + 1) start member
      omega
    · refine (code.leads (start + 1) next loop).mono fun id block low high _ leads => ?_
      exact leads.widen (by omega) (by omega) .next (fun jump target member => .jump member)
        (fun off => off) fun off => off

theorem branch_apart (branch : Fragment) (start : Nat) :
    start ≤ branch.entry start ∧ branch.entry start < start + branch.size ∧
      start + branch.size < start + (branch.attach (leaf [])).size := by
  have range := branch.entry_inside start
  simp only [attach, leaf]
  omega

theorem branches_apart (branch alternative : Fragment) (start : Nat) :
    start ≤ branch.entry start ∧
      branch.entry start < alternative.entry (start + (branch.size + 1)) ∧
      alternative.entry (start + (branch.size + 1)) <
        start + ((branch.attach (leaf [])).attachBack alternative).size := by
  have range := branch.entry_inside start
  have range' := alternative.entry_inside (start + (branch.size + 1))
  simp only [attach, attachBack, leaf]
  omega

/-- A branch without an alternative: the decision, the branch and the block behind it. -/
def ifThen (condition branch : Fragment) : Fragment :=
  condition.attach ((branch.attach (leaf [])).fork branch.entry (fun start => start + branch.size)
    branch.branch_apart)

/-- Two branches: the decision, one branch, the block behind both, and the other branch. -/
def ifElse (condition branch alternative : Fragment) : Fragment :=
  condition.attach (((branch.attach (leaf [])).attachBack alternative).fork branch.entry
    (fun start => alternative.entry (start + (branch.size + 1)))
    (branch.branches_apart alternative))

/-- Where the jumps in the body of a loop go. -/
def closed (leave again : Nat) : JumpTargets
  | .leave => some leave
  | .again => some again

theorem update_open (leave again : Nat) :
    Function.update (Function.update JumpTargets.open .leave (some leave)) .again (some again) =
      closed leave again := by
  funext jump
  cases jump <;> rfl

/-- A loop: the decision, the body, which goes back to the condition, and the block behind it. -/
def whileLoop (condition body : Fragment) : Fragment where
  size := condition.size + (body.size + 2)
  entry start := condition.entry start
  exit start := start + (condition.size + (body.size + 1))
  jumps jump start := condition.jumps jump start
  blocks start next loop := condition.blocks start (some (start + condition.size)) loop ++
    { shape := .conditional (some (body.entry (start + condition.size + 1)))
        (some (start + (condition.size + (body.size + 1)))) } ::
    (body.blocks (start + condition.size + 1) (some (condition.entry start))
      (closed (start + (condition.size + (body.size + 1))) (condition.entry start)) ++
    [{ shape := .simple next }])
  length_blocks start next loop := by
    simp only [List.length_append, List.length_cons, List.length_nil, length_blocks]
  entry_inside start := by
    have range := condition.entry_inside start
    omega
  exit_inside start := by omega
  jumps_inside jump start id member := by
    have range := condition.jumps_inside jump start id member
    omega
  links := by
    intro graph start size target
    have last : ∀ (front : List Block) (block : Block), start + front.length = start +
        (condition.size + (body.size + 1)) → (graph.append (front ++ [block])).linked
          (start + (condition.size + (body.size + 1))) target =
        graph.append (front ++ [{ block with shape := .simple (some target) }]) := by
      intro front block length
      rw [← length, ← size, ← Graph.size_append, ← Graph.append_append, ← Graph.append_append]
      exact Graph.modify_append_size ..
    simp only [← List.cons_append, ← List.append_assoc]
    exact last _ _ (by simp [length_blocks])
  relinks size next loop jump target := condition.relinks_before size _ loop jump target _
  leads start next loop := by
    have entry := condition.entry_inside start
    have bodyEntry := body.entry_inside (start + condition.size + 1)
    rw [eachFrom_append, condition.length_blocks]
    refine ⟨(condition.leads start _ loop).mono fun id block low high _ leads => ?_, ?_, ?_⟩
    · rw [condition.length_blocks] at high
      exact leads.widen (Nat.le_refl _) (by omega)
        (fun _ => .inner (by omega) (by omega) (by omega)) (fun jump target member => .jump member)
        (fun _ => by omega) fun off => off
    · refine .fork (by omega) (fun jump member => ?_) (by omega) (by omega) (by omega)
      have range := condition.jumps_inside jump start _ member
      omega
    · rw [eachFrom_append, body.length_blocks]
      refine ⟨(body.leads _ _ _).mono fun id block low high _ leads => ?_, .next (by omega), trivial⟩
      rw [body.length_blocks] at high
      refine leads.widen (by omega) (by omega) (fun _ => .inner (by omega) (by omega) (by omega))
        (fun jump target _ goes => ?_) (fun _ => by omega) fun _ jump member => ?_
      · cases jump <;> cases goes <;> exact .inner (by omega) (by omega) (by omega)
      · have range := condition.jumps_inside jump start _ member
        omega

section EachFrom

variable {holds : Nat → Block → Prop} {next : Option Nat} {loop : JumpTargets}

theorem eachFrom_attach :
    EachFrom holds start ((first.attach second).blocks start next loop) ↔
      EachFrom holds start (first.blocks start (some (second.entry (start + first.size))) loop) ∧
        EachFrom holds (start + first.size) (second.blocks (start + first.size) next loop) := by
  rw [attach, eachFrom_append, first.length_blocks]

theorem eachFrom_attachBack :
    EachFrom holds start ((first.attachBack second).blocks start next loop) ↔
      EachFrom holds start (first.blocks start next loop) ∧
        EachFrom holds (start + first.size)
          (second.blocks (start + first.size) (some (first.exit start)) loop) := by
  rw [attachBack, eachFrom_append, first.length_blocks]

theorem eachFrom_whileLoop {condition body : Fragment} :
    EachFrom holds start ((condition.whileLoop body).blocks start next loop) ↔
      EachFrom holds start (condition.blocks start (some (start + condition.size)) loop) ∧
      holds (start + condition.size)
        { shape := .conditional (some (body.entry (start + condition.size + 1)))
            (some (start + (condition.size + (body.size + 1)))) } ∧
      EachFrom holds (start + condition.size + 1)
        (body.blocks (start + condition.size + 1) (some (condition.entry start))
          (closed (start + (condition.size + (body.size + 1))) (condition.entry start))) ∧
      holds (start + (condition.size + (body.size + 1))) { shape := .simple next } := by
  have place : start + condition.size + 1 + body.size =
      start + (condition.size + (body.size + 1)) := by omega
  rw [whileLoop, eachFrom_append, condition.length_blocks, EachFrom, eachFrom_append,
    body.length_blocks, place]
  simp only [EachFrom, and_true]

end EachFrom

/-- An instruction behind the code of its operands. Its block stands in front of them. -/
def operator (instr : Instr) : List Fragment → Fragment
  | [] => leaf [instr]
  | operand :: rest => (leaf [instr]).attachBack (rest.foldl attach operand)

/-- Pieces of code one behind the other. -/
def sequence : List Fragment → Fragment
  | [] => leaf []
  | item :: rest => rest.foldl attach item

end Fragment

namespace Expr

mutual

/-- The code of an expression in the main routine, or in a subroutine. -/
def fragment (main : Bool) : Expr → Fragment
  | .int value => .leaf [.int value]
  | .bytes value => .leaf [⟨.byte, [.bytes value]⟩]
  | .text value => .leaf [⟨.byte, [.text value]⟩]
  | .field source name _ => .leaf [⟨source.opcode, [.name name]⟩]
  | .sigArg index => .leaf [.immediate .arg index.toUInt64]
  | .binary op left right => .operator ⟨op.opcode, []⟩ [left.fragment main, right.fragment main]
  | .unary op operand => .operator ⟨op.opcode, []⟩ [operand.fragment main]
  | .seq items => .sequence (fragments main items)
  | .ifThen condition thenBranch => .ifThen (condition.fragment main) (thenBranch.fragment main)
  | .ifElse condition thenBranch elseBranch =>
      .ifElse (condition.fragment main) (thenBranch.fragment main) (elseBranch.fragment main)
  | .whileLoop condition body => .whileLoop (condition.fragment main) (body.fragment main)
  | .breakLoop => .jump .leave
  | .continueLoop => .jump .again
  | .ret => .leaf [⟨.retsub, []⟩]
  | .retValue value => .operator ⟨if main then .ret else .retsub, []⟩ [value.fragment main]
  | .exit approved => .leaf [.int (if approved then 1 else 0), ⟨.ret, []⟩]
  | .abort => .leaf [⟨.err, []⟩]
  | .store slot value => .operator (.store slot) [value.fragment main]
  | .load slot _ => .leaf [.load slot]
  | .slotIndex slot => .leaf [⟨.int, [.slotIndex slot]⟩]
  | .loadIndirect index => .operator ⟨.loads, []⟩ [index.fragment main]
  | .storeIndirect index value =>
      .operator ⟨.stores, []⟩ [index.fragment main, value.fragment main]
  | .stateGet key => .operator ⟨.appGlobalGet, []⟩ [key.fragment main]
  | .statePut key value =>
      .operator ⟨.appGlobalPut, []⟩ [key.fragment main, value.fragment main]
  | .call target arguments => .operator (.callsub target.id) (fragments main arguments)
  | .inline code => .leaf code.instrs

/-- The code of each of several expressions. -/
def fragments (main : Bool) : List Expr → List Fragment
  | [] => []
  | item :: rest => item.fragment main :: fragments main rest

end

variable {main : Bool} {expr : Expr} {instr : Instr} {instrs : List Instr} {operands : List Expr}

theorem fragment_of_leaf? (isLeaf : expr.leaf? = some instrs) :
    expr.fragment main = .leaf instrs := by
  cases expr with
  | seq items => cases items <;> cases isLeaf; rfl
  | _ => cases isLeaf <;> rfl

theorem fragment_of_operator? (isOperator : expr.operator? main = some (instr, operands)) :
    expr.fragment main = .operator instr (fragments main operands) := by
  cases expr <;> cases isOperator <;> rfl

end Expr

end ContractBackend
