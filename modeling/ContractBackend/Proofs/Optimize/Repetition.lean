import ContractBackend.Proofs.Ideal.Machine
import ContractBackend.Proofs.Machine.Sequences
import ContractBackend.Proofs.Optimize.Records

/-!
# Values that are duplicated instead of being computed again

Plain code that only adds values to the stack adds the same ones when it is executed again right
away, or there is no room for them. So duplicating them does the same.
-/

namespace ContractBackend

open Machine (Limits Environment Memory Value Flow Fault Passage State Code)
open Machine.Straight (Bounded Refines)
open Relation (ReflTransGen)

namespace Dedupe

variable {limits : Limits} {env : Environment} {arguments : Instr → List Argument}
  {version : Version} {instr : Instr} {instrs shorter window rest : List Instr}
  {memory after : Memory} {line steps : Nat} {top below : List Value}

/-- A plain instruction, and what it does where more lies below. -/
theorem execute_of_isPlain {flow : Flow} {effect : StackEffect} (plain : isPlain instr = true)
    (known : instr.effect? = some effect) (enough : effect.pops ≤ top.length)
    (isOk : Machine.execute limits env ⟨instr.op, line⟩ (arguments instr)
      { memory with stack := top ++ below } = .ok (flow, after)) :
    flow = .next ∧ ∃ made, made.length = top.length - effect.pops + effect.pushes ∧
      after = { memory with stack := made ++ below } ∧
      ∀ below' line', below.length ≤ below'.length →
        Machine.execute limits env ⟨instr.op, line'⟩ (arguments instr)
            { memory with stack := top ++ below' } =
          .ok (.next, { memory with stack := made ++ below' }) ∨
        Machine.execute limits env ⟨instr.op, line'⟩ (arguments instr)
            { memory with stack := top ++ below' } =
          .error (.stackLimitExceeded limits.maxStack) := by
  have quiet : instr.op.hasSideEffects = false := by
    simp only [isPlain, Bool.and_eq_true, Bool.not_eq_true'] at plain
    exact plain.2
  obtain ⟨pops, pushes⟩ := Ideal.touched_of_isPlain plain known (arguments instr)
  obtain ⟨flows, performs⟩ := Machine.flows_of_execute isOk
  obtain ⟨made, count, isStack⟩ := performs.stack
  rw [pops, List.drop_append_of_le_length enough, ← List.append_assoc] at isStack
  have isAfter := (Machine.execute_within isOk).2 quiet
  rw [isStack] at isAfter
  cases flows.eq_next_of_quiet quiet
  refine ⟨rfl, made ++ top.drop effect.pops, ?_, isAfter, fun below' line' more => ?_⟩
  · rw [List.length_append, List.length_drop, count, pushes, Nat.add_comm]
  · have beside : Machine.Beside (.level limits limits below below'
          (Nat.sub_le_sub_left more _)) top { memory with stack := top ++ below }
        { memory with stack := top ++ below' } :=
      ⟨rfl, rfl, rfl, rfl, rfl⟩
    have enough : Machine.touched instr.op (arguments instr) ≤ top.length := pops.symm ▸ enough
    have alike := Machine.execute_level env line line' beside (.inr enough)
    rw [isOk] at alike
    generalize Machine.execute limits env ⟨instr.op, line'⟩ _ _ = result at alike ⊢
    cases alike with
    | full => exact .inr rfl
    | @ok _ _ after' top' beside' =>
      have isTop : top' = made ++ top.drop effect.pops :=
        List.append_cancel_right (beside'.stack.symm.trans isStack)
      rw [beside'.eq, isTop, isAfter]
      exact .inl rfl

/-- Plain code, and what it does where more lies below. -/
theorem run_of_isPlain {position high : Nat} {passage : Passage}
    (plain : ∀ instr ∈ window, isPlain instr = true)
    (net : StackHeight.checkFrom position window top.length = .ok high)
    (isOk : Machine.Straight.run limits env arguments window line
      { memory with stack := top ++ below } steps = .ok passage) :
    ∃ made, made.length = high ∧
      passage = ⟨none, { memory with stack := made ++ below }, steps + window.length⟩ ∧
      (made ++ below).length ≤ max limits.maxStack (top ++ below).length ∧
      ∀ below' line' steps', below.length ≤ below'.length →
        Bounded (Machine.Straight.run limits env arguments window line'
            { memory with stack := top ++ below' } steps')
          ⟨none, { memory with stack := made ++ below' }, steps' + window.length⟩ := by
  induction window generalizing position top line steps with
  | nil =>
    cases net
    cases isOk
    exact ⟨top, rfl, rfl, Nat.le_max_right _ _, fun _ _ _ _ => .inl rfl⟩
  | cons instr rest ih =>
    rw [List.forall_mem_cons] at plain
    obtain ⟨effect, known, enough, net⟩ := StackHeight.of_checkFrom_cons net
    rw [Machine.Straight.run, Fallible.bind_eq_ok] at isOk
    obtain ⟨between, isFirst, isOk⟩ := isOk
    obtain ⟨_, flow, after, executed, rfl⟩ := Machine.Straight.execute_eq_ok.mp isFirst
    obtain ⟨rfl, made, count, rfl, again⟩ := execute_of_isPlain plain.1 known enough executed
    rw [← count] at net
    obtain ⟨last, isLast, isPassage, fits, behind⟩ := ih plain.2 net isOk
    have room := (Machine.execute_within executed).1
    refine ⟨last, isLast, ?_, ?_, fun below' line' steps' more => ?_⟩
    · rw [isPassage, List.length_cons, Nat.add_assoc, Nat.add_comm 1]
    · exact Nat.le_trans fits (Nat.max_le.mpr ⟨Nat.le_max_left _ _, room⟩)
    · have first := Machine.Straight.bounded_execute (again below' (line' + 1) more) steps'
      rw [List.length_cons, Nat.add_comm rest.length, ← Nat.add_assoc]
      exact first.bind (behind below' (line' + 1) (steps' + 1) more)

/-- The instruction that replaces a window duplicates the values that it has added. -/
theorem execute_replacement {made base : List Value} {others : List Argument}
    (found : replacement? version window = some instr)
    (net : StackHeight.checkFrom 0 window 0 = .ok made.length)
    (room : (made ++ (made ++ base)).length ≤ limits.maxStack) :
    Machine.execute limits env ⟨instr.op, line⟩ others { memory with stack := made ++ base } =
      .ok (.next, { memory with stack := made ++ (made ++ base) }) := by
  simp only [List.length_append] at room
  rcases (of_replacement? found).2 with ⟨one, rfl⟩ | ⟨two, rfl⟩
  · have count : made.length = 1 := Except.ok.inj (net.symm.trans one)
    have free : base.length + 1 < limits.maxStack := by omega
    obtain ⟨value, rfl⟩ := List.length_eq_one_iff.mp count
    exact Machine.execute_dup rfl free
  · have count : made.length = 2 := Except.ok.inj (net.symm.trans two)
    have free : base.length + 3 < limits.maxStack := by omega
    obtain ⟨upper, lower, rfl⟩ := List.length_eq_two.mp count
    exact Machine.execute_dup2 rfl free

/-- Executing a window once and duplicating its values is as good as executing it twice. -/
theorem refines_replacement (found : replacement? version window = some instr)
    (line : Nat) (memory : Memory) (steps : Nat) :
    Refines (Machine.Straight.run limits env arguments (window ++ (window ++ rest)) line memory steps)
      (Machine.Straight.run limits env arguments (window ++ instr :: rest) line memory steps) := by
  obtain ⟨plain, nets⟩ := of_replacement? found
  obtain ⟨high, net, positive⟩ :
      ∃ high, StackHeight.checkFrom 0 window 0 = .ok high ∧ 0 < high :=
    nets.elim (fun one => ⟨1, one.1, Nat.one_pos⟩) fun two => ⟨2, two.1, Nat.two_pos⟩
  have nonempty : window ≠ [] := (replacement?_cases found).1
  rw [Machine.Straight.run_append, Machine.Straight.run_append]
  cases first : Machine.Straight.run limits env arguments window line memory steps with
  | error fault => exact .refl _
  | ok passage =>
    obtain ⟨made, rfl, rfl, _, again⟩ :=
      @run_of_isPlain limits env arguments window memory line steps [] memory.stack 0 high passage
        plain net first
    have more : memory.stack.length ≤ (made ++ memory.stack).length := by
      rw [List.length_append]
      exact Nat.le_add_left _ _
    have second := again (made ++ memory.stack) (line + window.length) (steps + window.length) more
    simp only [Fallible.ok_bind, Passage.andThen]
    rw [Machine.Straight.run_append]
    rcases second with isOk | ⟨fault, isLimit, fails⟩
    · -- The second time has left room for the values that it has added.
      obtain ⟨made', count, _, fits, _⟩ :=
        @run_of_isPlain limits env arguments window memory _ _ [] (made ++ memory.stack) 0
          made.length _ plain net isOk
      have room : (made ++ (made ++ memory.stack)).length ≤ limits.maxStack := by
        simp only [List.length_append, count, List.length_nil] at fits ⊢
        omega
      have inTime := Machine.Straight.lt_of_run_eq_ok nonempty isOk
      have duplicated : Machine.Straight.execute limits env arguments instr (line + window.length)
          { memory with stack := made ++ memory.stack } (steps + window.length) =
            .ok ⟨none, { memory with stack := made ++ (made ++ memory.stack) },
              steps + window.length + 1⟩ :=
        Machine.Straight.execute_eq_ok.mpr
          ⟨inTime, .next, _, execute_replacement found net room, rfl⟩
      have isOk : Machine.Straight.run limits env arguments window (line + window.length)
          { memory with stack := made ++ memory.stack } (steps + window.length) = _ := isOk
      rw [isOk, Machine.Straight.run, duplicated]
      exact Machine.Straight.refines_run
        (Nat.add_le_add_left (List.length_pos_iff.mpr nonempty) _)
    · have fails : Machine.Straight.run limits env arguments window (line + window.length)
          { memory with stack := made ++ memory.stack } (steps + window.length) = _ := fails
      rw [fails]
      intro noLimit
      exact absurd (noLimit.symm.trans isLimit) Bool.false_ne_true

theorem Once.refines (once : Once version instrs shorter) (line : Nat) (memory : Memory)
    (steps : Nat) :
    Refines (Machine.Straight.run limits env arguments instrs line memory steps)
      (Machine.Straight.run limits env arguments shorter line memory steps) := by
  cases once with
  | @intro front window rest instr found =>
    rw [Machine.Straight.run_append, Machine.Straight.run_append]
    exact .bind _ (refines_replacement found _)

theorem refines_block (version : Version) (instrs : List Instr) (line : Nat) (memory : Memory)
    (steps : Nat) :
    Refines (Machine.Straight.run limits env arguments instrs line memory steps)
      (Machine.Straight.run limits env arguments (block version instrs).1 line memory steps) := by
  have replaced : ReflTransGen (Once version) instrs (block version instrs).1 := reflTransGen_block
  generalize (block version instrs).1 = shorter at replaced
  induction replaced with
  | refl => exact .refl _
  | tail _ once ih => exact ih.trans (once.refines line memory steps)

/-- What every instruction of a block has, and the instructions that duplicate, every instruction
has that is left. -/
theorem forall_mem_block {property : Instr → Prop} (dup : property ⟨.dup, []⟩)
    (dup2 : property ⟨.dup2, []⟩) (each : ∀ instr ∈ instrs, property instr) :
    ∀ instr ∈ (block version instrs).1, property instr := by
  have replaced : ReflTransGen (Once version) instrs (block version instrs).1 := reflTransGen_block
  generalize (block version instrs).1 = shorter at replaced
  induction replaced with
  | refl => exact each
  | tail _ once ih => exact once.forall_mem dup dup2 ih

end Dedupe

/-! ## Linked code -/

namespace Link.Resolver

variable {resolver : Resolver} {scope : String} {instrs : List Instr} {lines : List Line}

/-- The arguments of an instruction, if they can be resolved. -/
def arguments (resolver : Resolver) (scope : String) (instr : Instr) : List Argument :=
  (instr.operands.mapM (resolver.operand scope)).toOption.getD []

/-- The instruction can be resolved. -/
def Resolves (resolver : Resolver) (scope : String) (instr : Instr) : Prop :=
  instr.operands.mapM (resolver.operand scope) = .ok (resolver.arguments scope instr)

/-- Straight code is resolved instruction by instruction. -/
theorem code_eq_ok_iff : resolver.code scope (instrs.map .instr) = .ok lines ↔
    (∀ instr ∈ instrs, resolver.Resolves scope instr) ∧
      lines = instrs.map fun instr => .instr instr.op (resolver.arguments scope instr) := by
  rw [code, List.mapM_map, Fallible.mapM_eq_ok]
  constructor
  · intro linked
    induction linked with
    | nil => exact ⟨fun _ => by rintro ⟨⟩, rfl⟩
    | @cons instr line instrs lines isLine _ ih =>
      obtain ⟨given, resolved, isLine⟩ := Fallible.bind_eq_ok.mp isLine
      have isGiven : resolver.arguments scope instr = given := by
        rw [arguments, resolved]
        rfl
      subst isGiven
      cases isLine
      obtain ⟨resolves, rfl⟩ := ih
      exact ⟨List.forall_mem_cons.mpr ⟨resolved, resolves⟩, rfl⟩
  · rintro ⟨resolves, rfl⟩
    rw [List.forall₂_map_right_iff, List.forall₂_same]
    intro instr member
    have resolved : instr.operands.mapM (resolver.operand scope) = _ := resolves instr member
    rw [Function.comp_apply, item, resolved]
    rfl

end Link.Resolver

/-- Straight code stands where it has been put in a listing. -/
theorem Machine.Code.getElem?_ofLines {instrs : List Instr} {arguments : Instr → List Argument}
    {offset : Nat} {instr : Instr} (front behind : List Line)
    (here : instrs[offset]? = some instr) :
    (Code.ofLines (front ++ (instrs.map fun instr => .instr instr.op (arguments instr)) ++
        behind)).lines[front.length + offset]? = some (.instr instr.op (arguments instr)) := by
  obtain ⟨inside, _⟩ := List.getElem?_eq_some_iff.mp here
  have inside' : offset < (instrs.map fun instr => Line.instr instr.op (arguments instr)).length := by
    rwa [List.length_map]
  rw [ofLines, List.getElem?_toArray, List.append_assoc,
    List.getElem?_append_right (Nat.le_add_right _ _), Nat.add_sub_cancel_left,
    List.getElem?_append_left inside', List.getElem?_map, here]
  rfl

/-- Duplicating values does what computing them again does. Code without jumps is linked after
repeated values have been replaced if it is linked before. Wherever the two stand in a listing and
whatever the state of the machine: where the code before goes through or ends the run, so does the
code after, with the same memory and in no more steps; and where the code before fails, and not for
a bound of the machine, the code after fails for the same reason. -/
theorem duplication_preserves_execution {resolver : Link.Resolver} {scope : String}
    {instrs : List Instr} {lines : List Line} (version : Version)
    (straight : ∀ instr ∈ instrs, instr.op.isJump = false)
    (linked : resolver.code scope (instrs.map .instr) = .ok lines) :
    ∃ lines', resolver.code scope ((Dedupe.block version instrs).1.map .instr) = .ok lines' ∧
      ∀ (limits : Limits) (env : Environment) (memory : Memory) (frames : List Nat) (steps : Nat)
        (front behind front' behind' : List Line),
        Machine.Improves (front.length + lines.length) (front'.length + lines'.length)
          (State.advance limits env (Code.ofLines (front ++ lines ++ behind)) lines.length
            ⟨memory, front.length, frames, steps⟩)
          (State.advance limits env (Code.ofLines (front' ++ lines' ++ behind')) lines'.length
            ⟨memory, front'.length, frames, steps⟩) := by
  obtain ⟨resolves, rfl⟩ := Link.Resolver.code_eq_ok_iff.mp linked
  have straight' : ∀ instr ∈ (Dedupe.block version instrs).1, instr.op.isJump = false :=
    Dedupe.forall_mem_block rfl rfl straight
  have resolves' : ∀ instr ∈ (Dedupe.block version instrs).1, resolver.Resolves scope instr :=
    Dedupe.forall_mem_block rfl rfl resolves
  refine ⟨_, Link.Resolver.code_eq_ok_iff.mpr ⟨resolves', rfl⟩, ?_⟩
  intro limits env memory frames steps front behind front' behind'
  simp only [List.length_map]
  rw [Machine.Straight.advance_eq straight fun _ _ => Machine.Code.getElem?_ofLines front behind,
    Machine.Straight.advance_eq straight' fun _ _ => Machine.Code.getElem?_ofLines front' behind']
  have replaced : Refines (Machine.Straight.run limits env (resolver.arguments scope) instrs
      front.length memory steps) _ := Dedupe.refines_block version instrs front.length memory steps
  exact (replaced.trans (Machine.Straight.refines_run (Nat.le_refl _))).improves _ _ _

/-- A field and a number, twice in a row, added up to a verdict. -/
def feeTwice : List Instr :=
  [⟨.txn, [.name "Fee"]⟩, .int 3, ⟨.txn, [.name "Fee"]⟩, .int 3, ⟨.mul, []⟩, ⟨.add, []⟩,
    ⟨.add, []⟩, ⟨.ret, []⟩]

/-- The lines of the code. -/
def feeTwiceLines : List Line :=
  [.instr .txn [.name "Fee"], .instr .int [.uint 3], .instr .txn [.name "Fee"],
    .instr .int [.uint 3], .instr .mul [], .instr .add [], .instr .add [], .instr .ret []]

theorem duplication_preserves_execution_feeTwice :
    (∀ instr ∈ feeTwice, instr.op.isJump = false) ∧
    (⟨{}, []⟩ : Link.Resolver).code "main_" (feeTwice.map .instr) = .ok feeTwiceLines ∧
    (Dedupe.block 8 feeTwice).2 = 1 ∧
    ∃ lines', (⟨{}, []⟩ : Link.Resolver).code "main_" ((Dedupe.block 8 feeTwice).1.map .instr) =
        .ok lines' ∧
      ∀ (limits : Limits) (env : Environment) (memory : Memory) (frames : List Nat) (steps : Nat)
        (front behind front' behind' : List Line),
        Machine.Improves (front.length + feeTwiceLines.length) (front'.length + lines'.length)
          (State.advance limits env (Code.ofLines (front ++ feeTwiceLines ++ behind))
            feeTwiceLines.length ⟨memory, front.length, frames, steps⟩)
          (State.advance limits env (Code.ofLines (front' ++ lines' ++ behind')) lines'.length
            ⟨memory, front'.length, frames, steps⟩) := by
  have straight : ∀ instr ∈ feeTwice, instr.op.isJump = false := by decide
  have linked : (⟨{}, []⟩ : Link.Resolver).code "main_" (feeTwice.map .instr) =
      .ok feeTwiceLines := rfl
  exact ⟨straight, linked, by decide, duplication_preserves_execution 8 straight linked⟩

end ContractBackend
