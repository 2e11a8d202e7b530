import ContractBackend.Proofs.Machine.Primitives
import ContractBackend.StackEffect

/-!
# The same instruction side by side

An instruction that stands on two lines of two listings does the same on memories that differ in
what lies below the values it touches and in cells it does not read. It fails for the same reason,
or for want of room where there is less of it. What it does on one side is said at once: how control
goes on behind it, how many values it takes off the stack and puts on it, which instructions store
to cells, and how they can fail.
-/

namespace ContractBackend

/-- Arguments that no instruction tells apart: labels matter to branches and calls only. -/
inductive Argument.Alike : Argument → Argument → Prop where
  | refl (argument : Argument) : Alike argument argument
  | label (left right : String) : Alike (.label left) (.label right)

namespace Opcode

/-- How control can go on behind an opcode. -/
def Flows : Opcode → Machine.Flow → Prop
  | .bnz, flow | .bz, flow => flow = .next ∨ flow = .jump
  | .b, flow => flow = .jump
  | .callsub, flow => flow = .call
  | .retsub, flow => flow = .back
  | .ret, flow => ∃ approved, flow = .halt approved
  | .err, _ => False
  | _, flow => flow = .next

variable {op : Opcode}

theorem Flows.eq_next {flow : Machine.Flow} (flows : op.Flows flow) (goes : op.isExit = false)
    (straight : op.isBranch = false) (noCall : op ≠ .callsub) : flow = .next := by
  cases op <;> first | exact flows | exact absurd goes (by decide) |
    exact absurd straight (by decide) | exact absurd rfl noCall

theorem Flows.eq_next_of_quiet {flow : Machine.Flow} (flows : op.Flows flow)
    (quiet : op.hasSideEffects = false) : flow = .next := by
  cases op <;> first | exact flows | cases quiet

/-- What kind of immediate an opcode has to have. -/
inductive Immediate where
  | nothing
  | number
  | literal
  | name

/-- The immediate that an opcode has to have. -/
def immediate : Opcode → Immediate
  | .int | .pushint | .arg | .load | .store | .dig | .cover | .uncover => .number
  | .byte | .pushbytes => .literal
  | .txn | .global => .name
  | _ => .nothing

/-- Whether arguments begin with such an immediate. -/
def Immediate.begins : Immediate → List Argument → Bool
  | .nothing, _ | .number, .uint _ :: _ | .literal, .bytes _ :: _ | .literal, .text _ :: _
  | .name, .name _ :: _ => true
  | _, _ => false

/-- Whether the immediate that the opcode needs is there. -/
def suits (op : Opcode) (arguments : List Argument) : Bool := op.immediate.begins arguments

end Opcode

namespace Machine

/-- How many values, from the top of the stack, an instruction takes off, reads or moves. -/
def touched (op : Opcode) (arguments : List Argument) : Nat :=
  if op.readsDeepStack then
    match arguments with
    | .uint depth :: _ => depth.toNat + 1
    | _ => 0
  else
    match (⟨op, []⟩ : Instr).effect? with
    | some effect => effect.pops
    | none => 0

/-- How many values an instruction leaves in place of those it touches. -/
def yielded (op : Opcode) (arguments : List Argument) : Nat :=
  if op.readsDeepStack then
    match arguments with
    | .uint depth :: _ => depth.toNat + if op = .dig then 2 else 1
    | _ => 0
  else
    match (⟨op, []⟩ : Instr).effect? with
    | some effect => effect.pushes
    | none => 0

/-- The stack effect of an instruction is what it does, if a depth among its operands is the one it
finds. -/
theorem touched_of_depth {instr : Instr} {effect : StackEffect}
    (known : instr.effect? = some effect) (finds : instr.op.readsDeepStack = true → ∀ depth others,
      instr.operands = .uint depth :: others → ∃ rest, arguments = .uint depth :: rest) :
    touched instr.op arguments = effect.pops ∧ yielded instr.op arguments = effect.pushes := by
  obtain ⟨op, operands⟩ := instr
  cases op with
  | dig | cover | uncover =>
    obtain ⟨depth, isDepth, rfl⟩ := Option.map_eq_some_iff.mp known
    simp only [Instr.immediate?] at isDepth
    split at isDepth
    next value others =>
      cases isDepth
      obtain ⟨rest, rfl⟩ := finds rfl value others rfl
      exact ⟨rfl, rfl⟩
    next => cases isDepth
  | callsub | retsub => cases known
  | _ =>
    cases known
    exact ⟨rfl, rfl⟩

/-- What an instruction does to the stack, for which there is room, to the cells and to what can be
seen from outside. -/
structure Performs (limits : Limits) (op : Opcode) (arguments : List Argument)
    (memory after : Memory) : Prop where
  enough : touched op arguments ≤ memory.stack.length
  stack : ∃ made, made.length = yielded op arguments ∧
    after.stack = made ++ memory.stack.drop (touched op arguments)
  fits : after.stack.length ≤ max limits.maxStack memory.stack.length
  scratch : op ≠ .store → op ≠ .stores → after.scratch = memory.scratch
  quiet : op.hasSideEffects = false →
    after.effects = memory.effects ∧ after.appState = memory.appState

/-- Whether a fault is the fault of the listing, not of the values in a run. -/
def Fault.isStray : Fault → Bool
  | .badImmediate _ | .unknownLabel _ | .noActiveCall _ | .badFinalStack _ => true
  | _ => false

/-- The immediate does not suit where the fault is one of the listing, and the stack is short where
it lacks a value. -/
def Fault.Accounted (suits : Bool) (short : Prop) : Fault → Prop
  | .badImmediate _ | .unknownLabel _ | .noActiveCall _ | .badFinalStack _ => suits = false
  | .stackUnderflow _ => short
  | _ => True

namespace Fault

/-- The fault without the line it arose on. -/
def unplaced : Fault → Fault
  | .stackUnderflow site => .stackUnderflow ⟨site.op, 0⟩
  | .typeMismatch site expected found => .typeMismatch ⟨site.op, 0⟩ expected found
  | .overflow site => .overflow ⟨site.op, 0⟩
  | .divisionByZero _ => .divisionByZero 0
  | .assertionFailed _ => .assertionFailed 0
  | .failed _ => .failed 0
  | .badImmediate site => .badImmediate ⟨site.op, 0⟩
  | .bytesTooLong _ => .bytesTooLong 0
  | .noActiveCall _ => .noActiveCall 0
  | fault => fault

end Fault

/-- Whether an instruction reads a cell. -/
def Reads (op : Opcode) (arguments : List Argument) (cell : Cell) : Prop :=
  op = .loads ∨ op = .load ∧ ∃ index others, arguments = .uint index :: others ∧
    index.toNat = cell.val

/-- Faults of the values in a run that differ at most in their lines. -/
structure Fault.Recurs (fault fault' : Fault) : Prop where
  same : fault'.unplaced = fault.unplaced
  own : ∀ suits short, fault.Accounted suits short

/-- Two sides on which code is executed. There is no more room on the second one. -/
structure Sides where
  limits : Limits
  limits' : Limits
  /-- What lies below the topmost values. -/
  below : List Value
  below' : List Value
  /-- What the cells of the two sides have in common. -/
  cells : Vector Value cellCount → Vector Value cellCount → Prop
  less : limits'.maxStack - below'.length ≤ limits.maxStack - below.length

/-- Two memories with the same topmost values, which differ at most in what lies below them and in
their cells. -/
structure Beside (sides : Sides) (top : List Value) (memory memory' : Memory) : Prop where
  stack : memory.stack = top ++ sides.below
  stack' : memory'.stack = top ++ sides.below'
  cells : sides.cells memory.scratch memory'.scratch
  effects : memory'.effects = memory.effects
  appState : memory'.appState = memory.appState

/-- How far an instruction has come on two sides. Of the values it touches some are left to be
taken, and others stand in place of those it has taken. -/
inductive Underway (sides : Sides) (total need : Nat) (values : List Value) :
    Memory → Memory → Memory → Memory → Prop where
  | mk {start start' : Memory} (taken rest : List Value) :
      Beside sides (taken ++ rest) start start' → taken.length + need = total →
      (sides.below = [] ∧ sides.below' = []) ∨ need ≤ rest.length →
      (values ++ (rest ++ sides.below)).length ≤ max sides.limits.maxStack start.stack.length →
      Underway sides total need values start start'
        { start with stack := values ++ (rest ++ sides.below) }
        { start' with stack := values ++ (rest ++ sides.below') }

namespace Exec

/-- Two results of an instruction that are the same, up to the line of a fault, and that are what
the instruction can do; or there is no room on the second side. -/
inductive Matches (sides : Sides) (op : Opcode) (arguments : List Argument) (start : Memory) :
    Except Fault (Flow × Memory) → Except Fault (Flow × Memory) → Prop where
  | ok {flow : Flow} {after after' : Memory} (top : List Value) : Beside sides top after after' →
      op.Flows flow → Performs sides.limits op arguments start after →
      Matches sides op arguments start (.ok (flow, after)) (.ok (flow, after'))
  | error {fault fault' : Fault} : fault'.unplaced = fault.unplaced →
      fault.Accounted (op.suits arguments) (start.stack.length < touched op arguments) →
      Matches sides op arguments start (.error fault) (.error fault')
  | crowded : Matches sides op arguments start
      (.error (.stackLimitExceeded sides.limits.maxStack))
      (.error (.stackLimitExceeded sides.limits'.maxStack))
  | full {result : Except Fault (Flow × Memory)} :
      sides.limits'.maxStack - sides.below'.length < sides.limits.maxStack - sides.below.length →
      Matches sides op arguments start result (.error (.stackLimitExceeded sides.limits'.maxStack))

/-- What is left of an instruction goes side by side, with a number of values left to be taken and
others in place of those it has taken. -/
def Parallel (sides : Sides) (op : Opcode) (arguments : List Argument) (need : Nat)
    (values : List Value) (left right : Exec Flow) : Prop :=
  ∀ start start' memory memory',
    Underway sides (touched op arguments) need values start start' memory memory' →
    Matches sides op arguments start (left memory) (right memory')

variable {β : Type} {sides : Sides} {op : Opcode} {line line' need : Nat} {values : List Value}
  {arguments arguments' : List Argument} {rest rest' : Value → Exec Flow} {flow : Flow}

/-- An instruction goes side by side from its start if nothing lies below, or if there are as many
topmost values as it touches. -/
theorem Parallel.starts {left right : Exec Flow} {top : List Value} {memory memory' : Memory}
    (goes : Parallel sides op arguments (touched op arguments) [] left right)
    (beside : Beside sides top memory memory')
    (enough : (sides.below = [] ∧ sides.below' = []) ∨ touched op arguments ≤ top.length) :
    Matches sides op arguments memory (left memory) (right memory') := by
  have fits : ([] ++ (top ++ sides.below)).length ≤
      max sides.limits.maxStack memory.stack.length := by
    rw [List.nil_append, ← beside.stack]
    exact Nat.le_max_right ..
  have matched := goes _ _ _ _ (.mk [] top beside (Nat.zero_add _) enough fits)
  rwa [List.nil_append, List.nil_append, ← beside.stack, ← beside.stack'] at matched

/-! ## Ends -/

/-- An instruction that has taken all values ends with a change to the rest of the memory. -/
theorem parallel_change {left right : Exec Flow} (change : Memory → Memory)
    (isLeft : ∀ memory, left memory = .ok (flow, change memory))
    (isRight : ∀ memory, right memory = .ok (flow, change memory)) (flows : op.Flows flow)
    (yields : values.length = yielded op arguments)
    (stack : ∀ memory, (change memory).stack = memory.stack)
    (scratch : op ≠ .store → op ≠ .stores → ∀ memory, (change memory).scratch = memory.scratch)
    (quiet : op.hasSideEffects = false → ∀ memory, (change memory).effects = memory.effects ∧
      (change memory).appState = memory.appState)
    (same : ∀ top memory memory', Beside sides top memory memory' →
      Beside sides top (change memory) (change memory')) :
    Parallel sides op arguments 0 values left right := by
  rintro start start' _ _ ⟨taken, others, begins, count, -, fits⟩
  rw [isLeft, isRight]
  have isStack : start.stack = taken ++ (others ++ sides.below) := by
    rw [begins.stack, List.append_assoc]
  refine .ok (values ++ others) (same _ _ _ ⟨?_, ?_, begins.cells, begins.effects, begins.appState⟩)
    flows ⟨?_, ⟨values, yields, ?_⟩, ?_, fun noStore noStores => scratch noStore noStores _,
      fun isQuiet => quiet isQuiet _⟩
  · exact (List.append_assoc ..).symm
  · exact (List.append_assoc ..).symm
  · rw [isStack, List.length_append, ← count]
    omega
  · rw [stack, isStack, ← count, Nat.add_zero, List.drop_left]
  · rw [stack]
    exact fits

theorem parallel_pure (flows : op.Flows flow) (yields : values.length = yielded op arguments) :
    Parallel sides op arguments 0 values (pure flow) (pure flow) :=
  parallel_change id (fun _ => rfl) (fun _ => rfl) flows yields (fun _ => rfl) (fun _ _ _ => rfl)
    (fun _ _ => ⟨rfl, rfl⟩) fun _ _ _ => id

theorem parallel_throw {fault fault' : Fault}
    (recurs : fault.Recurs fault' := by exact ⟨rfl, fun _ _ => by trivial⟩) :
    Parallel sides op arguments need values (throw fault) (throw fault') :=
  fun _ _ _ _ _ => .error recurs.same (recurs.own _ _)

/-- The immediate is missing. -/
theorem parallel_stray {rest rest' : β → Exec Flow} (stray : op.suits arguments = false) :
    Parallel sides op arguments need values (throw (.badImmediate ⟨op, line⟩) >>= rest)
      (throw (.badImmediate ⟨op, line'⟩) >>= rest') :=
  fun _ _ _ _ _ => .error rfl stray

/-! ## Results and cells -/

theorem parallel_lift {result result' : Except Fault β} {rest rest' : β → Exec Flow}
    (same : Fallible.Related Fault.Recurs Eq result result')
    (behind : ∀ value, Parallel sides op arguments need values (rest value) (rest' value)) :
    Parallel sides op arguments need values (liftM result >>= rest) (liftM result' >>= rest') := by
  cases same with
  | ok same =>
    cases same
    exact behind _
  | error recurs => exact parallel_throw recurs

theorem parallel_get {rest rest' : Memory → Exec Flow}
    (behind : ∀ memory memory', memory'.appState = memory.appState →
      Parallel sides op arguments need values (rest memory) (rest' memory')) :
    Parallel sides op arguments need values (get >>= rest) (get >>= rest') := by
  intro start start' memory memory' underway
  have same : memory'.appState = memory.appState := by
    obtain ⟨_, _, begins, _⟩ := underway
    exact begins.appState
  exact behind memory memory' same _ _ _ _ underway

theorem parallel_cell {index : UInt64} {rest rest' : Cell → Exec Flow}
    (behind : ∀ cell : Cell, index.toNat = cell.val →
      Parallel sides op arguments need values (rest cell) (rest' cell)) :
    Parallel sides op arguments need values (cell index >>= rest) (cell index >>= rest') := by
  rw [cell]
  split
  next inside => exact behind ⟨index.toNat, inside⟩ rfl
  next => exact parallel_throw

theorem parallel_readCell {index : Cell}
    (same : ∀ left right, sides.cells left right → right.get index = left.get index)
    (behind : ∀ value, Parallel sides op arguments need values (rest value) (rest' value)) :
    Parallel sides op arguments need values (readCell index >>= rest)
      (readCell index >>= rest') := by
  intro start start' memory memory' underway
  have same : memory'.scratch.get index = memory.scratch.get index := by
    obtain ⟨_, _, begins, _⟩ := underway
    exact same _ _ begins.cells
  rw [bind_apply, bind_apply, readCell_apply, readCell_apply, same]
  exact behind _ _ _ _ _ underway

theorem parallel_writeCell {index : Cell} {value : Value} (stores : op = .store ∨ op = .stores)
    (keeps : ∀ left right, sides.cells left right →
      sides.cells (left.set index value index.isLt) (right.set index value index.isLt)) :
    Parallel sides op arguments 0 [] (do writeCell index value; pure Flow.next)
      (do writeCell index value; pure .next) := by
  refine parallel_change
    (fun memory => { memory with scratch := memory.scratch.set index value index.isLt })
    (fun _ => rfl) (fun _ => rfl) ?_ ?_ (fun _ => rfl) ?_ ?_ fun top memory memory' beside =>
      ⟨beside.stack, beside.stack', keeps _ _ beside.cells, beside.effects, beside.appState⟩
  · rcases stores with rfl | rfl <;> rfl
  · rcases stores with rfl | rfl <;> rfl
  · exact fun noStore noStores => (stores.elim noStore noStores).elim
  · rcases stores with rfl | rfl <;> intro <;> contradiction

/-! ## Values -/

theorem parallel_push (value : Value) {rest rest' : Unit → Exec Flow}
    (behind : Parallel sides op arguments need (value :: values) (rest ()) (rest' ())) :
    Parallel sides op arguments need values (push sides.limits value >>= rest)
      (push sides.limits' value >>= rest') := by
  rintro start start' _ _ ⟨taken, others, begins, count, enough, fits⟩
  have less := sides.less
  simp only [bind_apply, push_apply, List.length_append]
  by_cases room' : values.length + (others.length + sides.below'.length) < sides.limits'.maxStack
  · have room : values.length + (others.length + sides.below.length) < sides.limits.maxStack := by
      omega
    rw [if_pos room, if_pos room']
    refine behind _ _ _ _ ⟨taken, others, begins, count, enough, ?_⟩
    simp only [List.length_append, List.length_cons]
    omega
  · by_cases room : values.length + (others.length + sides.below.length) < sides.limits.maxStack
    · rw [if_neg room']
      exact .full (by omega)
    · rw [if_neg room, if_neg room']
      exact .crowded

theorem parallel_pop
    (behind : ∀ value, Parallel sides op arguments need [] (rest value) (rest' value)) :
    Parallel sides op arguments (need + 1) [] (pop ⟨op, line⟩ >>= rest)
      (pop ⟨op, line'⟩ >>= rest') := by
  rintro start start' _ _ ⟨taken, others, begins, count, enough, fits⟩
  cases others with
  | nil =>
    obtain ⟨none, none'⟩ := enough.resolve_right (Nat.not_succ_le_zero need)
    rw [none, none']
    refine .error rfl (show start.stack.length < _ from ?_)
    rw [begins.stack, none, List.append_nil, List.append_nil]
    omega
  | cons value others =>
    have begins : Beside sides (taken ++ [value] ++ others) start start' := by simpa using begins
    refine behind value start start' _ _ ⟨taken ++ [value], others, begins, ?_, ?_, ?_⟩
    · rw [List.length_append, List.length_singleton]
      omega
    · exact enough.imp_right Nat.le_of_succ_le_succ
    · exact Nat.le_trans (Nat.le_succ _) fits

theorem parallel_popUint {rest rest' : UInt64 → Exec Flow}
    (behind : ∀ value, Parallel sides op arguments need [] (rest value) (rest' value)) :
    Parallel sides op arguments (need + 1) [] (popUint ⟨op, line⟩ >>= rest)
      (popUint ⟨op, line'⟩ >>= rest') := by
  rw [popUint, popUint, bind_assoc, bind_assoc]
  refine parallel_pop fun value => ?_
  cases value with
  | uint value => exact behind value
  | bytes => exact parallel_throw

theorem parallel_popBytes {rest rest' : List UInt8 → Exec Flow}
    (behind : ∀ value, Parallel sides op arguments need [] (rest value) (rest' value)) :
    Parallel sides op arguments (need + 1) [] (popBytes ⟨op, line⟩ >>= rest)
      (popBytes ⟨op, line'⟩ >>= rest') := by
  rw [popBytes, popBytes, bind_assoc, bind_assoc]
  refine parallel_pop fun value => ?_
  cases value with
  | bytes value => exact behind value
  | uint => exact parallel_throw

/-! ## Immediates -/

theorem parallel_uintArgument {rest rest' : UInt64 → Exec Flow} (kind : op.immediate = .number)
    (alike : List.Forall₂ Argument.Alike arguments arguments')
    (behind : ∀ value others, arguments = .uint value :: others →
      Parallel sides op arguments need values (rest value) (rest' value)) :
    Parallel sides op arguments need values (uintArgument ⟨op, line⟩ arguments >>= rest)
      (uintArgument ⟨op, line'⟩ arguments' >>= rest') := by
  have stray : op.suits arguments = Opcode.Immediate.number.begins arguments := by
    rw [Opcode.suits, kind]
  -- Where the first arguments differ, both are labels.
  cases alike with
  | nil => exact parallel_stray stray
  | @cons argument _ _ _ first =>
    cases first with
    | label => exact parallel_stray stray
    | refl =>
      cases argument with
      | uint value => exact behind value _ rfl
      | _ => exact parallel_stray stray

theorem parallel_bytesArgument {rest rest' : List UInt8 → Exec Flow}
    (kind : op.immediate = .literal) (alike : List.Forall₂ Argument.Alike arguments arguments')
    (behind : ∀ value, Parallel sides op arguments need values (rest value) (rest' value)) :
    Parallel sides op arguments need values (bytesArgument ⟨op, line⟩ arguments >>= rest)
      (bytesArgument ⟨op, line'⟩ arguments' >>= rest') := by
  have stray : op.suits arguments = Opcode.Immediate.literal.begins arguments := by
    rw [Opcode.suits, kind]
  cases alike with
  | nil => exact parallel_stray stray
  | @cons argument _ _ _ first =>
    cases first with
    | label => exact parallel_stray stray
    | refl =>
      cases argument with
      | bytes | text => exact behind _
      | _ => exact parallel_stray stray

theorem parallel_field {fields : List (String × Value)} (kind : op.immediate = .name)
    (alike : List.Forall₂ Argument.Alike arguments arguments')
    (behind : ∀ value, Parallel sides op arguments need values (rest value) (rest' value)) :
    Parallel sides op arguments need values
      (nameArgument ⟨op, line⟩ arguments >>= fun name => field fields name >>= rest)
      (nameArgument ⟨op, line'⟩ arguments' >>= fun name => field fields name >>= rest') := by
  have stray : op.suits arguments = Opcode.Immediate.name.begins arguments := by
    rw [Opcode.suits, kind]
  cases alike with
  | nil => exact parallel_stray stray
  | @cons argument _ _ _ first =>
    cases first with
    | label => exact parallel_stray stray
    | refl =>
      cases argument with
      | name name =>
        simp only [nameArgument, pure_bind, field]
        split
        next => exact behind _
        next => exact parallel_throw
      | _ => exact parallel_stray stray

theorem depthArgument_apply (depth : UInt64) (others : List Argument) (memory : Memory) :
    depthArgument site (.uint depth :: others) memory =
      if depth.toNat < memory.stack.length then .ok (depth.toNat, memory)
      else .error (.stackUnderflow site) := by
  simp only [depthArgument, uintArgument, bind_apply, pure_apply, get_apply, Fallible.ok_bind]
  split <;> rfl

/-- An instruction with a depth that lies within the stack finds it within the topmost values, which
then all stand in their own place. -/
theorem parallel_depthArgument (deep : op.readsDeepStack = true) {rest rest' : Nat → Exec Flow}
    (kind : op.immediate = .number) (alike : List.Forall₂ Argument.Alike arguments arguments')
    (behind : ∀ (depth : UInt64) others values, arguments = .uint depth :: others →
      values.length = depth.toNat + 1 →
      Parallel sides op arguments 0 values (rest depth.toNat) (rest' depth.toNat)) :
    Parallel sides op arguments (touched op arguments) []
      (depthArgument ⟨op, line⟩ arguments >>= rest)
      (depthArgument ⟨op, line'⟩ arguments' >>= rest') := by
  rw [depthArgument, depthArgument, bind_assoc, bind_assoc]
  refine parallel_uintArgument kind alike fun depth others isDepth => ?_
  have total : touched op arguments = depth.toNat + 1 := by
    simp only [touched, deep, if_true, isDepth]
  rintro start start' _ _ ⟨taken, top, begins, count, enough, fits⟩
  obtain rfl : taken = [] := List.length_eq_zero_iff.mp (by omega)
  simp only [bind_apply, get_apply, Fallible.ok_bind, List.nil_append, List.length_append]
  by_cases within : depth.toNat < top.length
  · rw [if_pos (Nat.lt_add_right _ within), if_pos (Nat.lt_add_right _ within)]
    have front : (top.take (depth.toNat + 1)).length = depth.toNat + 1 :=
      List.length_take_of_le within
    have same : ∀ below, top ++ below =
        top.take (depth.toNat + 1) ++ (top.drop (depth.toNat + 1) ++ below) := fun below => by
      rw [← List.append_assoc, List.take_append_drop]
    have goes := behind depth others _ isDepth front start start' _ _
      ⟨top.take (depth.toNat + 1), top.drop (depth.toNat + 1), by
        rwa [List.take_append_drop], by omega, .inr (Nat.zero_le _), by rwa [← same]⟩
    rwa [← same, ← same] at goes
  · obtain ⟨none, none'⟩ := enough.resolve_right (by omega)
    rw [none, none', List.length_nil, Nat.add_zero, if_neg within, if_neg within]
    refine .error rfl (show start.stack.length < _ from ?_)
    rw [begins.stack, none, List.append_nil]
    exact Nat.lt_of_le_of_lt (Nat.not_lt.mp within) (by omega)

theorem insertIdx_append {stack below : List Value} {depth : Nat} (value : Value)
    (inside : depth ≤ stack.length) :
    (stack ++ below).insertIdx depth value = stack.insertIdx depth value ++ below := by
  induction stack generalizing depth with
  | nil =>
    rw [List.length_nil, Nat.le_zero] at inside
    subst inside
    rfl
  | cons head tail ih =>
    cases depth with
    | zero => rfl
    | succ depth =>
      rw [List.cons_append, List.insertIdx_succ_cons, List.insertIdx_succ_cons,
        ih (by simpa using inside), List.cons_append]

/-! ## Families of instructions -/

theorem parallel_finish (value : Value) (flows : op.Flows .next)
    (yields : values.length + 1 = yielded op arguments) :
    Parallel sides op arguments 0 values (do push sides.limits value; pure Flow.next)
      (do push sides.limits' value; pure .next) :=
  parallel_push value (parallel_pure flows yields)

theorem parallel_uintOperator {operator operator' : UInt64 → UInt64 → Except Fault UInt64}
    (flows : op.Flows .next) (yields : 1 = yielded op arguments)
    (same : ∀ left right,
      Fallible.Related Fault.Recurs Eq (operator left right) (operator' left right)) :
    Parallel sides op arguments 2 [] (uintOperator sides.limits ⟨op, line⟩ operator)
      (uintOperator sides.limits' ⟨op, line'⟩ operator') :=
  parallel_popUint fun right => parallel_popUint fun left =>
    parallel_lift (same left right) fun _ => parallel_finish _ flows yields

theorem parallel_compareValues (whenEqual : Bool) (flows : op.Flows .next)
    (yields : 1 = yielded op arguments) :
    Parallel sides op arguments 2 [] (compareValues sides.limits ⟨op, line⟩ whenEqual)
      (compareValues sides.limits' ⟨op, line'⟩ whenEqual) := by
  refine parallel_pop fun right => parallel_pop fun left => ?_
  split
  next => exact parallel_finish _ flows yields
  next => exact parallel_throw

end Exec

open Exec

variable {sides : Sides} {env : Environment} {line line' : Nat} {op : Opcode}
  {arguments arguments' : List Argument}

/-- An instruction does the same wherever it stands, whatever lies below the values it touches
and whatever cells hold that it does not read. -/
theorem execute_parallel (sides : Sides) (env : Environment) (op : Opcode) (line line' : Nat)
    (alike : List.Forall₂ Argument.Alike arguments arguments')
    (reads : ∀ cell, Reads op arguments cell →
      ∀ left right, sides.cells left right → right.get cell = left.get cell)
    (writes : op = .store ∨ op = .stores → ∀ (cell : Cell) value left right,
      sides.cells left right →
      sides.cells (left.set cell value cell.isLt) (right.set cell value cell.isLt)) :
    Parallel sides op arguments (touched op arguments) []
      (execute sides.limits env ⟨op, line⟩ arguments)
      (execute sides.limits' env ⟨op, line'⟩ arguments') := by
  cases op with
  | int | pushint => exact parallel_uintArgument rfl alike fun _ _ _ => parallel_finish _ rfl rfl
  | byte | pushbytes => exact parallel_bytesArgument rfl alike fun _ => parallel_finish _ rfl rfl
  | arg =>
    refine parallel_uintArgument rfl alike fun index _ _ => ?_
    split
    next => exact parallel_finish _ rfl rfl
    next => exact parallel_throw
  | txn | global => exact parallel_field rfl alike fun _ => parallel_finish _ rfl rfl
  | appGlobalGet =>
    refine parallel_popBytes fun key => parallel_get fun memory memory' same => ?_
    rw [same]
    exact parallel_finish _ rfl rfl
  | appGlobalPut =>
    refine parallel_pop fun value => parallel_popBytes fun key => parallel_change
      (fun memory => { memory with
        effects := memory.effects.push (.put key value)
        appState := Keyed.insert key value memory.appState })
      (fun _ => rfl) (fun _ => rfl) rfl rfl (fun _ => rfl) (fun _ _ _ => rfl)
      (by rintro ⟨⟩)
      fun top memory memory' beside => ?_
    exact ⟨beside.stack, beside.stack', beside.cells,
      congrArg (·.push (.put key value)) beside.effects,
      congrArg (Keyed.insert key value) beside.appState⟩
  | log =>
    refine parallel_popBytes fun message => parallel_change
      (fun memory => { memory with effects := memory.effects.push (.log message) })
      (fun _ => rfl) (fun _ => rfl) rfl rfl (fun _ => rfl) (fun _ _ _ => rfl)
      (by rintro ⟨⟩)
      fun top memory memory' beside => ?_
    exact ⟨beside.stack, beside.stack', beside.cells,
      congrArg (·.push (.log message)) beside.effects, beside.appState⟩
  | load =>
    refine parallel_uintArgument rfl alike fun index others isIndex =>
      parallel_cell fun cell isCell =>
        parallel_readCell (reads cell ?_) fun _ => parallel_finish _ rfl rfl
    exact .inr ⟨rfl, index, others, isIndex, isCell⟩
  | store =>
    exact parallel_uintArgument rfl alike fun _ _ _ => parallel_cell fun cell _ =>
      parallel_pop fun value => parallel_writeCell (.inl rfl) (writes (.inl rfl) cell value)
  | loads =>
    exact parallel_popUint fun _ => parallel_cell fun cell _ =>
      parallel_readCell (reads cell (.inl rfl)) fun _ => parallel_finish _ rfl rfl
  | stores =>
    exact parallel_pop fun value => parallel_popUint fun _ => parallel_cell fun cell _ =>
      parallel_writeCell (.inr rfl) (writes (.inr rfl) cell value)
  | pop => exact parallel_pop fun _ => parallel_pure rfl rfl
  | dup => exact parallel_pop fun _ => parallel_push _ (parallel_finish _ rfl rfl)
  | dup2 =>
    exact parallel_pop fun _ => parallel_pop fun _ => parallel_push _
      (parallel_push _ (parallel_push _ (parallel_finish _ rfl rfl)))
  | swap =>
    exact parallel_pop fun _ => parallel_pop fun _ => parallel_push _ (parallel_finish _ rfl rfl)
  | select =>
    exact parallel_popUint fun _ => parallel_pop fun _ => parallel_pop fun _ =>
      parallel_finish _ rfl rfl
  | dig =>
    refine parallel_depthArgument rfl rfl alike fun depth others values isDepth count => ?_
    subst isDepth
    have inside : depth.toNat < values.length := by omega
    rintro start start' _ _ ⟨taken, rest, begins, measure, enough, fits⟩
    simp only [bind_apply, get_apply, Fallible.ok_bind, List.getElem?_append_left inside,
      List.getElem?_eq_getElem inside]
    have flows : Opcode.dig.Flows .next := rfl
    exact parallel_finish values[depth.toNat] flows (congrArg (· + 1) count) _ _ _ _
      ⟨taken, rest, begins, measure, enough, fits⟩
  | cover =>
    refine parallel_depthArgument rfl rfl alike fun depth others values isDepth count => ?_
    subst isDepth
    obtain ⟨value, lower, rfl⟩ := List.exists_cons_of_length_eq_add_one count
    have inside : lower.length = depth.toNat := Nat.succ.inj count
    have made : (lower.insertIdx depth.toNat value).length = depth.toNat + 1 := by
      rw [List.length_insertIdx_of_le_length (Nat.le_of_eq inside.symm), inside]
    rintro start start' _ _ ⟨taken, rest, begins, measure, enough, fits⟩
    simp only [bind_apply, pop_apply, List.cons_append, Fallible.ok_bind, modify_apply,
      insertIdx_append value (Nat.le_of_eq inside.symm)]
    have flows : Opcode.cover.Flows .next := rfl
    refine parallel_pure flows made _ _ _ _ ⟨taken, rest, begins, measure, enough, ?_⟩
    rw [List.length_append, made, ← count, ← List.length_append]
    exact fits
  | uncover =>
    refine parallel_depthArgument rfl rfl alike fun depth others values isDepth count => ?_
    subst isDepth
    have inside : depth.toNat < values.length := by omega
    have made : (values.eraseIdx depth.toNat).length = depth.toNat := by
      rw [List.length_eraseIdx_of_lt inside, count, Nat.add_sub_cancel]
    rintro start start' _ _ ⟨taken, rest, begins, measure, enough, fits⟩
    simp only [bind_apply, get_apply, Fallible.ok_bind, List.getElem?_append_left inside,
      List.getElem?_eq_getElem inside, List.eraseIdx_append_of_lt_length inside]
    have flows : Opcode.uncover.Flows .next := rfl
    refine parallel_finish values[depth.toNat] flows (congrArg (· + 1) made) _ _ _ _
      ⟨taken, rest, begins, measure, enough, Nat.le_trans ?_ fits⟩
    simp only [List.length_append, made, count]
    omega
  | add | mul =>
    refine parallel_uintOperator rfl rfl fun left right => ?_
    simp only [checked]
    split
    next => exact .ok rfl
    next => exact .error ⟨rfl, fun _ _ => trivial⟩
  | sub | div | mod =>
    refine parallel_uintOperator rfl rfl fun left right => ?_
    split
    next => first | exact .ok rfl | exact .error ⟨rfl, fun _ _ => trivial⟩
    next => first | exact .ok rfl | exact .error ⟨rfl, fun _ _ => trivial⟩
  | bitOr | bitAnd | bitXor | lt | gt | le | ge | and | or =>
    exact parallel_uintOperator rfl rfl fun _ _ => .ok rfl
  | bitNot | not | itob => exact parallel_popUint fun _ => parallel_finish _ rfl rfl
  | eq => exact parallel_compareValues true rfl rfl
  | neq => exact parallel_compareValues false rfl rfl
  | len => exact parallel_popBytes fun _ => parallel_finish _ rfl rfl
  | btoi =>
    refine parallel_popBytes fun bytes => ?_
    split
    next => exact parallel_finish _ rfl rfl
    next => exact parallel_throw
  | concat =>
    refine parallel_popBytes fun right => parallel_popBytes fun left => ?_
    split
    next => exact parallel_finish _ rfl rfl
    next => exact parallel_throw
  | bnz | bz =>
    refine parallel_popUint fun _ => parallel_pure ?_ rfl
    split <;> simp [Opcode.Flows]
  | ret => exact parallel_popUint fun _ => parallel_pure ⟨_, rfl⟩ rfl
  | assert =>
    refine parallel_popUint fun value => ?_
    split
    next => exact parallel_throw
    next => exact parallel_pure rfl rfl
  | err => exact parallel_throw
  | b | callsub | retsub => exact parallel_pure rfl rfl

end Machine

end ContractBackend
