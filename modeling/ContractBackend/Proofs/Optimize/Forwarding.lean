import ContractBackend.Machine.Run
import ContractBackend.Proofs.Graph.Courses
import ContractBackend.Proofs.Optimize.Records

/-!
# Values that are passed on instead of being stored and loaded

Where a store and the only load of its slot have been left out, the cell of the slot keeps what it
held before. Nothing reads it, so the walk through the graph goes from block to block as before,
with memories that differ in such cells only. A walk that would fail at the store or the load goes
on without them.
-/

namespace ContractBackend

open Machine (Limits Environment Memory)
open Relation (ReflTransGen)

/-! ## Instructions -/

namespace Instr

/-- Whether the instruction accesses a cell, if it does, as a load or a store of a slot. -/
def isSymbolic (instr : Instr) : Bool :=
  match instr.op with
  | .load | .store => (instr.operands.head?.bind Operand.slot?).isSome
  | .loads | .stores => false
  | _ => true

theorem exists_operands {instr : Instr} (symbolic : instr.isSymbolic = true)
    (access : instr.op = .load ∨ instr.op = .store) :
    ∃ slot others, instr.operands = .slot slot :: others ∧ instr.directSlot? = some slot := by
  have named : (instr.operands.head?.bind Operand.slot?).isSome = true := by
    rcases access with op | op <;> simpa [isSymbolic, op] using symbolic
  obtain ⟨slot, others, operands⟩ := exists_slot_of_head named
  refine ⟨slot, others, operands, ?_⟩
  rw [directSlot?, operands]
  rfl

end Instr

/-- What instructions do where every slot has a cell, given what calls do. -/
def Action.placed (limits : Limits) (env : Environment) (place : Slot → Cell) (call : Action) :
    Action := fun instr memory =>
  if instr.op = .callsub then call instr memory
  else Machine.execute limits env ⟨instr.op, 0⟩ (instr.operands.map (Operand.argument place)) memory

namespace Action

/-- What is called does the same whatever dead cells hold. -/
def Blind (dead : Cell → Prop) (call : Action) : Prop :=
  ∀ instr, instr.op = .callsub → ∀ memory memory', Machine.Agree dead memory memory' →
    Machine.Alike dead (call instr memory) (call instr memory')

variable {limits : Limits} {env : Environment} {place : Slot → Cell} {call : Action}
  {dead : Cell → Prop} {instr store load : Instr} {slot : Slot} {memory memory' : Memory}
  {skip : List Slot} {before after : List Instr}

/-- An instruction that loads no dead cell does the same whatever dead cells hold. -/
theorem alike_placed (symbolic : instr.isSymbolic = true)
    (unread : ∀ slot, instr.loadsFrom slot = true → ¬ dead (place slot))
    (blind : call.Blind dead) (agree : Machine.Agree dead memory memory') :
    Machine.Alike dead (placed limits env place call instr memory)
      (placed limits env place call instr memory') := by
  rw [placed, placed]
  split
  next isCall => exact blind instr isCall memory memory' agree
  next =>
    refine Machine.execute_agree (fun cell reads => ?_) agree
    rcases reads with isLoads | ⟨isLoad, index, others, isIndex, isCell⟩
    · simp [Instr.isSymbolic, isLoads] at symbolic
    · obtain ⟨slot, behind, operands, direct⟩ := Instr.exists_operands symbolic (.inl isLoad)
      have loads : instr.loadsFrom slot = true := by simp [Instr.loadsFrom, isLoad, direct]
      rw [operands] at isIndex
      have isPlace : place slot = cell := by
        apply Fin.ext
        rw [← isCell, ← toNat_ofNat_cell, ← (Argument.uint.inj (List.cons.inj isIndex).1)]
      exact isPlace ▸ unread slot loads

/-- A load or a store of a slot accesses its cell. -/
theorem placed_access (symbolic : instr.isSymbolic = true)
    (access : instr.op = .load ∨ instr.op = .store) (direct : instr.directSlot? = some slot) :
    ∃ others, ∀ memory, placed limits env place call instr memory = Machine.execute limits env
      ⟨instr.op, 0⟩ (.uint (UInt64.ofNat (place slot).val) :: others) memory := by
  obtain ⟨other, others, operands, isOther⟩ := Instr.exists_operands symbolic access
  cases isOther.symm.trans direct
  have noCall : instr.op ≠ .callsub := by rcases access with op | op <;> rw [op] <;> rintro ⟨⟩
  exact ⟨_, fun memory => by rw [placed, if_neg noCall, operands, List.map_cons]; rfl⟩

/-- A way through code fails at a pair that is left out: there is no value to store, or there are
more values than there is room for. -/
inductive FailsAtPair (limits : Limits) (act : Action) (before after : List Instr)
    (memory : Memory) (ending : Ending) : Prop where
  | intro (front rest : List Instr) {store load : Instr} {slot : Slot} {middle : Memory} :
      before = front ++ store :: load :: rest → after = front ++ rest →
      Elide.storedSlot? store = some slot → load.loadsFrom slot = true →
      act.through front memory = .ok middle →
      middle.stack = [] ∨ limits.maxStack < middle.stack.length →
      act.through [store, load] middle = .error ending →
      FailsAtPair limits act before after memory ending

/-- A store to a slot and the load behind it change nothing but the cell of the slot, or they
fail. -/
theorem through_pair (stored : Elide.storedSlot? store = some slot)
    (loads : load.loadsFrom slot = true) (storeSymbolic : store.isSymbolic = true)
    (loadSymbolic : load.isSymbolic = true) (memory : Memory) :
    (∃ ending, (placed limits env place call).through [store, load] memory = .error ending ∧
        (memory.stack = [] ∨ limits.maxStack < memory.stack.length)) ∨
      ∃ middle, Machine.Agree (· = place slot) middle memory ∧
        (placed limits env place call).through [store, load] memory = .ok middle := by
  simp only [Elide.storedSlot?, Option.ite_none_right_eq_some] at stored
  rw [Instr.loadsFrom_iff] at loads
  obtain ⟨others, storing⟩ :=
    @placed_access limits env place call store slot storeSymbolic (.inr stored.1) stored.2
  obtain ⟨others', loading⟩ :=
    @placed_access limits env place call load slot loadSymbolic (.inl loads.1) loads.2
  rw [through, storing, stored.1]
  cases stack : memory.stack with
  | nil =>
    rw [Machine.execute_store_nil stack]
    exact .inl ⟨_, rfl, .inl rfl⟩
  | cons value below =>
    rw [Machine.execute_store_eq_ok.mpr ⟨value, below, stack, rfl, rfl⟩]
    simp only
    rw [through, loading, loads.1]
    by_cases room : below.length < limits.maxStack
    · right
      rw [Machine.execute_load_eq_ok.mpr ⟨room, rfl, rfl⟩]
      simp only
      refine ⟨_, ?_, rfl⟩
      refine ⟨?_, fun cell alive => ?_, rfl, rfl⟩
      · rw [stack]
        exact congrArg (· :: below) (get_set_self _ _ _).symm
      · exact (get_set_of_ne _ _ (Ne.symm alive)).symm
    · rw [Machine.execute_load_full (Nat.le_of_not_lt room)]
      exact .inl ⟨_, rfl, .inr (Nat.lt_succ_of_le (Nat.le_of_not_lt room))⟩

/-- Going through code without a pair is like going through it with the pair, unless that fails at
the pair. -/
theorem passes_pair (pair : Elide.Pair skip slot before after)
    (symbolic : ∀ instr ∈ before, instr.isSymbolic = true)
    (alike : ∀ instr ∈ after, ∀ memory memory', Machine.Agree (· = place slot) memory memory' →
      Machine.Alike (· = place slot) (placed limits env place call instr memory)
        (placed limits env place call instr memory'))
    (agree : Machine.Agree (· = place slot) memory memory') :
    (∃ ending, (placed limits env place call).through before memory = .error ending ∧
      FailsAtPair limits (placed limits env place call) before after memory ending) ∨
    Passes (· = place slot) ((placed limits env place call).through before memory)
      ((placed limits env place call).through after memory') := by
  cases pair with
  | @intro front rest store load stored _ loads =>
    simp only [List.forall_mem_append, List.forall_mem_cons] at symbolic alike
    have isPair : store :: load :: rest = [store, load] ++ rest := rfl
    rw [through_append, through_append]
    have inFront := passes_through alike.1 agree
    generalize arrives : (placed limits env place call).through front memory = first at inFront ⊢
    generalize (placed limits env place call).through front memory' = second at inFront ⊢
    cases inFront with
    | error same => exact .inr (.error same)
    | @ok middle middle' agree =>
      simp only [Fallible.ok_bind]
      rw [isPair, through_append]
      rcases @through_pair limits env place call store load slot stored loads symbolic.2.1
        symbolic.2.2.1 middle with ⟨ending, fails, unfit⟩ | ⟨passed, nearly, isThrough⟩
      · left
        refine ⟨ending, ?_, .intro front rest rfl rfl stored loads arrives unfit fails⟩
        rw [fails]
        rfl
      · right
        rw [isThrough]
        exact passes_through alike.2 (nearly.trans agree)

end Action

/-- A walk through a graph fails at a pair that another graph does without. -/
def Course.FailsAtPair (limits : Limits) (act : Action) (graph smaller : Graph) (course : Course) :
    Prop :=
  ∃ ending, course.ending = some ending ∧ Action.FailsAtPair limits act
    (graph.block course.block).instrs (smaller.block course.block).instrs course.entered ending

/-! ## Graphs -/

namespace Elide

variable {skip : List Slot} {slot : Slot} {before after : List Instr}

theorem Pair.not_mem_skip (pair : Pair skip slot before after) : slot ∉ skip := by
  cases pair with
  | intro _ _ _ counts _ => exact counts

/-- With the pair goes one load of the slot. -/
theorem Pair.countP_loadsFrom (pair : Pair skip slot before after) :
    before.countP (·.loadsFrom slot) = after.countP (·.loadsFrom slot) + 1 := by
  cases pair with
  | intro front rest stored _ loads =>
    have noLoad := not_loadsFrom_of_storedSlot? stored slot
    simp only [List.countP_append, List.countP_cons, noLoad, loads, if_true, Bool.false_eq_true,
      if_false]
    omega

end Elide

namespace Graph

variable {graph smaller : Graph} {entry id : BlockId} {skip : List Slot} {slot : Slot}
  {instrs : List Instr} {blocks : List BlockId}

/-- The instructions within reach. -/
def instrsFrom (graph : Graph) (entry : BlockId) : List Instr :=
  (graph.reachable entry).flatMap fun id => (graph.block id).instrs

/-- There is a load of the slot within reach. -/
def Loads (graph : Graph) (entry : BlockId) (slot : Slot) : Prop :=
  ∃ instr ∈ graph.instrsFrom entry, instr.loadsFrom slot = true

theorem mem_instrsFrom {instr : Instr} (reached : id ∈ graph.reachable entry)
    (member : instr ∈ (graph.block id).instrs) : instr ∈ graph.instrsFrom entry :=
  List.mem_flatMap.mpr ⟨id, reached, member⟩

/-- With the only load of a slot no load of it is left. -/
theorem loadCount_recode_eq_zero (listed : id ∈ blocks) (nodup : blocks.Nodup)
    (inside : id < graph.size) (once : graph.loadCount blocks slot = 1)
    (pair : Elide.Pair skip slot (graph.block id).instrs instrs) :
    (graph.recode id instrs).loadCount blocks slot = 0 := by
  obtain ⟨front, rest, rfl⟩ := List.append_of_mem listed
  have kept : ∀ part : List BlockId, id ∉ part →
      part.flatMap (fun other => ((graph.recode id instrs).block other).instrs) =
        part.flatMap fun other => (graph.block other).instrs := by
    intro part absent
    refine List.flatMap_congr fun other member => ?_
    rw [block_recode_of_ne (ne_of_mem_of_not_mem member absent)]
  rw [List.nodup_middle, List.nodup_cons, List.mem_append, not_or] at nodup
  rw [loadCount, List.flatMap_append, List.flatMap_cons, List.countP_append, List.countP_append]
    at once ⊢
  rw [kept front nodup.1.1, kept rest nodup.1.2, instrs_recode_self inside]
  have fewer := pair.countP_loadsFrom
  omega

theorem successors_recode_subset
    (pair : Elide.Pair skip slot (graph.block id).instrs instrs) (other : BlockId) :
    (graph.recode id instrs).successors other ⊆ graph.successors other := by
  rcases pair.endsRoutine_cases with same | ⟨goes, _⟩
  · rw [(sameEdges_recode same).successors]
    exact List.Subset.refl _
  · rw [successors, successors]
    rcases graph.block_recode_cases id other instrs with kept | ⟨rfl, changed⟩
    · rw [kept]
      exact List.Subset.refl _
    · have goes : (graph.block other).exits = false := goes
      rw [changed, Block.successors, Block.successors, goes]
      split
      next => exact List.nil_subset _
      next => exact List.Subset.refl _

/-- Without a pair nothing comes within reach. -/
theorem mem_reachable_of_recode (inside : ∀ id ∈ graph.reachable entry, id < graph.size)
    (pair : Elide.Pair skip slot (graph.block id).instrs instrs) :
    ∀ other ∈ (graph.recode id instrs).reachable entry, other ∈ graph.reachable entry := by
  apply Reach.closure_preserves
  · intro other _ reached target edge
    exact reachable_closed inside other reached target (successors_recode_subset pair other edge)
  · simpa using mem_reachable_entry

theorem mem_of_mem_recode (pair : Elide.Pair skip slot (graph.block id).instrs instrs)
    {other : BlockId} {instr : Instr}
    (member : instr ∈ ((graph.recode id instrs).block other).instrs) :
    instr ∈ (graph.block other).instrs := by
  rcases graph.block_recode_cases id other instrs with kept | ⟨rfl, changed⟩
  · rwa [kept] at member
  · rw [changed] at member
    exact pair.forall_mem (fun _ => id) instr member

/-- What leaving out pairs relies on: code reads and writes cells by way of slots only, a slot that
may go has a cell of its own, and what is called does not read the cell. -/
structure Forwardable (graph : Graph) (entry : BlockId) (skip : List Slot) (place : Slot → Cell)
    (call : Action) : Prop where
  inside : ∀ id ∈ graph.reachable entry, id < graph.size
  symbolic : ∀ instr ∈ graph.instrsFrom entry, instr.isSymbolic = true
  apart : ∀ slot, graph.Loads entry slot → slot ∉ skip →
    ∀ other, graph.Loads entry other ∨ other ∈ skip → place other = place slot → other = slot
  blind : ∀ slot, graph.Loads entry slot → slot ∉ skip → call.Blind (· = place slot)

theorem Loads.mono (fewer : smaller.instrsFrom entry ⊆ graph.instrsFrom entry)
    (loads : smaller.Loads entry slot) : graph.Loads entry slot := by
  obtain ⟨instr, member, loads⟩ := loads
  exact ⟨instr, fewer member, loads⟩

namespace Elides

variable {place : Slot → Cell} {call : Action} {limits : Limits} {env : Environment}

/-- A removal leaves no instructions within reach that were not there before. -/
theorem instrsFrom_subset (elides : Elides entry skip graph smaller)
    (inside : ∀ id ∈ graph.reachable entry, id < graph.size) :
    smaller.instrsFrom entry ⊆ graph.instrsFrom entry := by
  cases elides with
  | @intro id slot instrs _ _ pair =>
    intro instr member
    obtain ⟨other, within, member⟩ := List.mem_flatMap.mp member
    exact mem_instrsFrom (mem_reachable_of_recode inside pair other within)
      (mem_of_mem_recode pair member)

/-- Behind a removal the next one can rely on the same. -/
theorem forwardable (elides : Elides entry skip graph smaller)
    (ready : graph.Forwardable entry skip place call) :
    smaller.Forwardable entry skip place call := by
  have fewer := elides.instrsFrom_subset ready.inside
  refine ⟨?_, fun instr member => ready.symbolic instr (fewer member), ?_, ?_⟩
  · cases elides with
    | @intro id slot instrs _ _ pair =>
      intro other within
      rw [recode, size_modify]
      exact ready.inside other (mem_reachable_of_recode ready.inside pair other within)
  · intro slot loads counts other present
    exact ready.apart slot (loads.mono fewer) counts other
      (present.imp_left fun loads => loads.mono fewer)
  · exact fun slot loads counts => ready.blind slot (loads.mono fewer) counts

/-- A removal changes a walk in one cell only, that of a slot that is no longer loaded, unless the
walk fails at the pair. -/
theorem course_cases (elides : Elides entry skip graph smaller)
    (ready : graph.Forwardable entry skip place call) {act : Action}
    (isAct : act = .placed limits env place call) :
    ∃ slot, graph.Loads entry slot ∧ slot ∉ skip ∧ ¬ smaller.Loads entry slot ∧
      ∀ count memory,
        Course.Same (· = place slot) (graph.course act count entry memory)
          (smaller.course act count entry memory) ∨
        Course.Extends (· = place slot) (graph.course act count entry memory)
          (smaller.course act count entry memory) ∧
        (graph.course act count entry memory).FailsAtPair limits act graph smaller := by
  subst isAct
  cases elides with
  | @intro id slot instrs reached once pair =>
    have counts := pair.not_mem_skip
    have loaded : graph.Loads entry slot :=
      List.countP_pos_iff.mp (Nat.lt_of_lt_of_eq Nat.zero_lt_one once.symm)
    have inside := ready.inside id reached
    -- Within reach of the graph before, no load of the slot is left.
    have unloaded : ∀ other ∈ graph.reachable entry,
        ∀ instr ∈ ((graph.recode id instrs).block other).instrs, ¬ instr.loadsFrom slot = true := by
      have none := loadCount_recode_eq_zero reached (reachable_nodup graph entry) inside once pair
      intro other within instr member
      exact List.countP_eq_zero.mp none instr (List.mem_flatMap.mpr ⟨other, within, member⟩)
    have alike : ∀ other ∈ graph.reachable entry,
        ∀ instr ∈ ((graph.recode id instrs).block other).instrs, ∀ memory memory',
        Machine.Agree (· = place slot) memory memory' →
        Machine.Alike (· = place slot) (Action.placed limits env place call instr memory)
          (Action.placed limits env place call instr memory') := by
      intro other within instr member memory memory' agree
      have present := mem_instrsFrom within (mem_of_mem_recode pair member)
      refine Action.alike_placed (ready.symbolic instr present) ?_ (ready.blind slot loaded counts)
        agree
      intro another loads same
      cases ready.apart slot loaded counts another (.inl ⟨instr, present, loads⟩) same
      exact unloaded other within instr member loads
    refine ⟨slot, loaded, counts, ?_, fun count memory => ?_⟩
    · rintro ⟨instr, member, loads⟩
      obtain ⟨other, within, member⟩ := List.mem_flatMap.mp member
      have reached := mem_reachable_of_recode ready.inside pair other within
      exact unloaded other reached instr member loads
    · refine Graph.course_cases (fun other => Action.FailsAtPair limits
          (.placed limits env place call) (graph.block other).instrs
          ((graph.recode id instrs).block other).instrs)
        (fun _ => shape_recode) ready.inside ?_ mem_reachable_entry (.refl _ _) count
      intro other within memory memory' agree
      have alike := alike other within
      by_cases isHere : other = id
      · subst isHere
        rw [instrs_recode_self inside] at alike ⊢
        exact Action.passes_pair pair
          (fun instr member => ready.symbolic instr (mem_instrsFrom within member)) alike agree
      · rw [block_recode_of_ne isHere] at alike ⊢
        exact .inr (Action.passes_through alike agree)

end Elides

variable {elided : Graph} {place : Slot → Cell} {call : Action} {limits : Limits}
  {env : Environment}

/-- Cells of slots that are loaded in one graph, but no longer in another one. -/
def Spent (graph elided : Graph) (entry : BlockId) (skip : List Slot) (place : Slot → Cell)
    (cell : Cell) : Prop :=
  ∃ slot, graph.Loads entry slot ∧ slot ∉ skip ∧ ¬ elided.Loads entry slot ∧ place slot = cell

theorem instrsFrom_subset (steps : ReflTransGen (Elides entry skip) graph elided)
    (ready : graph.Forwardable entry skip place call) :
    elided.instrsFrom entry ⊆ graph.instrsFrom entry := by
  induction steps using ReflTransGen.head_induction_on with
  | refl => exact List.Subset.refl _
  | head step _ ih =>
    exact List.Subset.trans (ih (step.forwardable ready)) (step.instrsFrom_subset ready.inside)

/-- A walk fails at one of the pairs that are left out one after the other. Those left out before
make no difference to it. -/
def FailsAtRemoval (limits : Limits) (act : Action) (entry : BlockId) (skip : List Slot)
    (dead : Cell → Prop) (graph elided : Graph) (count : Nat) (memory : Memory) : Prop :=
  ∃ stage smaller, ReflTransGen (Elides entry skip) graph stage ∧
    Elides entry skip stage smaller ∧ ReflTransGen (Elides entry skip) smaller elided ∧
    Course.Same dead (graph.course act count entry memory)
      (stage.course act count entry memory) ∧
    (stage.course act count entry memory).FailsAtPair limits act stage smaller

/-- A walk through a graph without some pairs is the same but for some cells, or it goes on where
the walk before fails at one of the pairs. -/
def Mends (limits : Limits) (act : Action) (entry : BlockId) (skip : List Slot)
    (dead : Cell → Prop) (graph elided : Graph) (count : Nat) (memory : Memory) : Prop :=
  Course.Same dead (graph.course act count entry memory) (elided.course act count entry memory) ∨
    Course.Extends dead (graph.course act count entry memory)
        (elided.course act count entry memory) ∧
      FailsAtRemoval limits act entry skip dead graph elided count memory

/-- Removals one after the other change a walk in the cells of slots that are no longer loaded,
unless it fails at a pair that is left out. -/
theorem mends_of_steps (steps : ReflTransGen (Elides entry skip) graph elided)
    (ready : graph.Forwardable entry skip place call) (count : Nat) (memory : Memory) :
    Mends limits (.placed limits env place call) entry skip (graph.Spent elided entry skip place)
      graph elided count memory := by
  induction steps using ReflTransGen.head_induction_on with
  | refl => exact .inl (.refl _)
  | @head graph smaller step steps ih =>
    have fewer := step.instrsFrom_subset ready.inside
    have readyBehind := step.forwardable ready
    obtain ⟨slot, loaded, counts, unloaded, first⟩ :=
      Elides.course_cases step ready (Eq.refl (Action.placed limits env place call))
    have here : ∀ cell, cell = place slot → graph.Spent elided entry skip place cell := by
      rintro cell rfl
      exact ⟨slot, loaded, counts,
        fun loads => unloaded (loads.mono (instrsFrom_subset steps readyBehind)), rfl⟩
    have later : ∀ cell, smaller.Spent elided entry skip place cell →
        graph.Spent elided entry skip place cell := by
      rintro cell ⟨slot, loaded, counts, unloaded, rfl⟩
      exact ⟨slot, loaded.mono fewer, counts, unloaded, rfl⟩
    have behind := ih readyBehind
    rcases first count memory with same | ⟨further, fails⟩
    · have same := same.mono here
      rcases behind with same' | ⟨further', stage, pruned, before, removal, after, agree, fails⟩
      · exact .inl (same.trans (same'.mono later))
      · exact .inr ⟨same.toExtends.trans (further'.mono later), stage, pruned, .head step before,
          removal, after, same.trans (agree.mono later), fails⟩
    · have further' := (behind.elim Course.Same.toExtends And.left).mono later
      exact .inr ⟨(further.mono here).trans further', graph, smaller, .refl, step, steps,
        .refl _, fails⟩

end Graph

/-- Leaving out pairs changes nothing that is read. A walk through the graph without the pairs
goes through the same blocks as the walk before, with the same stack, effects and application state
at the end of each, and ends alike. Only where the walk before fails at a pair that is left out,
because the stack is empty or too high, does it go on. Cells differ only if they belong to slots
that are no longer loaded, so slots that are still loaded and slots that do not count keep what
they hold. -/
theorem elision_preserves_courses (graph : Graph) (entry : BlockId) (skip : List Slot)
    (place : Slot → Cell) (call : Action) (limits : Limits) (env : Environment)
    (ready : graph.Forwardable entry skip place call) :
    (∀ slot, (graph.elide entry skip).1.Loads entry slot ∨ slot ∈ skip →
      ¬ graph.Spent (graph.elide entry skip).1 entry skip place (place slot)) ∧
    ∀ count memory, Graph.Mends limits (.placed limits env place call) entry skip
      (graph.Spent (graph.elide entry skip).1 entry skip place) graph (graph.elide entry skip).1
      count memory := by
  have steps := graph.reflTransGen_elide entry skip
  refine ⟨?_, Graph.mends_of_steps steps ready⟩
  rintro slot present ⟨other, loaded, counts, unloaded, same⟩
  have fewer := Graph.instrsFrom_subset steps ready
  have isOther : slot = other :=
    ready.apart other loaded counts slot (present.imp_left fun loads => loads.mono fewer) same.symm
  subst isOther
  exact present.elim unloaded counts

theorem mod_cellCount_lt (number : Nat) : number % cellCount < cellCount :=
  Nat.mod_lt number (Nat.succ_pos _)

/-- Slots take the cells of their numbers. -/
def numbered (slot : Slot) : Cell := ⟨slot.id % cellCount, mod_cellCount_lt slot.id⟩

/-- Calls that do nothing. -/
def idleCalls : Action := fun _ memory => .ok (.next, memory)

theorem forwardable_numbered {graph : Graph} {skip : List Slot}
    (inside : ∀ id ∈ graph.reachable 0, id < graph.size)
    (symbolic : ∀ instr ∈ graph.instrsFrom 0, instr.isSymbolic = true)
    (apart : ∀ one ∈ (graph.instrsFrom 0).filterMap Instr.directSlot? ++ skip,
      ∀ two ∈ (graph.instrsFrom 0).filterMap Instr.directSlot? ++ skip,
        numbered two = numbered one → two = one) :
    graph.Forwardable 0 skip numbered idleCalls where
  inside := inside
  symbolic := symbolic
  apart slot loads _ other present same := by
    have named : ∀ slot, graph.Loads 0 slot →
        slot ∈ (graph.instrsFrom 0).filterMap Instr.directSlot? := by
      rintro slot ⟨instr, member, loads⟩
      exact List.mem_filterMap.mpr ⟨instr, member, (Instr.loadsFrom_iff.mp loads).2⟩
    exact apart slot (List.mem_append_left _ (named slot loads)) other
      (List.mem_append.mpr (present.imp_left (named other))) same
  blind _ _ _ _ _ _ _ agree := .ok ⟨rfl, agree⟩

/-- A loop with a pair within a pair, and with a pair that has to stay. -/
def nestedPairs : Graph where
  blocks := #[
    { instrs := [.int 3, .store ⟨0, none⟩], shape := .simple (some 1) },
    { instrs := [.load ⟨0, none⟩, .int 1, ⟨.sub, []⟩, .store ⟨0, none⟩, .int 7, .int 8,
        .store ⟨1, none⟩, .store ⟨2, none⟩, .load ⟨2, none⟩, .load ⟨1, none⟩, ⟨.pop, []⟩,
        ⟨.pop, []⟩, .callsub 0, .int 9, .store ⟨3, none⟩, .load ⟨3, none⟩, ⟨.pop, []⟩,
        .load ⟨0, none⟩],
      shape := .conditional (some 1) (some 2) },
    { instrs := [.int 1, ⟨.ret, []⟩] }]

theorem elision_preserves_courses_nestedPairs :
    nestedPairs.Forwardable 0 [⟨3, none⟩] numbered idleCalls ∧
    (nestedPairs.elide 0 [⟨3, none⟩]).2 = 2 ∧
    (∀ slot, (nestedPairs.elide 0 [⟨3, none⟩]).1.Loads 0 slot ∨ slot ∈ [⟨3, none⟩] →
      ¬ nestedPairs.Spent (nestedPairs.elide 0 [⟨3, none⟩]).1 0 [⟨3, none⟩] numbered
        (numbered slot)) ∧
    ∀ count memory, Graph.Mends {} (.placed {} {} numbered idleCalls) 0 [⟨3, none⟩]
      (nestedPairs.Spent (nestedPairs.elide 0 [⟨3, none⟩]).1 0 [⟨3, none⟩] numbered) nestedPairs
      (nestedPairs.elide 0 [⟨3, none⟩]).1 count memory := by
  have ready : nestedPairs.Forwardable 0 [⟨3, none⟩] numbered idleCalls :=
    forwardable_numbered (by decide) (by decide) (by decide)
  exact ⟨ready, by decide,
    elision_preserves_courses nestedPairs 0 [⟨3, none⟩] numbered idleCalls {} {} ready⟩

/-- A decision behind a pair for which there may be no value. -/
def barePair : Graph where
  blocks := #[
    { instrs := [.store ⟨0, none⟩, .load ⟨0, none⟩, .int 1],
      shape := .conditional (some 1) (some 2) },
    { instrs := [.int 1, ⟨.ret, []⟩] },
    { instrs := [.int 0, ⟨.ret, []⟩] }]

/-- A walk that has nothing to store fails before the end of the first block. Without the pair it
gets there and decides. -/
theorem elision_may_mend_walk :
    barePair.Forwardable 0 [] numbered idleCalls ∧
    ¬ Course.Same (barePair.Spent (barePair.elide 0 []).1 0 [] numbered)
      (barePair.course (.placed {} {} numbered idleCalls) 1 0 (Machine.State.initial {}).memory)
      ((barePair.elide 0 []).1.course (.placed {} {} numbered idleCalls) 1 0
        (Machine.State.initial {}).memory) := by
  refine ⟨forwardable_numbered (by decide) (by decide) (by decide), fun same => ?_⟩
  have stops : (barePair.course (.placed {} {} numbered idleCalls) 1 0
      (Machine.State.initial {}).memory).ends.length = 0 := by decide +kernel
  have goesOn : ((barePair.elide 0 []).1.course (.placed {} {} numbered idleCalls) 1 0
      (Machine.State.initial {}).memory).ends.length = 1 := by decide +kernel
  have equal := List.Forall₂.length_eq same.ends
  rw [stops, goesOn] at equal
  cases equal

end ContractBackend
