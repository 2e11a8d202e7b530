import ContractBackend.Proofs.Optimize.Records

/-!
# Rounds that find nothing

Every pair that is left out takes two instructions away, so there is always a round left that finds
nothing. But a round looks at the first pair of a block only: where that one has to stay, because
its slot is loaded elsewhere too, the pairs behind it stay with it.

Every replacement puts an instruction that needs values on the stack in the place of a window, and
a window begins with one that needs none. So the instructions that need none become fewer, and
there is always a round left that finds nothing to replace.
-/

namespace ContractBackend

namespace Elide

variable {skip : List Slot} {slot : Slot} {instrs shorter front : List Instr}

/-- Behind the code in front come a store to a slot that counts and a load of the slot. -/
def PairBehind (skip : List Slot) (slot : Slot) (front instrs : List Instr) : Prop :=
  ∃ store load rest, instrs = front ++ store :: load :: rest ∧ storedSlot? store = some slot ∧
    slot ∉ skip ∧ load.loadsFrom slot = true

theorem PairBehind.cons (head : Instr) (pair : PairBehind skip slot front instrs) :
    PairBehind skip slot (head :: front) (head :: instrs) := by
  obtain ⟨store, load, rest, rfl, isPair⟩ := pair
  exact ⟨store, load, rest, rfl, isPair⟩

theorem Pair.length_eq (pair : Pair skip slot instrs shorter) :
    instrs.length = shorter.length + 2 := by
  cases pair with
  | intro front rest =>
    simp only [List.length_append, List.length_cons]
    rfl

/-- If there is a pair, the search finds it or one in front of it. -/
theorem exists_firstPair? (pair : PairBehind skip slot front instrs) :
    ∃ first shorter, firstPair? skip instrs = some (first, shorter) ∧
      (first = slot ∨ ∃ earlier, PairBehind skip first earlier front) := by
  obtain ⟨store, load, rest, rfl, stored, counts, loads⟩ := pair
  induction front with
  | nil =>
    refine ⟨slot, rest, ?_, .inl rfl⟩
    simp [firstPair?, stored, counts, loads]
  | cons head front ih =>
    obtain ⟨first, shorter, found, place⟩ := ih
    obtain ⟨second, behind, isBehind⟩ :
        ∃ second behind, front ++ store :: load :: rest = second :: behind :=
      List.exists_cons_of_ne_nil (by simp)
    have later : (firstPair? skip (second :: behind)).map
        (fun found => (found.1, head :: found.2)) = some (first, head :: shorter) := by
      rw [← isBehind, found]
      rfl
    have kept : first = slot ∨ ∃ earlier, PairBehind skip first earlier (head :: front) :=
      place.imp_right fun earlier => ⟨head :: earlier.choose, earlier.choose_spec.cons head⟩
    rw [List.cons_append, isBehind, firstPair?]
    split
    next other isStored =>
      split
      next good =>
        -- The two belong to a pair, so the second is not the store.
        rw [Bool.and_eq_true, decide_eq_true_eq] at good
        refine ⟨other, behind, rfl, .inr ⟨[], ?_⟩⟩
        cases front with
        | nil =>
          cases isBehind
          rw [not_loadsFrom_of_storedSlot? stored other] at good
          exact absurd good.2 Bool.false_ne_true
        | cons _ middle =>
          cases isBehind
          exact ⟨head, second, middle, rfl, isStored, good⟩
      next => exact ⟨first, _, later, kept⟩
    next => exact ⟨first, _, later, kept⟩

end Elide

namespace Graph

variable {graph smaller : Graph} {entry id : BlockId} {skip : List Slot} {slot : Slot}
  {front instrs : List Instr} {count more : Nat}

/-- In a block within reach there is a pair whose load is the only one of the slot. -/
def Eligible (graph : Graph) (entry : BlockId) (skip : List Slot) (id : BlockId) (slot : Slot)
    (front : List Instr) : Prop :=
  id ∈ graph.reachable entry ∧ Elide.PairBehind skip slot front (graph.block id).instrs ∧
    graph.loadCount (graph.reachable entry) slot = 1

theorem instrCount_recode (inside : id < graph.size) :
    (graph.recode id instrs).instrCount + (graph.block id).instrs.length =
      graph.instrCount + instrs.length := by
  obtain ⟨blocks⟩ := graph
  have listed : id < blocks.toList.length := inside
  have here : blocks[id]?.getD {} = blocks.toList[id] := by
    rw [← Array.getElem?_toList, List.getElem?_eq_getElem listed]
    rfl
  have split : blocks.toList =
      blocks.toList.take id ++ blocks.toList[id] :: blocks.toList.drop (id + 1) := by
    rw [← List.drop_eq_getElem_cons listed, List.take_append_drop]
  simp only [instrCount, recode, modify, Graph.block, Array.toList_modify, here]
  rw [List.modify_eq_take_cons_drop listed]
  conv_rhs => rw [split]
  simp only [List.flatMap_append, List.flatMap_cons, List.length_append]
  omega

theorem Elides.instrCount_eq (elides : Elides entry skip graph smaller) :
    graph.instrCount = smaller.instrCount + 2 := by
  cases elides with
  | @intro id slot instrs _ _ pair =>
    have inside : id < graph.size := by
      by_contra outside
      have length := pair.length_eq
      rw [block_of_size_le (Nat.le_of_not_lt outside)] at length
      cases length
    have counts := @instrCount_recode graph id instrs inside
    rw [pair.length_eq] at counts
    omega

/-- With half as many rounds as instructions, or more, no first pair is left that could go. -/
theorem elideOnce?_elideWithin (enough : graph.instrCount ≤ 2 * count) :
    (graph.elideWithin entry skip count).1.elideOnce? entry skip = none := by
  induction count generalizing graph with
  | zero =>
    rw [Option.eq_none_iff_forall_ne_some]
    intro smaller found
    have fewer : graph.instrCount = smaller.instrCount + 2 :=
      (elides_of_elideOnce? found).instrCount_eq
    omega
  | succ count ih =>
    rw [elideWithin]
    split
    next done => exact done
    next smaller found =>
      have fewer := (elides_of_elideOnce? found).instrCount_eq
      exact ih (by omega)

theorem elideOnce?_elide (graph : Graph) (entry : BlockId) (skip : List Slot) :
    (graph.elide entry skip).1.elideOnce? entry skip = none :=
  elideOnce?_elideWithin (Nat.le_mul_of_pos_left _ Nat.two_pos)

theorem elideWithin_of_elideOnce?_eq_none (done : graph.elideOnce? entry skip = none)
    (count : Nat) : graph.elideWithin entry skip count = (graph, 0) := by
  cases count with
  | zero => rfl
  | succ count => simp only [elideWithin, done]

/-- Further rounds change nothing. -/
theorem elideWithin_congr (enough : graph.instrCount ≤ 2 * count) (further : count ≤ more) :
    graph.elideWithin entry skip more = graph.elideWithin entry skip count := by
  induction count generalizing graph more with
  | zero => exact elideWithin_of_elideOnce?_eq_none (elideOnce?_elideWithin enough) more
  | succ count ih =>
    obtain ⟨more, rfl⟩ := Nat.exists_eq_succ_of_ne_zero (Nat.ne_zero_of_lt further)
    rw [elideWithin, elideWithin]
    cases found : graph.elideOnce? entry skip with
    | none => rfl
    | some smaller =>
      have fewer := (elides_of_elideOnce? found).instrCount_eq
      have enough' : smaller.instrCount ≤ 2 * count := by omega
      simp only [ih enough' (Nat.le_of_succ_le_succ further)]

/-- A pair in a block within reach is a load of its slot. -/
theorem loadCount_pos (reached : id ∈ graph.reachable entry)
    (pair : Elide.PairBehind skip slot front (graph.block id).instrs) :
    0 < graph.loadCount (graph.reachable entry) slot := by
  obtain ⟨store, load, rest, isCode, _, _, loads⟩ := pair
  have inside : load ∈ (graph.block id).instrs := by
    rw [isCode]
    exact List.mem_append_right _ (.tail _ (.head _))
  exact List.countP_pos_iff.mpr ⟨load, List.mem_flatMap.mpr ⟨id, reached, inside⟩, loads⟩

/-- Where no first pair can go, a pair that could stands behind one that cannot. -/
theorem Eligible.exists_shared (eligible : graph.Eligible entry skip id slot front)
    (done : graph.elideOnce? entry skip = none) :
    ∃ shared earlier, Elide.PairBehind skip shared earlier front ∧
      1 < graph.loadCount (graph.reachable entry) shared := by
  obtain ⟨reached, pair, once⟩ := eligible
  have stays := List.findSome?_eq_none_iff.mp done id reached
  obtain ⟨first, shorter, found, place⟩ := Elide.exists_firstPair? pair
  simp only [elideIn?, found, ite_eq_right_iff, reduceCtorEq, imp_false] at stays
  rcases place with rfl | ⟨earlier, shared⟩
  · exact absurd once stays
  · refine ⟨first, earlier, shared, ?_⟩
    have inBlock : Elide.PairBehind skip first earlier (graph.block id).instrs := by
      obtain ⟨store, load, behind, isCode, _⟩ := pair
      obtain ⟨store', load', rest, rfl, isPair⟩ := shared
      refine ⟨store', load', rest ++ store :: load :: behind, ?_, isPair⟩
      rw [isCode, List.append_assoc]
      rfl
    exact Nat.lt_of_le_of_ne (loadCount_pos reached inBlock) (Ne.symm stays)

end Graph

/-- The pairs that are left stand behind others that have to stay. Rounds do not run out: the
last one finds no first pair of a block that could go, and further rounds would change nothing.
Where a block within reach still has a pair whose load is the only one of the slot, another pair
stands in front of it in the block, and the slot of that one is loaded elsewhere too. -/
theorem pairs_left_stand_behind_shared (graph : Graph) (entry : BlockId) (skip : List Slot) :
    (graph.elide entry skip).1.elideOnce? entry skip = none ∧
    (∀ count, graph.instrCount ≤ count →
      graph.elideWithin entry skip count = graph.elide entry skip) ∧
    ∀ id slot front, (graph.elide entry skip).1.Eligible entry skip id slot front →
      ∃ shared earlier, Elide.PairBehind skip shared earlier front ∧
        1 < (graph.elide entry skip).1.loadCount
          ((graph.elide entry skip).1.reachable entry) shared := by
  have enough : graph.instrCount ≤ 2 * graph.instrCount := Nat.le_mul_of_pos_left _ Nat.two_pos
  have done := Graph.elideOnce?_elide graph entry skip
  refine ⟨done, fun count => Graph.elideWithin_congr enough, ?_⟩
  intro id slot front eligible
  exact eligible.exists_shared done

/-- A pair whose slot is loaded once more. -/
def sharedFront : List Instr :=
  [.int 1, .store ⟨0, none⟩, .load ⟨0, none⟩, ⟨.pop, []⟩, .load ⟨0, none⟩, ⟨.pop, []⟩, .int 2]

/-- A block with another pair behind it. -/
def sharedFirst : Graph where
  blocks := #[{ instrs := sharedFront ++ [.store ⟨1, none⟩, .load ⟨1, none⟩, ⟨.ret, []⟩] }]

theorem eligible_sharedFirst :
    (sharedFirst.elide 0 []).1.Eligible 0 [] 0 ⟨1, none⟩ sharedFront :=
  ⟨by decide, ⟨_, _, _, rfl, rfl, List.not_mem_nil, rfl⟩, by decide⟩

theorem pairs_left_stand_behind_shared_sharedFirst :
    (sharedFirst.elide 0 []).1.Eligible 0 [] 0 ⟨1, none⟩ sharedFront ∧
    ∃ shared earlier, Elide.PairBehind [] shared earlier sharedFront ∧
      1 < (sharedFirst.elide 0 []).1.loadCount ((sharedFirst.elide 0 []).1.reachable 0) shared :=
  ⟨eligible_sharedFirst,
    (pairs_left_stand_behind_shared sharedFirst 0 []).2.2 _ _ _ eligible_sharedFirst⟩

/-- Pairs that could go may be left. -/
theorem eligible_pairs_may_be_left :
    ¬ ∀ (graph : Graph) (entry : BlockId) (skip : List Slot) (id : BlockId) (slot : Slot)
      (front : List Instr), ¬ (graph.elide entry skip).1.Eligible entry skip id slot front :=
  fun never => never sharedFirst 0 [] 0 ⟨1, none⟩ sharedFront eligible_sharedFirst

open Relation (ReflTransGen)

namespace Dedupe

variable {version : Version} {instrs shorter window : List Instr} {instr : Instr}

/-- Instructions that take nothing off the stack. -/
def starts (instr : Instr) : Bool := instr.effect?.any fun effect => effect.pops = 0

/-- Code that makes an empty stack higher begins with an instruction that takes nothing off it. -/
theorem countP_starts_pos {height : Nat} (checked : StackHeight.checkFrom 0 window 0 = .ok height)
    (positive : 0 < height) : 0 < window.countP starts := by
  cases window with
  | nil =>
    cases checked
    exact absurd positive (Nat.lt_irrefl 0)
  | cons first rest =>
    obtain ⟨effect, known, enough, _⟩ := StackHeight.of_checkFrom_cons checked
    have first : starts first = true := by simp [starts, known, Nat.le_zero.mp enough]
    rw [List.countP_cons_of_pos first]
    exact Nat.succ_pos _

/-- A replacement takes away an instruction that takes nothing off the stack, and brings in none. -/
theorem Once.countP_starts_lt (once : Once version instrs shorter) :
    shorter.countP starts < instrs.countP starts := by
  cases once with
  | @intro front window rest added found =>
    obtain ⟨fewer, stops⟩ : 0 < window.countP starts ∧ starts added = false := by
      rcases (of_replacement? found).2 with ⟨one, rfl⟩ | ⟨two, rfl⟩
      · exact ⟨countP_starts_pos one Nat.one_pos, rfl⟩
      · exact ⟨countP_starts_pos two Nat.two_pos, rfl⟩
    simp only [List.countP_append, List.countP_cons, stops, Bool.false_eq_true, if_false]
    omega

theorem rounds_of_once?_eq_none (done : once? version instrs = none) (count : Nat) :
    rounds version count instrs = (instrs, 0) := by
  cases count with
  | zero => rfl
  | succ count => simp only [rounds, done]

/-- With more rounds than instructions that take nothing off the stack, nothing is left to
replace. -/
theorem once?_rounds {count : Nat} (enough : instrs.countP starts < count) :
    once? version (rounds version count instrs).1 = none ∧
      (rounds version count instrs).2 ≤ instrs.countP starts := by
  induction count generalizing instrs with
  | zero => exact absurd enough (Nat.not_lt_zero _)
  | succ count ih =>
    rw [rounds]
    split
    next done => exact ⟨done, Nat.zero_le _⟩
    next shorter replaced =>
      have fewer := (once_of_once? replaced).countP_starts_lt
      obtain ⟨done, bound⟩ := ih (Nat.lt_of_lt_of_le fewer (Nat.le_of_lt_succ enough))
      exact ⟨done, Nat.lt_of_le_of_lt bound fewer⟩

/-- Further rounds change nothing. -/
theorem rounds_congr {count more : Nat} (enough : instrs.countP starts < count)
    (further : count ≤ more) : rounds version more instrs = rounds version count instrs := by
  induction count generalizing instrs more with
  | zero => exact absurd enough (Nat.not_lt_zero _)
  | succ count ih =>
    obtain ⟨more, rfl⟩ := Nat.exists_eq_succ_of_ne_zero (Nat.ne_zero_of_lt further)
    rw [rounds, rounds]
    cases replaced : once? version instrs with
    | none => rfl
    | some shorter =>
      have fewer := (once_of_once? replaced).countP_starts_lt
      have enough' := Nat.lt_of_lt_of_le fewer (Nat.le_of_lt_succ enough)
      simp only [ih enough' (Nat.le_of_succ_le_succ further)]

theorem countP_starts_lt_succ_length (instrs : List Instr) :
    instrs.countP starts < instrs.length + 1 :=
  Nat.lt_succ_of_le List.countP_le_length

theorem once?_block (version : Version) (instrs : List Instr) :
    once? version (block version instrs).1 = none :=
  (once?_rounds (countP_starts_lt_succ_length instrs)).1

/-! ## The search misses nothing -/

theorem agree_append (window left right : List Instr) :
    agree window.length (window ++ left) (window ++ right) = true := by
  induction window with
  | nil => rfl
  | cons first rest ih => simpa [agree] using ih

/-- Two equal windows are replaced where they stand. -/
theorem replaceAt?_append (front rest : List Instr)
    (found : replacement? version window = some instr) :
    replaceAt? version (front ++ (window ++ (window ++ rest)))
        (front.length + 2 * window.length) window.length =
      some (front ++ (window ++ instr :: rest)) := by
  have before : front.length + 2 * window.length - window.length = (front ++ window).length := by
    rw [List.length_append]
    omega
  have behind : front.length + 2 * window.length = (front ++ (window ++ window)).length := by
    simp only [List.length_append]
    omega
  have atFront : (front ++ (window ++ (window ++ rest))).take (front ++ window).length =
      front ++ window := by
    rw [← List.append_assoc, List.take_left]
  have atRest : (front ++ (window ++ (window ++ rest))).drop (front ++ (window ++ window)).length =
      rest := by
    rw [← List.append_assoc window, ← List.append_assoc front (window ++ window), List.drop_left]
  simp only [replaceAt?, Nat.add_sub_cancel, List.drop_left, List.take_left, agree_append, if_true,
    found, Option.map_some, before, atFront, List.append_assoc]
  rw [behind, atRest]

/-- A round that finds nothing leaves no two equal windows that could be replaced. -/
theorem not_once_of_once?_eq_none (missing : once? version instrs = none) (shorter : List Instr) :
    ¬ Once version instrs shorter := by
  intro once
  cases once with
  | @intro front window rest added found =>
    simp only [once?_eq_findSome?, replaceEnding?_eq_findSome?, List.findSome?_eq_none_iff,
      List.mem_reverse, List.mem_range, List.length_append] at missing
    obtain ⟨width, isWidth⟩ : ∃ width, window.length = width + 1 :=
      Nat.exists_eq_succ_of_ne_zero (mt List.eq_nil_of_length_eq_zero (replacement?_cases found).1)
    have missed := missing (front.length + 2 * width + 1) (by omega) width (by omega)
    have here := replaceAt?_append front rest found
    rw [isWidth] at here
    cases missed.symm.trans here

/-- Replacing windows changes nothing at the end of the code. -/
theorem endsRoutine_block (version : Version) (instrs : List Instr) :
    endsRoutine (block version instrs).1 = endsRoutine instrs := by
  have steps : ReflTransGen (Once version) instrs (block version instrs).1 := reflTransGen_block
  generalize (block version instrs).1 = shorter at steps
  induction steps with
  | refl => rfl
  | tail _ once ih => rw [once.endsRoutine_eq, ih]

end Dedupe

/-! ## Graphs -/

namespace Graph

variable {graph : Graph} {entry id other : BlockId} {version : Version} {blocks : List BlockId}
  {replaced : Nat}

/-- Replace repeated values in one block after the other. -/
def dedupeBlocks (version : Version) (blocks : List BlockId) (graph : Graph) (replaced : Nat) :
    Graph × Nat :=
  blocks.foldl (fun (graph, replaced) id =>
    let (instrs, more) := Dedupe.block version (graph.block id).instrs
    (graph.recode id instrs, replaced + more)) (graph, replaced)

theorem dedupe_eq_dedupeBlocks :
    graph.dedupe entry version = dedupeBlocks version (graph.reachable entry) graph 0 := rfl

theorem dedupeBlocks_cons :
    dedupeBlocks version (id :: blocks) graph replaced =
      dedupeBlocks version blocks
        (graph.recode id (Dedupe.block version (graph.block id).instrs).1)
        (replaced + (Dedupe.block version (graph.block id).instrs).2) := rfl

theorem size_dedupeBlocks : (dedupeBlocks version blocks graph replaced).1.size = graph.size := by
  induction blocks generalizing graph replaced with
  | nil => rfl
  | cons id blocks ih => rw [dedupeBlocks_cons, ih, recode, size_modify]

theorem successors_dedupeBlocks :
    (dedupeBlocks version blocks graph replaced).1.successors other = graph.successors other := by
  induction blocks generalizing graph replaced with
  | nil => rfl
  | cons id blocks ih =>
    rw [dedupeBlocks_cons, ih]
    exact (sameEdges_recode (Dedupe.endsRoutine_block version _)).successors other

/-- The blocks in reach stay the same. -/
theorem reachable_dedupe :
    (graph.dedupe entry version).1.reachable entry = graph.reachable entry :=
  reachable_congr size_dedupeBlocks (fun _ => successors_dedupeBlocks) entry

/-- Nothing is left to replace in a block that has been gone through. -/
theorem once?_recode_self : Dedupe.once? version
    ((graph.recode id (Dedupe.block version (graph.block id).instrs).1).block id).instrs = none := by
  by_cases inside : id < graph.size
  · rw [instrs_recode_self inside]
    exact Dedupe.once?_block version _
  · rw [recode, block_modify_of_le _ inside, block_of_size_le (Nat.le_of_not_lt inside)]
    rfl

/-- Nor is anything left to replace where there was nothing, however many blocks are gone
through. -/
theorem once?_dedupeBlocks
    (gone : other ∈ blocks ∨ Dedupe.once? version (graph.block other).instrs = none) :
    Dedupe.once? version ((dedupeBlocks version blocks graph replaced).1.block other).instrs =
      none := by
  induction blocks generalizing graph replaced with
  | nil => exact gone.resolve_left List.not_mem_nil
  | cons id blocks ih =>
    rw [dedupeBlocks_cons]
    apply ih
    by_cases same : other = id
    · subst same
      exact .inr once?_recode_self
    · rw [block_recode_of_ne same]
      exact gone.imp_left fun member => (List.mem_cons.mp member).resolve_left same

theorem dedupeBlocks_eq_self
    (done : ∀ id ∈ blocks, Dedupe.once? version (graph.block id).instrs = none) :
    dedupeBlocks version blocks graph replaced = (graph, replaced) := by
  induction blocks with
  | nil => rfl
  | cons id blocks ih =>
    rw [List.forall_mem_cons] at done
    rw [dedupeBlocks_cons, Dedupe.block, Dedupe.rounds_of_once?_eq_none done.1, recode_self]
    exact ih done.2

theorem dedupe_dedupe : (graph.dedupe entry version).1.dedupe entry version =
    ((graph.dedupe entry version).1, 0) := by
  rw [dedupe_eq_dedupeBlocks, reachable_dedupe]
  apply dedupeBlocks_eq_self
  intro id reached
  exact once?_dedupeBlocks (.inl reached)

end Graph

/-- Replacing repeated values reaches its fixed point. The rounds that a block is granted are
never used up: fewer windows are replaced, the last round finds none, and further rounds would
change nothing. In what is left no two equal windows follow each other that could be replaced. So
replacing again replaces nothing and changes nothing, in a block and in a graph. -/
theorem duplication_reaches_fixed_point (version : Version) :
    (∀ instrs : List Instr,
      (Dedupe.block version instrs).2 < instrs.length + 1 ∧
      Dedupe.once? version (Dedupe.block version instrs).1 = none ∧
      (∀ shorter, ¬ Dedupe.Once version (Dedupe.block version instrs).1 shorter) ∧
      (∀ further, Dedupe.rounds version (instrs.length + 1 + further) instrs =
        Dedupe.block version instrs) ∧
      Dedupe.block version (Dedupe.block version instrs).1 =
        ((Dedupe.block version instrs).1, 0)) ∧
    ∀ (graph : Graph) (entry : BlockId),
      (graph.dedupe entry version).1.dedupe entry version =
        ((graph.dedupe entry version).1, 0) := by
  constructor
  · intro instrs
    have enough := Dedupe.countP_starts_lt_succ_length instrs
    have done := Dedupe.once?_block version instrs
    refine ⟨Nat.lt_of_le_of_lt (Dedupe.once?_rounds enough).2 enough, done,
      Dedupe.not_once_of_once?_eq_none done,
      fun further => Dedupe.rounds_congr enough (Nat.le_add_right _ further), ?_⟩
    exact Dedupe.rounds_of_once?_eq_none done _
  · intro graph entry
    exact Graph.dedupe_dedupe

end ContractBackend
