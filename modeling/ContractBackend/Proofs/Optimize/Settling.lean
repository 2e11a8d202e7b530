import ContractBackend.Proofs.Optimize.Forwarding
import ContractBackend.Proofs.Optimize.Rounds

/-!
# Both improvements, once and again

Leaving out a pair can bring two equal windows next to each other, so that the replacement of
repeated values finds work again. But all of that work stands in front of the pairs that are left,
and their slots keep more than one load. So the second time nothing is left out, and the third time
nothing changes.
-/

namespace ContractBackend

open Relation (ReflTransGen)

namespace Elide

variable {version : Version} {skip : List Slot} {slot : Slot} {instr store : Instr}
  {instrs shorter left right front tail window : List Instr}

theorem isPlain_of_storedSlot? (stored : storedSlot? instr = some slot) :
    Dedupe.isPlain instr = false := by
  rw [storedSlot?, Option.ite_none_right_eq_some] at stored
  rw [Dedupe.isPlain, stored.1]
  exact Bool.and_false _

/-- The slot of the first pair. -/
def firstSlot? (skip : List Slot) (instrs : List Instr) : Option Slot :=
  (firstPair? skip instrs).map Prod.fst

theorem firstSlot?_cons_of_storedSlot?_eq_none (notStore : storedSlot? instr = none) :
    firstSlot? skip (instr :: instrs) = firstSlot? skip instrs := by
  cases instrs with
  | nil => rfl
  | cons second rest => simp [firstSlot?, firstPair?, notStore, Function.comp_def]

theorem firstSlot?_append_of_plain (plain : ∀ instr ∈ window, Dedupe.isPlain instr = true) :
    firstSlot? skip (window ++ instrs) = firstSlot? skip instrs := by
  induction window with
  | nil => rfl
  | cons first window ih =>
    rw [List.forall_mem_cons] at plain
    have notStore : storedSlot? first = none := by
      rw [Option.eq_none_iff_forall_ne_some]
      intro slot stored
      rw [isPlain_of_storedSlot? stored] at plain
      exact Bool.false_ne_true plain.1
    rw [List.cons_append, firstSlot?_cons_of_storedSlot?_eq_none notStore, ih plain.2]

/-- Whether an instruction and the next form a pair depends on nothing behind them. -/
theorem firstSlot?_append_congr (front : List Instr) (heads : left.head? = right.head?)
    (same : firstSlot? skip left = firstSlot? skip right) :
    firstSlot? skip (front ++ left) = firstSlot? skip (front ++ right) := by
  induction front with
  | nil => exact same
  | cons first front ih =>
    have heads : (front ++ left).head? = (front ++ right).head? := by
      rw [List.head?_append, List.head?_append, heads]
    rw [List.cons_append, List.cons_append]
    generalize front ++ left = left at heads ih
    generalize front ++ right = right at heads ih
    cases left with
    | nil =>
      rw [List.head?_nil, eq_comm, List.head?_eq_none_iff] at heads
      rw [heads]
    | cons second lefts =>
      cases right with
      | nil => cases heads
      | cons _ rights =>
        cases heads
        simp only [firstSlot?] at ih
        simp only [firstSlot?, firstPair?]
        split
        · split
          · rfl
          · simpa [Function.comp_def] using ih
        · simpa [Function.comp_def] using ih

/-- Replacing a window neither makes a pair nor takes one apart. -/
theorem firstSlot?_of_once (once : Dedupe.Once version instrs shorter) :
    firstSlot? skip shorter = firstSlot? skip instrs := by
  cases once with
  | @intro front window rest added found =>
    obtain ⟨plain, net⟩ := Dedupe.of_replacement? found
    obtain ⟨nonempty, _, kind⟩ := Dedupe.replacement?_cases found
    have notStore : storedSlot? added = none := by
      rcases kind with rfl | rfl <;> rfl
    apply firstSlot?_append_congr
    · obtain ⟨first, window, rfl⟩ := List.exists_cons_of_ne_nil nonempty
      rfl
    · rw [firstSlot?_append_of_plain plain, firstSlot?_append_of_plain plain,
        firstSlot?_append_of_plain plain, firstSlot?_cons_of_storedSlot?_eq_none notStore]

theorem firstSlot?_of_steps (steps : ReflTransGen (Dedupe.Once version) instrs shorter) :
    firstSlot? skip shorter = firstSlot? skip instrs := by
  induction steps with
  | refl => rfl
  | tail _ once ih => rw [firstSlot?_of_once once, ih]

/-- From the load of each pair on nothing is left to replace. -/
def Unrepeating (version : Version) (skip : List Slot) (instrs : List Instr) : Prop :=
  ∀ front store load rest slot, instrs = front ++ store :: load :: rest →
    storedSlot? store = some slot ∧ slot ∉ skip ∧ load.loadsFrom slot = true →
    ∀ shorter, ¬ Dedupe.Once version (load :: rest) shorter

end Elide

namespace Dedupe

variable {version : Version} {skip : List Slot} {instr : Instr}
  {instrs shorter front tail window rest : List Instr}

theorem Once.append_left (once : Once version instrs shorter) (front : List Instr) :
    Once version (front ++ instrs) (front ++ shorter) := by
  cases once with
  | intro more window rest found =>
    rw [← List.append_assoc, ← List.append_assoc front]
    exact .intro (front ++ more) window rest found

theorem Once.subset (once : Once version instrs shorter) : instrs ⊆ shorter := by
  cases once with
  | intro front window rest found =>
    intro instr member
    simp only [List.mem_append, List.mem_cons] at member ⊢
    tauto

theorem append_cons_eq_append (isCode : front ++ instr :: tail = window ++ rest)
    (absent : instr ∉ window) :
    ∃ front', front = window ++ front' ∧ rest = front' ++ instr :: tail := by
  rcases List.append_eq_append_iff.mp isCode with ⟨more, rfl, behind⟩ | ⟨more, rfl, rfl⟩
  · cases more with
    | nil => exact ⟨[], by simp, by simpa using behind.symm⟩
    | cons _ more =>
      cases behind
      exact absurd (List.mem_append_right _ (.head _)) absent
  · exact ⟨more, rfl, rfl⟩

theorem subset_of_steps (steps : ReflTransGen (Once version) instrs shorter) :
    instrs ⊆ shorter := by
  induction steps with
  | refl => exact List.Subset.refl _
  | tail _ once ih => exact List.Subset.trans ih once.subset

theorem block_of_count (none : (block version instrs).2 = 0) :
    (block version instrs).1 = instrs := by
  rw [block, rounds] at none ⊢
  split at none
  · rfl
  · cases none

/-- Both windows stand on the same side of an instruction that is not plain. -/
theorem Once.append_cons_cases (once : Once version (front ++ instr :: tail) shorter)
    (notPlain : isPlain instr = false) :
    (∃ front', Once version front front' ∧ shorter = front' ++ instr :: tail) ∨
      ∃ tail', Once version tail tail' := by
  generalize isCode : front ++ instr :: tail = instrs at once
  cases once with
  | @intro before window rest added found =>
    have absent : instr ∉ window := by
      intro member
      rw [(of_replacement? found).1 instr member] at notPlain
      cases notPlain
    rcases List.append_eq_append_iff.mp isCode with ⟨more, rfl, behind⟩ | ⟨more, rfl, ahead⟩
    · cases more with
      | nil =>
        have behind : [] ++ instr :: tail = window ++ (window ++ rest) := behind
        obtain ⟨_, none, _⟩ := append_cons_eq_append behind absent
        exact absurd (List.append_eq_nil_iff.mp none.symm).1 (replacement?_cases found).1
      | cons _ more =>
        cases behind
        exact .inr ⟨_, .intro more window rest found⟩
    · obtain ⟨more, rfl, second⟩ := append_cons_eq_append ahead.symm absent
      obtain ⟨more, rfl, rfl⟩ := append_cons_eq_append second.symm absent
      refine .inl ⟨_, .intro before window more found, ?_⟩
      simp only [List.append_assoc, List.cons_append]

/-- Code from which nothing can be replaced stays as it is behind an instruction that is not
plain. -/
theorem exists_of_steps (steps : ReflTransGen (Once version) (front ++ instr :: tail) shorter)
    (notPlain : isPlain instr = false) (done : ∀ tail', ¬ Once version tail tail') :
    ∃ front', front ⊆ front' ∧ shorter = front' ++ instr :: tail := by
  induction steps with
  | refl => exact ⟨front, List.Subset.refl _, rfl⟩
  | tail _ once ih =>
    obtain ⟨front', kept, rfl⟩ := ih
    rcases once.append_cons_cases notPlain with ⟨front'', step, rfl⟩ | ⟨tail', step⟩
    · exact ⟨front'', List.Subset.trans kept step.subset, rfl⟩
    · exact absurd step (done tail')

end Dedupe

namespace Elide

variable {version : Version} {skip : List Slot} {slot : Slot} {instrs shorter : List Instr}

theorem unrepeating_of_forall_not_once (done : ∀ shorter, ¬ Dedupe.Once version instrs shorter) :
    Unrepeating version skip instrs := by
  rintro front store load rest slot rfl _ shorter once
  exact done _ ((once.append_left [store]).append_left front)

/-- Leaving out the first pair leaves only pairs whose loads stand behind it. -/
theorem Unrepeating.of_firstPair? (unrepeating : Unrepeating version skip instrs)
    (found : firstPair? skip instrs = some (slot, shorter)) : Unrepeating version skip shorter := by
  obtain ⟨front, store, load, rest, rfl, rfl, isPair, free⟩ := exists_of_firstPair? found
  intro front' store' load' rest' slot' isCode isPair' replaced once
  have done := unrepeating front store load rest slot rfl isPair
  suffices behind : ∃ more, rest = more ++ load' :: rest' by
    obtain ⟨more, rfl⟩ := behind
    exact done _ ((once.append_left more).append_left [load])
  rcases List.append_eq_append_iff.mp isCode with ⟨more, rfl, behind⟩ | ⟨more, rfl, behind⟩
  · exact ⟨more ++ [store'], by rw [behind, List.append_assoc]; rfl⟩
  · rcases more with _ | ⟨_, _ | ⟨_, more⟩⟩
    · exact ⟨[store'], behind.symm⟩
    · cases behind
      exact ⟨[], rfl⟩
    · cases behind
      -- Such a pair would have been found first.
      have earlier : PairBehind skip slot' front'
          ((front' ++ store' :: load' :: more) ++ [store]) :=
        ⟨store', load', more ++ [store], by simp, isPair'⟩
      obtain ⟨_, _, some, _⟩ := exists_firstPair? earlier
      rw [free] at some
      cases some

end Elide

namespace Graph

variable {graph smaller : Graph} {entry id : BlockId} {version : Version} {skip : List Slot}
  {slot : Slot} {blocks : List BlockId} {replaced : Nat}

theorem elideOnce?_eq_none_iff : graph.elideOnce? entry skip = none ↔
    ∀ id ∈ graph.reachable entry, ∀ slot,
      Elide.firstSlot? skip (graph.block id).instrs = some slot →
        graph.loadCount (graph.reachable entry) slot ≠ 1 := by
  rw [elideOnce?, List.findSome?_eq_none_iff]
  refine forall₂_congr fun id _ => ?_
  rw [elideIn?, Elide.firstSlot?]
  cases Elide.firstPair? skip (graph.block id).instrs <;> simp

/-- Blocks within reach exist, and from the loads of their pairs on nothing is left to replace. -/
structure Unrepeating (graph : Graph) (entry : BlockId) (version : Version) (skip : List Slot) :
    Prop where
  inside : ∀ id ∈ graph.reachable entry, id < graph.size
  each : ∀ id ∈ graph.reachable entry, Elide.Unrepeating version skip (graph.block id).instrs

theorem unrepeating_dedupe (inside : ∀ id ∈ graph.reachable entry, id < graph.size) :
    (graph.dedupe entry version).1.Unrepeating entry version skip where
  inside id reached := by
    rw [reachable_dedupe] at reached
    rw [dedupe_eq_dedupeBlocks, size_dedupeBlocks]
    exact inside id reached
  each id reached := by
    rw [reachable_dedupe] at reached
    apply Elide.unrepeating_of_forall_not_once
    apply Dedupe.not_once_of_once?_eq_none
    exact once?_dedupeBlocks (.inl reached)

theorem Unrepeating.elideOnce? (unrepeating : graph.Unrepeating entry version skip)
    (found : graph.elideOnce? entry skip = some smaller) :
    smaller.Unrepeating entry version skip := by
  obtain ⟨id, slot, instrs, reached, pair, _, rfl⟩ := exists_of_elideOnce? found
  have fewer := mem_reachable_of_recode unrepeating.inside (Elide.pair_of_firstPair? pair)
  constructor
  · intro other within
    rw [recode, size_modify]
    exact unrepeating.inside other (fewer other within)
  · intro other within
    by_cases same : other = id
    · subst same
      rw [instrs_recode_self (unrepeating.inside other reached)]
      exact (unrepeating.each other reached).of_firstPair? pair
    · rw [block_recode_of_ne same]
      exact unrepeating.each other (fewer other within)

theorem Unrepeating.elideWithin (unrepeating : graph.Unrepeating entry version skip) (count : Nat) :
    (graph.elideWithin entry skip count).1.Unrepeating entry version skip := by
  induction count generalizing graph with
  | zero => exact unrepeating
  | succ count ih =>
    rw [Graph.elideWithin]
    split
    next => exact unrepeating
    next smaller found => exact ih (unrepeating.elideOnce? found)

theorem steps_dedupeBlocks (other : BlockId) :
    ReflTransGen (Dedupe.Once version) (graph.block other).instrs
      ((dedupeBlocks version blocks graph replaced).1.block other).instrs := by
  induction blocks generalizing graph replaced with
  | nil => exact .refl
  | cons id blocks ih =>
    rw [dedupeBlocks_cons]
    refine .trans ?_ ih
    rcases graph.block_recode_cases id other _ with kept | ⟨rfl, changed⟩
    · rw [kept]
    · rw [changed]
      exact Dedupe.reflTransGen_block

theorem countP_pos_of_subset {instrs shorter : List Instr} {test : Instr → Bool}
    (kept : instrs ⊆ shorter) (positive : 0 < instrs.countP test) : 0 < shorter.countP test := by
  obtain ⟨instr, member, holds⟩ := List.countP_pos_iff.mp positive
  exact List.countP_pos_iff.mpr ⟨instr, kept member, holds⟩

/-- A slot keeps its second load if no block loses its last and one block keeps its second. -/
theorem two_le_loadCount {other : Graph} (listed : id ∈ blocks)
    (kept : ∀ id, (graph.block id).instrs ⊆ (other.block id).instrs)
    (here : 0 < (graph.block id).instrs.countP fun instr => instr.loadsFrom slot)
    (both : 2 ≤ ((graph.block id).instrs.countP fun instr => instr.loadsFrom slot) →
      2 ≤ (other.block id).instrs.countP fun instr => instr.loadsFrom slot)
    (many : 2 ≤ graph.loadCount blocks slot) : 2 ≤ other.loadCount blocks slot := by
  have parts : ∀ part : List BlockId, part.flatMap (fun id => (graph.block id).instrs) ⊆
      part.flatMap fun id => (other.block id).instrs := by
    intro part load member
    obtain ⟨id, within, member⟩ := List.mem_flatMap.mp member
    exact List.mem_flatMap.mpr ⟨id, within, kept id member⟩
  obtain ⟨front, rest, rfl⟩ := List.append_of_mem listed
  have ahead := @countP_pos_of_subset _ _ (fun instr => instr.loadsFrom slot) (parts front)
  have behind := @countP_pos_of_subset _ _ (fun instr => instr.loadsFrom slot) (parts rest)
  have one := countP_pos_of_subset (kept id) here
  rw [loadCount, List.flatMap_append, List.flatMap_cons, List.countP_append, List.countP_append]
    at many ⊢
  omega

/-- Where no pair can go, none can go after another replacement of repeated values. -/
theorem Unrepeating.elideOnce?_dedupe (unrepeating : graph.Unrepeating entry version skip)
    (done : graph.elideOnce? entry skip = none) :
    (graph.dedupe entry version).1.elideOnce? entry skip = none := by
  have steps : ∀ other, ReflTransGen (Dedupe.Once version) (graph.block other).instrs
      ((graph.dedupe entry version).1.block other).instrs := steps_dedupeBlocks
  rw [elideOnce?_eq_none_iff] at done ⊢
  intro id reached slot first
  rw [reachable_dedupe] at reached ⊢
  rw [Elide.firstSlot?_of_steps (steps id)] at first
  have shared := done id reached slot first
  obtain ⟨⟨slot, _⟩, found, rfl⟩ := Option.map_eq_some_iff.mp first
  obtain ⟨front, store, load, rest, isCode, _, isPair, _⟩ := Elide.exists_of_firstPair? found
  have noneBehind := unrepeating.each id reached front store load rest slot isCode isPair
  have loaded := loadCount_pos reached ⟨store, load, rest, isCode, isPair⟩
  have here := steps id
  rw [isCode] at here
  obtain ⟨front', kept, changed⟩ :=
    Dedupe.exists_of_steps here (Elide.isPlain_of_storedSlot? isPair.1) noneBehind
  have inFront := @countP_pos_of_subset _ _ (fun instr => instr.loadsFrom slot) kept
  refine Nat.ne_of_gt (two_le_loadCount reached
    (fun other => Dedupe.subset_of_steps (steps other)) ?_ ?_
    (Nat.lt_of_le_of_ne loaded (Ne.symm shared)))
  · exact List.countP_pos_iff.mpr ⟨load, by simp [isCode], isPair.2.2⟩
  · rw [isCode, changed]
    simp only [List.countP_append, List.countP_cons, isPair.2.2, if_true]
    omega

theorem le_count_dedupeBlocks : replaced ≤ (dedupeBlocks version blocks graph replaced).2 ∧
    ((dedupeBlocks version blocks graph replaced).2 = replaced →
      (dedupeBlocks version blocks graph replaced).1 = graph) := by
  induction blocks generalizing graph replaced with
  | nil => exact ⟨Nat.le_refl _, fun _ => rfl⟩
  | cons id blocks ih =>
    rw [dedupeBlocks_cons]
    have bound := (@ih (graph.recode id (Dedupe.block version (graph.block id).instrs).1)
      (replaced + (Dedupe.block version (graph.block id).instrs).2)).1
    refine ⟨Nat.le_of_add_right_le bound, fun same => ?_⟩
    have none : (Dedupe.block version (graph.block id).instrs).2 = 0 := by
      rw [same] at bound
      exact Nat.le_zero.mp (Nat.add_le_add_iff_left.mp bound)
    rw [none, Nat.add_zero] at same ⊢
    rw [ih.2 same, Dedupe.block_of_count none, recode_self]

theorem elideWithin_of_count {count : Nat} (none : (graph.elideWithin entry skip count).2 = 0) :
    (graph.elideWithin entry skip count).1 = graph := by
  cases count with
  | zero => rfl
  | succ count =>
    rw [elideWithin] at none ⊢
    split at none
    · rfl
    · cases none

/-- Replace repeated values, then leave out pairs. The numbers of both come with the result. -/
def improve (graph : Graph) (entry : BlockId) (version : Version) (skip : List Slot) :
    Graph × Nat × Nat :=
  let deduped := graph.dedupe entry version
  let elided := deduped.1.elide entry skip
  (elided.1, deduped.2, elided.2)

end Graph

/-- Improving a graph twice is enough. The second time no pair is left out, and the third time
nothing changes. The second time changes nothing exactly if no value is replaced, and none is if no
pair was left out the first time. -/
theorem improving_twice_suffices (graph : Graph) (entry : BlockId) (version : Version)
    (skip : List Slot) (inside : ∀ id ∈ graph.reachable entry, id < graph.size) :
    let once := graph.improve entry version skip
    let twice := once.1.improve entry version skip
    twice.2.2 = 0 ∧
    twice.1.improve entry version skip = (twice.1, 0, 0) ∧
    (twice.1 = once.1 ↔ twice.2.1 = 0) ∧
    (once.2.2 = 0 → twice.2.1 = 0) := by
  intro once twice
  have done : once.1.elideOnce? entry skip = none := Graph.elideOnce?_elide _ _ _
  have unrepeating : once.1.Unrepeating entry version skip :=
    (Graph.unrepeating_dedupe inside).elideWithin _
  have again : (once.1.dedupe entry version).1.elide entry skip =
      ((once.1.dedupe entry version).1, 0) :=
    Graph.elideWithin_of_elideOnce?_eq_none (unrepeating.elideOnce?_dedupe done) _
  have second : twice = ((once.1.dedupe entry version).1, (once.1.dedupe entry version).2, 0) := by
    simp only [twice, Graph.improve, again]
  have third : twice.1.improve entry version skip = (twice.1, 0, 0) := by
    rw [second]
    simp only [Graph.improve, Graph.dedupe_dedupe, again]
  refine ⟨by rw [second], third, ⟨fun same => ?_, fun none => ?_⟩, fun none => ?_⟩
  · rw [same] at third
    exact congrArg (·.2.1) third
  · rw [second] at none ⊢
    exact Graph.le_count_dedupeBlocks.2 none
  · have kept : once.1 = (graph.dedupe entry version).1 := Graph.elideWithin_of_count none
    rw [second, kept, Graph.dedupe_dedupe]

/-- A store and a load keep two equal values apart. -/
def keptApart : Graph where
  blocks := #[{ instrs := [.int 1, .store ⟨0, none⟩, .load ⟨0, none⟩, .int 1, ⟨.add, []⟩,
    ⟨.ret, []⟩] }]

theorem inside_keptApart : ∀ id ∈ keptApart.reachable 0, id < keptApart.size := by decide

theorem improving_twice_suffices_keptApart :
    (∀ id ∈ keptApart.reachable 0, id < keptApart.size) ∧
    (keptApart.improve 0 8 []).2.2 = 1 ∧
    let twice := (keptApart.improve 0 8 []).1.improve 0 8 []
    twice.2 = (1, 0) ∧ twice.1.improve 0 8 [] = (twice.1, 0, 0) :=
  ⟨inside_keptApart, by decide, by decide,
    (improving_twice_suffices keptApart 0 8 [] inside_keptApart).2.1⟩

/-- The second time may change a graph. -/
theorem improving_again_may_replace :
    ¬ ∀ (graph : Graph) (entry : BlockId) (version : Version) (skip : List Slot), 2 ≤ version →
      (∀ id ∈ graph.reachable entry, id < graph.size) →
      (graph.improve entry version skip).1.improve entry version skip =
        ((graph.improve entry version skip).1, 0, 0) := by
  intro settles
  have second := settles keptApart 0 8 [] (by decide) (by decide)
  have count := congrArg (·.2.1) second
  revert count
  decide

end ContractBackend
