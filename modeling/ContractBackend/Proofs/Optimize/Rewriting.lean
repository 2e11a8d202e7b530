import ContractBackend.Optimize.Dedupe
import ContractBackend.Optimize.Elide
import ContractBackend.Proofs.Lowering.Steps

/-!
# Improvements as rewrites

Each improvement replaces the instructions of one block after the other. What a single
replacement does to the code of a block is said here, so that later proofs need to look at
one replacement only.
-/

namespace ContractBackend

open Relation (ReflTransGen)

theorem StackHeight.of_checkFrom_cons {position height final : Nat} {instr : Instr}
    {rest : List Instr} (isOk : checkFrom position (instr :: rest) height = .ok final) :
    ∃ effect, instr.effect? = some effect ∧ effect.pops ≤ height ∧
      checkFrom (position + 1) rest (height - effect.pops + effect.pushes) = .ok final := by
  rw [checkFrom] at isOk
  split at isOk
  next => cases isOk
  next effect known =>
    split at isOk
    next enough => exact ⟨effect, known, enough, isOk⟩
    next => cases isOk

namespace Dedupe

variable {version : Version} {instrs shorter : List Instr}

/-- The second of two equal windows is replaced. -/
inductive Once (version : Version) : List Instr → List Instr → Prop where
  | intro (front window rest : List Instr) {instr : Instr} :
      replacement? version window = some instr →
      Once version (front ++ (window ++ (window ++ rest))) (front ++ (window ++ instr :: rest))

/-- A window that can be replaced is plain code that adds one or two values to an empty stack. -/
theorem of_replacement? {window : List Instr} {instr : Instr}
    (found : replacement? version window = some instr) :
    (∀ other ∈ window, isPlain other = true) ∧
      (StackHeight.checkFrom 0 window 0 = .ok 1 ∧ instr = ⟨.dup, []⟩ ∨
        StackHeight.checkFrom 0 window 0 = .ok 2 ∧ instr = ⟨.dup2, []⟩) := by
  have checked : ∀ {count}, StackHeight.netPushes? window = some count →
      StackHeight.checkFrom 0 window 0 = .ok count := Fallible.toOption_eq_some.mp
  rw [replacement?] at found
  split at found
  next plain =>
    refine ⟨List.all_eq_true.mp plain, ?_⟩
    split at found
    next one => exact .inl ⟨checked one, (Option.some.inj found).symm⟩
    next two =>
      rw [Option.ite_none_right_eq_some] at found
      exact .inr ⟨checked two, (Option.some.inj found.2).symm⟩
    next => cases found
  next => cases found

theorem agree_eq_true {count : Nat} {left right : List Instr} (same : agree count left right = true) :
    left.take count = right.take count := by
  induction count generalizing left right with
  | zero => rfl
  | succ count ih =>
    cases left with
    | nil => cases right <;> simp [agree] at same
    | cons first lefts =>
      cases right with
      | nil => simp [agree] at same
      | cons second rights =>
        simp only [agree, Bool.and_eq_true, decide_eq_true_eq] at same
        rw [List.take_succ_cons, List.take_succ_cons, same.1, ih same.2]

theorem once_of_replaceAt? {stop width : Nat} (fits : 2 * width ≤ stop)
    (replaced : replaceAt? version instrs stop width = some shorter) :
    Once version instrs shorter := by
  simp only [replaceAt?] at replaced
  split at replaced
  next same =>
    obtain ⟨instr, found, rfl⟩ := Option.map_eq_some_iff.mp replaced
    have equal := agree_eq_true same
    have front : instrs.take (stop - width) =
        instrs.take (stop - 2 * width) ++ (instrs.drop (stop - 2 * width)).take width := by
      rw [← List.take_add]
      congr 1
      omega
    have rest : instrs.drop stop = ((instrs.drop (stop - 2 * width)).drop width).drop width := by
      rw [List.drop_drop, List.drop_drop]
      congr 1
      omega
    have whole : instrs = instrs.take (stop - 2 * width) ++
        ((instrs.drop (stop - 2 * width)).take width ++
          ((instrs.drop (stop - 2 * width)).take width ++ instrs.drop stop)) := by
      have second : (instrs.drop (stop - 2 * width)).take width ++ instrs.drop stop =
          (instrs.drop (stop - 2 * width)).drop width := by
        rw [rest, equal, List.take_append_drop]
      rw [second, List.take_append_drop, List.take_append_drop]
    have once := Once.intro (instrs.take (stop - 2 * width)) _ (instrs.drop stop) found
    rw [← whole, ← List.append_assoc, ← front] at once
    exact once
  next => cases replaced

/-- The search goes from the widest windows down. -/
theorem replaceEnding?_eq_findSome? (stop width : Nat) :
    replaceEnding? version instrs stop width =
      (List.range width).reverse.findSome? fun width => replaceAt? version instrs stop (width + 1) := by
  induction width with
  | zero => rfl
  | succ width ih =>
    rw [replaceEnding?, ih, List.range_succ, List.reverse_concat, List.findSome?_cons]
    cases replaceAt? version instrs stop (width + 1) <;> rfl

/-- The search goes from the end of the code to its start. -/
theorem once?_eq_findSome? : once? version instrs =
    (List.range instrs.length).reverse.findSome? fun stop =>
      replaceEnding? version instrs (stop + 1) ((stop + 1) / 2) := by
  rw [once?]
  induction instrs.length with
  | zero => rfl
  | succ stop ih =>
    rw [replaceUpTo?, ih, List.range_succ, List.reverse_concat, List.findSome?_cons]
    cases replaceEnding? version instrs (stop + 1) ((stop + 1) / 2) <;> rfl

theorem once_of_replaceEnding? {stop width : Nat} (fits : 2 * width ≤ stop)
    (replaced : replaceEnding? version instrs stop width = some shorter) :
    Once version instrs shorter := by
  rw [replaceEnding?_eq_findSome?] at replaced
  obtain ⟨narrower, member, here⟩ := List.exists_of_findSome?_eq_some replaced
  rw [List.mem_reverse, List.mem_range] at member
  exact once_of_replaceAt? (by omega) here

theorem once_of_once? (replaced : once? version instrs = some shorter) :
    Once version instrs shorter := by
  rw [once?_eq_findSome?] at replaced
  obtain ⟨stop, _, here⟩ := List.exists_of_findSome?_eq_some replaced
  exact once_of_replaceEnding? (Nat.mul_div_le _ _) here

/-- Replacing windows is replacing one after the other. -/
theorem reflTransGen_block : ReflTransGen (Once version) instrs (block version instrs).1 := by
  rw [block]
  generalize instrs.length + 1 = count
  induction count generalizing instrs with
  | zero => exact .refl
  | succ count ih =>
    rw [rounds]
    split
    next => exact .refl
    next shorter replaced => exact .head (once_of_once? replaced) ih

end Dedupe

namespace Elide

variable {skip : List Slot} {slot : Slot} {instrs shorter : List Instr}

theorem not_loadsFrom_of_storedSlot? {store : Instr} (stored : storedSlot? store = some slot)
    (other : Slot) : store.loadsFrom other = false := by
  rw [storedSlot?, Option.ite_none_right_eq_some] at stored
  rw [Instr.loadsFrom, stored.1]
  rfl

/-- A store to a slot and the load behind it are left out. -/
inductive Pair (skip : List Slot) (slot : Slot) : List Instr → List Instr → Prop where
  | intro (front rest : List Instr) {store load : Instr} :
      storedSlot? store = some slot → slot ∉ skip → load.loadsFrom slot = true →
      Pair skip slot (front ++ store :: load :: rest) (front ++ rest)

/-- The first pair, with no pair in front of it. -/
theorem exists_of_firstPair? (found : firstPair? skip instrs = some (slot, shorter)) :
    ∃ front store load rest, instrs = front ++ store :: load :: rest ∧ shorter = front ++ rest ∧
      (storedSlot? store = some slot ∧ slot ∉ skip ∧ load.loadsFrom slot = true) ∧
      firstPair? skip (front ++ [store]) = none := by
  fun_induction firstPair? skip instrs generalizing shorter with
  | case1 first second rest stored isStored good =>
    cases found
    rw [Bool.and_eq_true, decide_eq_true_eq] at good
    exact ⟨[], first, second, rest, rfl, rfl, ⟨isStored, good⟩, rfl⟩
  | case2 first second rest stored isStored bad ih | case3 first second rest noStore ih =>
    obtain ⟨⟨_, behind⟩, isFound, equal⟩ := Option.map_eq_some_iff.mp found
    cases equal
    obtain ⟨front, store, load, more, isCode, rfl, isPair, free⟩ := ih isFound
    refine ⟨first :: front, store, load, more, by rw [isCode]; rfl, rfl, isPair, ?_⟩
    cases front <;> cases isCode <;> simp_all [firstPair?]
  | case4 => cases found

theorem pair_of_firstPair? (found : firstPair? skip instrs = some (slot, shorter)) :
    Pair skip slot instrs shorter := by
  obtain ⟨front, store, load, rest, rfl, rfl, ⟨stored, counts, loads⟩, _⟩ :=
    exists_of_firstPair? found
  exact .intro front rest stored counts loads

end Elide

namespace Graph

variable {graph before after : Graph} {entry id other : BlockId} {instrs : List Instr}

/-- The graph with other instructions in one of its blocks. -/
def recode (graph : Graph) (id : BlockId) (instrs : List Instr) : Graph :=
  graph.modify id fun block => { block with instrs }

/-- One block of a graph gets other instructions. -/
inductive Recodes (rewrite : List Instr → List Instr → Prop) : Graph → Graph → Prop where
  | intro {graph : Graph} (id : BlockId) {instrs : List Instr} :
      rewrite (graph.block id).instrs instrs → Recodes rewrite graph (graph.recode id instrs)

theorem block_recode_cases (graph : Graph) (id other : BlockId) (instrs : List Instr) :
    (graph.recode id instrs).block other = graph.block other ∨
      other = id ∧ (graph.recode id instrs).block other = { graph.block other with instrs } := by
  by_cases same : other = id
  · subst same
    by_cases inside : other < graph.size
    · exact .inr ⟨rfl, block_modify_self _ inside⟩
    · exact .inl (block_modify_of_le _ inside)
  · exact .inl (block_modify_of_ne _ same)

theorem shape_recode : ((graph.recode id instrs).block other).shape = (graph.block other).shape := by
  rcases graph.block_recode_cases id other instrs with kept | ⟨_, changed⟩
  · rw [kept]
  · rw [changed]

theorem instrs_recode_self (inside : id < graph.size) :
    ((graph.recode id instrs).block id).instrs = instrs := by
  rw [recode, block_modify_self _ inside]

theorem block_recode_of_ne (different : other ≠ id) :
    (graph.recode id instrs).block other = graph.block other :=
  block_modify_of_ne _ different

theorem recode_recode (first second : List Instr) :
    (graph.recode id first).recode id second = graph.recode id second := by
  simp only [recode, modify, Graph.mk.injEq]
  apply Array.ext_getElem?
  intro index
  simp only [Array.getElem?_modify]
  split
  · cases graph.blocks[index]? <;> rfl
  · rfl

theorem recode_self : graph.recode id (graph.block id).instrs = graph := by
  obtain ⟨blocks⟩ := graph
  simp only [recode, modify, Graph.mk.injEq]
  apply Array.ext_getElem?
  intro index
  simp only [Array.getElem?_modify, Graph.block]
  split
  next same =>
    subst same
    cases blocks[id]? <;> rfl
  next => rfl

/-- Rewriting the code of a block step by step changes the graph step by step. -/
theorem reflTransGen_recode {rewrite : List Instr → List Instr → Prop} (inside : id < graph.size)
    (steps : ReflTransGen rewrite (graph.block id).instrs instrs) :
    ReflTransGen (Recodes rewrite) graph (graph.recode id instrs) := by
  induction steps with
  | refl => rw [recode_self]
  | @tail middle last _ step ih =>
    have here : ((graph.recode id middle).block id).instrs = middle := instrs_recode_self inside
    have further : Recodes rewrite (graph.recode id middle) _ := .intro id (here ▸ step)
    rw [recode_recode] at further
    exact ih.tail further

theorem reflTransGen_dedupe (version : Version)
    (inside : ∀ id ∈ graph.reachable entry, id < graph.size) :
    ReflTransGen (Recodes (Dedupe.Once version)) graph (graph.dedupe entry version).1 := by
  rw [dedupe]
  generalize graph.reachable entry = blocks at inside
  generalize (0 : Nat) = replaced
  induction blocks generalizing graph replaced with
  | nil => exact .refl
  | cons id rest ih =>
    rw [List.forall_mem_cons] at inside
    rw [List.foldl_cons]
    refine (reflTransGen_recode inside.1 Dedupe.reflTransGen_block).trans (ih ?_ _)
    simpa only [recode, size_modify] using inside.2

/-- A pair is left out whose slot is loaded nowhere else. -/
inductive Elides (entry : BlockId) (skip : List Slot) : Graph → Graph → Prop where
  | intro {graph : Graph} (id : BlockId) {slot : Slot} {instrs : List Instr} :
      id ∈ graph.reachable entry → graph.loadCount (graph.reachable entry) slot = 1 →
      Elide.Pair skip slot (graph.block id).instrs instrs →
      Elides entry skip graph (graph.recode id instrs)

theorem exists_of_elideOnce? {skip : List Slot}
    (found : before.elideOnce? entry skip = some after) :
    ∃ id slot instrs, id ∈ before.reachable entry ∧
      Elide.firstPair? skip (before.block id).instrs = some (slot, instrs) ∧
      before.loadCount (before.reachable entry) slot = 1 ∧ after = before.recode id instrs := by
  obtain ⟨id, reached, found⟩ := List.exists_of_findSome?_eq_some found
  rw [elideIn?] at found
  split at found
  next slot instrs pair =>
    split at found
    next once =>
      cases found
      exact ⟨id, slot, instrs, reached, pair, once, rfl⟩
    next => cases found
  next => cases found

theorem elides_of_elideOnce? {skip : List Slot} (found : before.elideOnce? entry skip = some after) :
    Elides entry skip before after := by
  obtain ⟨id, slot, instrs, reached, pair, once, rfl⟩ := exists_of_elideOnce? found
  exact .intro id reached once (Elide.pair_of_firstPair? pair)

theorem reflTransGen_elide (graph : Graph) (entry : BlockId) (skip : List Slot) :
    ReflTransGen (Elides entry skip) graph (graph.elide entry skip).1 := by
  rw [elide]
  generalize graph.instrCount = count
  induction count generalizing graph with
  | zero => exact .refl
  | succ count ih =>
    rw [elideWithin]
    split
    next => exact .refl
    next smaller found => exact .head (elides_of_elideOnce? found) (ih smaller)

end Graph

end ContractBackend
