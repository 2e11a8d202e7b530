import ContractBackend.Proofs.Graph.Tallies
import Mathlib.Algebra.GroupWithZero.Nat

/-!
# The edges that close a loop

What the depth-first walk has found when it ends. In the order in which it leaves the blocks,
the last one first, every edge that does not close a loop leads forward, and every block but the
entry has such an edge into it.
-/

namespace ContractBackend

theorem Edge.lt_irrefl (edge : Edge) : ¬ edge < edge := by
  rintro (less | ⟨_, less⟩) <;> exact Nat.lt_irrefl _ less

theorem Edge.lt_trans {first second third : Edge} (less : first < second) (further : second < third) :
    first < third := by
  rcases less with less | ⟨same, less⟩ <;> rcases further with more | ⟨same', more⟩
  · exact .inl (Nat.lt_trans less more)
  · exact .inl (same' ▸ less)
  · exact .inl (same ▸ more)
  · exact .inr ⟨same.trans same', Nat.lt_trans less more⟩

theorem Edge.lt_of_not_lt {left right : Edge} (different : left ≠ right) (notLess : ¬ left < right) :
    right < left := by
  obtain ⟨source, target⟩ := left
  obtain ⟨source', target'⟩ := right
  rcases Nat.lt_trichotomy source source' with less | rfl | more
  · exact absurd (.inl less) notLess
  · rcases Nat.lt_trichotomy target target' with less | rfl | more
    · exact absurd (.inr ⟨rfl, less⟩) notLess
    · exact absurd rfl different
    · exact .inr ⟨rfl, more⟩
  · exact .inl more

/-- In a list without repetition the position tells which of two elements comes first. -/
theorem idxOf_lt_of_sublist {α : Type} [DecidableEq α] {list : List α} (nodup : list.Nodup)
    {left right : α} (forward : [left, right].Sublist list) : list.idxOf left < list.idxOf right := by
  have increasing : list.Pairwise fun left right => list.idxOf left < list.idxOf right := by
    rw [List.pairwise_iff_getElem]
    intro first second firstInside secondInside less
    rwa [nodup.idxOf_getElem, nodup.idxOf_getElem]
  exact List.pairwise_iff_forall_sublist.mp increasing forward

namespace Graph

variable {graph : Graph} {entry id target : BlockId} {rest listed entered : List BlockId}
  {path outer : List (BlockId × List BlockId)} {found : List Edge}

/-- A block on the path of the walk does not have an edge still to be tried. -/
def Tried (path : List (BlockId × List BlockId)) (source target : BlockId) : Prop :=
  ∀ rest, (source, rest) ∈ path → target ∉ rest

/-- Trying an edge. A second edge to the same target may remain. -/
theorem Tried.of_rest {source other : BlockId} (target : BlockId)
    (tried : Tried ((id, rest) :: outer) source other) :
    Tried ((id, target :: rest) :: outer) source other ∨ source = id ∧ other = target := by
  by_cases same : source = id ∧ other = target
  · exact .inr same
  · refine .inl fun others member => ?_
    rcases List.mem_cons.mp member with equal | outside
    · cases equal
      have different : other ≠ target := fun equal => same ⟨rfl, equal⟩
      simpa [different] using tried rest (List.mem_cons_self ..)
    · exact tried others (List.mem_cons_of_mem _ outside)

/-- What holds on the way of the walk. The blocks entered are listed with those on the path
first, the entry at the head, and then those that have been left, the last one first. -/
structure Walk (graph : Graph) (entry : BlockId) (path : List (BlockId × List BlockId))
    (found : List Edge) (listed : List BlockId) : Prop where
  split : ∃ left, listed = (path.map Prod.fst).reverse ++ left
  nodup : listed.Nodup
  first : listed.head? = some entry
  reached : ∀ id ∈ listed, id ∈ graph.reachable entry
  pending : ∀ node ∈ path, node.2 ⊆ graph.successors node.1
  /-- An edge that has been tried closes a loop or leads forward in the list. -/
  ordered : ∀ id ∈ listed, ∀ target ∈ graph.successors id, Tried path id target →
    ⟨id, target⟩ ∈ found ∨ [id, target].Sublist listed
  /-- An edge that closes a loop does not lead forward. -/
  closing : ∀ edge ∈ found, edge.source ∈ listed ∧ edge.target ∈ graph.successors edge.source ∧
    (edge.target = edge.source ∨ [edge.target, edge.source].Sublist listed)
  ascending : found.Pairwise (· < ·)
  /-- The edge through which the walk has come to a block leads forward. -/
  tree : ∀ id ∈ listed, id ≠ entry → ∃ source, id ∈ graph.successors source ∧
    [source, id].Sublist listed

namespace Walk

theorem start (entry : BlockId) : graph.Walk entry [(entry, graph.successors entry)] [] [entry] where
  split := ⟨[], rfl⟩
  nodup := by simp
  first := rfl
  reached := by simpa using mem_reachable_entry
  pending := by simp
  ordered := by
    intro id isEntry target edge tried
    rw [List.mem_singleton] at isEntry
    subst isEntry
    exact absurd edge (tried _ (by simp))
  closing := List.forall_mem_nil _
  ascending := .nil
  tree := by
    intro id isEntry other
    exact absurd (List.mem_singleton.mp isEntry) other

theorem mem_of_path (walk : graph.Walk entry path found listed) (member : (id, rest) ∈ path) :
    id ∈ listed := by
  obtain ⟨left, rfl⟩ := walk.split
  simp only [List.mem_append, List.mem_reverse, List.mem_map]
  exact .inl ⟨_, member, rfl⟩

/-- A block without further edges is left. -/
theorem leave (walk : graph.Walk entry ((id, []) :: outer) found listed) :
    graph.Walk entry outer found listed := by
  have tried : ∀ {source target}, Tried outer source target →
      Tried ((id, []) :: outer) source target := by
    intro source target tried rest member
    rcases List.mem_cons.mp member with same | other
    · cases same
      exact List.not_mem_nil
    · exact tried rest other
  obtain ⟨left, isListed⟩ := walk.split
  exact { walk with
    split := ⟨id :: left, by simp [isListed]⟩
    pending := fun node member => walk.pending node (by simp [member])
    ordered := fun id member target edge isTried =>
      walk.ordered id member target edge (tried isTried) }

theorem length_le (walk : graph.Walk entry path found listed)
    (inside : ∀ id ∈ graph.reachable entry, id < graph.size) : listed.length ≤ graph.size := by
  have within : listed ⊆ List.range graph.size := fun id member =>
    List.mem_range.mpr (inside id (walk.reached id member))
  simpa using (List.subperm_of_subset walk.nodup within).length_le

section Edge

variable (walk : graph.Walk entry ((id, target :: rest) :: outer) found listed)

include walk

theorem edge : target ∈ graph.successors id :=
  walk.pending _ (List.mem_cons_self ..) (List.mem_cons_self ..)

theorem pending_rest : ∀ node ∈ (id, rest) :: outer, node.2 ⊆ graph.successors node.1 := by
  intro node member
  rcases List.mem_cons.mp member with rfl | outside
  · exact List.Subset.trans (List.subset_cons_self target rest)
      (walk.pending _ (List.mem_cons_self ..))
  · exact walk.pending node (List.mem_cons_of_mem _ outside)

/-- An edge to a block on the path closes a loop. -/
theorem close (onPath : target ∈ ((id, rest) :: outer).map Prod.fst) :
    graph.Walk entry ((id, rest) :: outer) (Ascending.insert ⟨id, target⟩ found) listed where
  split := walk.split
  nodup := walk.nodup
  first := walk.first
  reached := walk.reached
  pending := walk.pending_rest
  ordered source member other edge tried := by
    rcases tried.of_rest target with before | ⟨rfl, rfl⟩
    · exact (walk.ordered source member other edge before).imp_left fun closes =>
        Ascending.mem_insert.mpr (.inr closes)
    · exact .inl (Ascending.mem_insert.mpr (.inl rfl))
  closing edge isFound := by
    rcases Ascending.mem_insert.mp isFound with rfl | old
    · refine ⟨walk.mem_of_path (List.mem_cons_self ..), walk.edge, ?_⟩
      rcases List.mem_cons.mp onPath with same | outside
      · exact .inl same
      · right
        obtain ⟨left, rfl⟩ := walk.split
        rw [List.map_cons, List.reverse_cons, List.append_assoc]
        have above : [target].Sublist (outer.map Prod.fst).reverse :=
          List.singleton_sublist.mpr (List.mem_reverse.mpr outside)
        exact above.append (List.singleton_sublist.mpr
          (List.mem_append_left _ (List.mem_singleton.mpr rfl)))
    · exact walk.closing edge old
  ascending := Ascending.pairwise_insert Edge.lt_trans Edge.lt_of_not_lt walk.ascending
  tree := walk.tree

/-- An edge to a block that has been left leads forward. -/
theorem pass (notOnPath : target ∉ ((id, rest) :: outer).map Prod.fst) (isListed : target ∈ listed) :
    graph.Walk entry ((id, rest) :: outer) found listed := by
  have forward : [id, target].Sublist listed := by
    obtain ⟨left, rfl⟩ := walk.split
    have isLeft : target ∈ left := by
      rcases List.mem_append.mp isListed with onPath | isLeft
      · exact absurd (List.mem_reverse.mp onPath) notOnPath
      · exact isLeft
    have onPath : [id].Sublist (((id, target :: rest) :: outer).map Prod.fst).reverse :=
      List.singleton_sublist.mpr (by simp)
    exact onPath.append (List.singleton_sublist.mpr isLeft)
  exact { walk with
    split := walk.split
    pending := walk.pending_rest
    ordered := by
      intro source member other edge tried
      rcases tried.of_rest target with before | ⟨rfl, rfl⟩
      · exact walk.ordered source member other edge before
      · exact .inr forward }

/-- A block that has not been entered is put at the end of the path. -/
theorem enter (closed : ∀ id ∈ graph.reachable entry, ∀ target ∈ graph.successors id,
      target ∈ graph.reachable entry) (new : target ∉ listed) :
    ∃ listed', graph.Walk entry ((target, graph.successors target) :: (id, rest) :: outer) found
      listed' ∧ listed'.Perm (target :: listed) := by
  have here : id ∈ listed := walk.mem_of_path (List.mem_cons_self ..)
  obtain ⟨left, isListed⟩ := walk.split
  have longer : listed.Sublist ((((id, rest) :: outer).map Prod.fst).reverse ++ target :: left) := by
    rw [isListed]
    exact (List.sublist_cons_self target left).append_left _
  have perm : ((((id, rest) :: outer).map Prod.fst).reverse ++ target :: left).Perm
      (target :: listed) := by
    rw [isListed]
    exact List.perm_middle
  have forward : [id, target].Sublist
      ((((id, rest) :: outer).map Prod.fst).reverse ++ target :: left) := by
    have onPath : [id].Sublist (((id, rest) :: outer).map Prod.fst).reverse :=
      List.singleton_sublist.mpr (by simp)
    exact onPath.append (List.singleton_sublist.mpr (List.mem_cons_self ..))
  refine ⟨_, ⟨⟨left, by simp⟩, ?_, ?_, ?_, ?_, ?_, ?_, walk.ascending, ?_⟩, perm⟩
  · rw [perm.nodup_iff, List.nodup_cons]
    exact ⟨new, walk.nodup⟩
  · have first := walk.first
    simpa [isListed, List.head?_append] using first
  · intro other member
    rcases List.mem_cons.mp (perm.mem_iff.mp member) with rfl | old
    · exact closed id (walk.reached id here) other walk.edge
    · exact walk.reached other old
  · exact List.forall_mem_cons.mpr ⟨List.Subset.refl _, walk.pending_rest⟩
  · intro source member other edge tried
    rcases List.mem_cons.mp (perm.mem_iff.mp member) with rfl | old
    · exact absurd edge (tried _ (List.mem_cons_self ..))
    · have before : Tried ((id, rest) :: outer) source other := fun others outside =>
        tried others (List.mem_cons_of_mem _ outside)
      rcases before.of_rest target with before | ⟨rfl, rfl⟩
      · exact (walk.ordered source old other edge before).imp_right fun ahead => ahead.trans longer
      · exact .inr forward
  · intro edge isFound
    obtain ⟨source, isEdge, behind⟩ := walk.closing edge isFound
    exact ⟨longer.subset source, isEdge, behind.imp_right fun behind => behind.trans longer⟩
  · intro other member notEntry
    rcases List.mem_cons.mp (perm.mem_iff.mp member) with rfl | old
    · exact ⟨id, walk.edge, forward⟩
    · obtain ⟨source, edge, ahead⟩ := walk.tree other old notEntry
      exact ⟨source, edge, ahead.trans longer⟩

end Edge

end Walk

/-! ## The whole walk -/

/-- How many moves the walk has still to make at most. -/
def movesLeft (graph : Graph) (path : List (BlockId × List BlockId)) (entered : List BlockId) : Nat :=
  (path.map fun node => node.2.length + 1).sum + 3 * (graph.size - entered.length)

theorem length_successors_le (graph : Graph) (id : BlockId) : (graph.successors id).length ≤ 2 := by
  rw [Graph.successors, Block.successors]
  split
  next => simp
  next =>
    cases (graph.block id).shape with
    | simple next => cases next <;> simp [Shape.targets]
    | conditional onTrue onFalse => cases onTrue <;> cases onFalse <;> simp [Shape.targets]

/-- The walk comes to an end. -/
theorem Walk.finish {count : Nat} (inside : ∀ id ∈ graph.reachable entry, id < graph.size)
    (walk : graph.Walk entry path found listed) (isEntered : entered.Perm listed)
    (enough : graph.movesLeft path entered ≤ count) :
    ∃ listed', graph.Walk entry [] (graph.backEdgesWithin count path entered found) listed' := by
  induction count generalizing path entered found listed with
  | zero =>
    cases path with
    | nil => exact ⟨listed, walk⟩
    | cons node outer =>
      rw [movesLeft, List.map_cons, List.sum_cons] at enough
      omega
  | succ count ih =>
    rcases path with _ | ⟨⟨id, _ | ⟨target, rest⟩⟩, outer⟩
    · exact ⟨listed, walk⟩
    · refine ih walk.leave isEntered ?_
      simp only [movesLeft, List.map_cons, List.sum_cons, List.length_nil] at enough ⊢
      omega
    · simp only [movesLeft, List.map_cons, List.sum_cons, List.length_cons] at enough
      rw [backEdgesWithin]
      split
      next onPath =>
        refine ih (walk.close onPath) isEntered ?_
        simp only [movesLeft, List.map_cons, List.sum_cons]
        omega
      next notOnPath =>
        split
        next known =>
          have isListed := isEntered.mem_iff.mp known
          refine ih (walk.pass notOnPath isListed) isEntered ?_
          simp only [movesLeft, List.map_cons, List.sum_cons]
          omega
        next unknown =>
          obtain ⟨listed', grown, perm⟩ := walk.enter (reachable_closed inside)
            fun isListed => unknown (isEntered.mem_iff.mpr isListed)
          have isGrown : (target :: entered).Perm listed' :=
            (isEntered.cons target).trans perm.symm
          refine ih grown isGrown ?_
          have bound := grown.length_le inside
          have few := graph.length_successors_le target
          rw [← isGrown.length_eq] at bound
          simp only [movesLeft, List.map_cons, List.sum_cons, List.length_cons] at bound ⊢
          omega

/-- What is known of the edges that close a loop. -/
theorem exists_walk (inside : ∀ id ∈ graph.reachable entry, id < graph.size) :
    ∃ listed, graph.Walk entry [] (graph.backEdges entry) listed := by
  refine Walk.finish inside (Walk.start entry) (.refl [entry]) ?_
  have positive : 0 < graph.size := Nat.zero_lt_of_lt (inside entry mem_reachable_entry)
  have few := graph.length_successors_le entry
  simp only [movesLeft, List.map_cons, List.sum_cons, List.length_cons, List.map_nil, List.sum_nil,
    List.length_nil]
  omega

namespace Walk

theorem tried_nil {source other : BlockId} : Tried [] source other :=
  fun _ member => absurd member List.not_mem_nil

variable (walk : graph.Walk entry [] found listed)

include walk

theorem found_nodup : found.Nodup := by
  refine walk.ascending.imp ?_
  rintro edge _ less rfl
  exact Edge.lt_irrefl edge less

/-- The walk has come to every reachable block. -/
theorem mem_iff : id ∈ listed ↔ id ∈ graph.reachable entry := by
  refine ⟨walk.reached id, ?_⟩
  revert id
  apply Reach.closure_preserves
  · intro source _ isListed target edge
    rcases walk.ordered source isListed target edge tried_nil with closes | forward
    · rcases (walk.closing _ closes).2.2 with same | behind
      · rwa [show target = source from same]
      · exact behind.subset (by simp)
    · exact forward.subset (by simp)
  · simpa using List.mem_of_head? walk.first

/-- The edges that close a loop are those that do not lead forward. -/
theorem mem_found_iff (reached : id ∈ graph.reachable entry) (edge : target ∈ graph.successors id) :
    ⟨id, target⟩ ∈ found ↔ listed.idxOf target ≤ listed.idxOf id := by
  constructor
  · intro closes
    rcases (walk.closing _ closes).2.2 with same | behind
    · exact Nat.le_of_eq (congrArg listed.idxOf same)
    · exact Nat.le_of_lt (idxOf_lt_of_sublist walk.nodup behind)
  · intro behind
    refine (walk.ordered id (walk.mem_iff.mpr reached) target edge tried_nil).resolve_right ?_
    exact fun forward => Nat.not_lt.mpr behind (idxOf_lt_of_sublist walk.nodup forward)

/-- Every edge into the entry closes a loop. -/
theorem closes_of_entry (reached : id ∈ graph.reachable entry)
    (edge : entry ∈ graph.successors id) : ⟨id, entry⟩ ∈ found := by
  rw [walk.mem_found_iff reached edge]
  obtain ⟨others, rfl⟩ : ∃ others, listed = entry :: others := List.head?_eq_some_iff.mp walk.first
  rw [List.idxOf_cons_self]
  exact Nat.zero_le _

/-- An edge that does not close a loop leads forward. -/
theorem idxOf_lt (reached : id ∈ graph.reachable entry) (edge : target ∈ graph.successors id)
    (stays : ⟨id, target⟩ ∉ found) : listed.idxOf id < listed.idxOf target := by
  rwa [walk.mem_found_iff reached edge, Nat.not_le] at stays

/-- Every block but the entry has a predecessor that does not close a loop at it. -/
theorem exists_forward (reached : id ∈ graph.reachable entry) (notEntry : id ≠ entry) :
    ∃ source ∈ graph.reachable entry, id ∈ graph.successors source ∧ ⟨source, id⟩ ∉ found := by
  obtain ⟨source, edge, forward⟩ := walk.tree id (walk.mem_iff.mpr reached) notEntry
  have sourceReached := walk.reached source (forward.subset (by simp))
  refine ⟨source, sourceReached, edge, fun closes => ?_⟩
  rw [walk.mem_found_iff sourceReached edge] at closes
  exact Nat.not_lt.mpr closes (idxOf_lt_of_sublist walk.nodup forward)

end Walk

end Graph

end ContractBackend
