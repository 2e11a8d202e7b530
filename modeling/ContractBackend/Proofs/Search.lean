import Mathlib.Data.List.Nodup
import Mathlib.Data.List.Perm.Subperm
import ContractBackend.Graph.Incoming
import ContractBackend.Proofs.Fallible

/-!
# What breadth-first search finds

The search returns each node once, it returns only nodes that the edges lead to,
and it returns all of them as long as the bound is not smaller than the number
of nodes it may meet. So the blocks that control can reach in a valid graph are all there, edges
stay among them, and no block that goes on has half of its targets.
-/

namespace ContractBackend.Reach

variable {ν : Type} [DecidableEq ν] {queue seen : List ν} {node : ν} {count bound : Nat}
  {start : List ν}

@[simp] theorem mem_fresh {candidates : List ν} :
    node ∈ fresh seen candidates ↔ node ∈ candidates ∧ node ∉ seen := by
  induction candidates generalizing seen with
  | nil => simp [fresh]
  | cons head tail ih =>
    simp only [fresh]
    split
    next known => grind
    next unknown =>
      simp only [List.mem_cons, ih]
      grind

theorem fresh_nodup (seen candidates : List ν) : (fresh seen candidates).Nodup := by
  induction candidates generalizing seen with
  | nil => simp [fresh]
  | cons head tail ih =>
    simp only [fresh]
    split
    next => exact ih seen
    next =>
      apply List.nodup_cons.mpr
      constructor
      · simp
      · exact ih (head :: seen)

/-- One more round keeps the list of seen nodes free of repetition. -/
theorem seen_append_fresh_nodup (nodup : seen.Nodup) (candidates : List ν) :
    (seen ++ fresh seen candidates).Nodup := by
  apply List.Nodup.append nodup (fresh_nodup seen candidates)
  intro node known found
  exact (mem_fresh.mp found).2 known

theorem mem_explore_of_mem (next : ν → List ν) (known : node ∈ seen) :
    node ∈ explore next count queue seen := by
  induction count generalizing queue seen with
  | zero => exact known
  | succ count ih =>
    cases queue with
    | nil => exact known
    | cons head queue => exact ih (List.mem_append_left _ known)

theorem explore_nodup (next : ν → List ν) (count : Nat) (nodup : seen.Nodup) :
    (explore next count queue seen).Nodup := by
  induction count generalizing queue seen with
  | zero => exact nodup
  | succ count ih =>
    cases queue with
    | nil => exact nodup
    | cons head queue => exact ih (seen_append_fresh_nodup nodup _)

/-- A property of the seen nodes that the edges out of found nodes keep holds of
everything found. -/
theorem explore_preserves (next : ν → List ν) (property : ν → Prop)
    (waiting : ∀ node ∈ queue, node ∈ seen)
    (kept : ∀ node ∈ explore next count queue seen, property node →
      ∀ successor ∈ next node, property successor) (held : ∀ node ∈ seen, property node) :
    ∀ node ∈ explore next count queue seen, property node := by
  induction count generalizing queue seen with
  | zero => exact held
  | succ count ih =>
    cases queue with
    | nil => exact held
    | cons head queue =>
      have headSeen : head ∈ seen := waiting head (by simp)
      apply ih
      · intro node member
        rcases List.mem_append.mp member with old | found
        · exact List.mem_append_left _ (waiting node (by simp [old]))
        · exact List.mem_append_right _ found
      · exact kept
      · intro node member
        rcases List.mem_append.mp member with old | found
        · exact held node old
        · exact kept head (mem_explore_of_mem next (by simp [headSeen]))
            (held head headSeen) node (mem_fresh.mp found).1

/-- With enough rounds nothing stays in the queue: every edge out of a found node
leads to a found node. The nodes that have left the queue are counted by the
rounds used so far. -/
theorem explore_closed (next : ν → List ν) {nodes : List ν} (small : nodes.length ≤ bound)
    (nodup : seen.Nodup) (used : seen.length + count = bound + queue.length)
    (expanded : ∀ node ∈ seen, node ∈ queue ∨ ∀ successor ∈ next node, successor ∈ seen)
    (inside : ∀ node ∈ explore next count queue seen, node ∈ nodes) :
    ∀ node ∈ explore next count queue seen,
      ∀ successor ∈ next node, successor ∈ explore next count queue seen := by
  induction count generalizing queue seen with
  | zero =>
    simp only [explore] at inside ⊢
    have fits : seen.length ≤ nodes.length :=
      (List.subperm_of_subset nodup inside).length_le
    have emptied : queue = [] := by
      apply List.eq_nil_of_length_eq_zero
      omega
    intro node member
    rcases expanded node member with queued | done
    · simp [emptied] at queued
    · exact done
  | succ count ih =>
    cases queue with
    | nil =>
      simp only [explore] at inside ⊢
      intro node member
      rcases expanded node member with queued | done
      · simp at queued
      · exact done
    | cons head queue =>
      apply ih (seen_append_fresh_nodup nodup _)
      · simp only [List.length_append, List.length_cons] at used ⊢
        omega
      · intro node member
        rcases List.mem_append.mp member with old | found
        · rcases expanded node old with queued | done
          · rcases List.mem_cons.mp queued with rfl | waiting
            · right
              intro successor edge
              by_cases known : successor ∈ seen
              · exact List.mem_append_left _ known
              · exact List.mem_append_right _ (mem_fresh.mpr ⟨edge, known⟩)
            · left
              exact List.mem_append_left _ waiting
          · right
            intro successor edge
            exact List.mem_append_left _ (done successor edge)
        · left
          exact List.mem_append_right _ found
      · exact inside

theorem closure_nodup (next : ν → List ν) (bound : Nat) (start : List ν) :
    (closure next bound start).Nodup :=
  explore_nodup next bound (fresh_nodup [] start)

theorem mem_closure_of_mem_start (next : ν → List ν) (bound : Nat) (member : node ∈ start) :
    node ∈ closure next bound start :=
  mem_explore_of_mem next (by simp [member])

theorem closure_preserves (next : ν → List ν) (property : ν → Prop)
    (kept : ∀ node ∈ closure next bound start, property node →
      ∀ successor ∈ next node, property successor) (held : ∀ node ∈ start, property node) :
    ∀ node ∈ closure next bound start, property node := by
  apply explore_preserves next property (fun _ member => member) kept
  intro node member
  exact held node (mem_fresh.mp member).1

/-- If everything found lies in a list no longer than the bound, then the search
has followed every edge. -/
theorem closure_closed (next : ν → List ν) {nodes : List ν} (small : nodes.length ≤ bound)
    (inside : ∀ node ∈ closure next bound start, node ∈ nodes) :
    ∀ node ∈ closure next bound start,
      ∀ successor ∈ next node, successor ∈ closure next bound start := by
  apply explore_closed next small (fresh_nodup [] start)
  · omega
  · intro node member
    exact .inl member
  · exact inside

end ContractBackend.Reach

namespace ContractBackend.Graph

variable {graph : Graph} {entry id target : BlockId}

theorem checkBlock_eq_ok : graph.checkBlock id = .ok () ↔ id < graph.size := by
  simp only [checkBlock]
  split <;> simp_all

theorem checkTargets_eq_ok : graph.checkTargets id = .ok () ↔
    ((graph.block id).exits = false → (graph.block id).shape.isHalf = false) ∧
      ∀ target ∈ graph.successors id, target < graph.size := by
  simp only [checkTargets]
  split
  next half =>
    simp only [Fallible.bind_eq_ok, Fallible.throw_ne_ok, false_and, exists_false, false_iff]
    rintro ⟨whole, _⟩
    simp_all
  next whole =>
    simp only [Fallible.forM_eq_ok, checkBlock_eq_ok, successors]
    simp_all

theorem mem_reachable_entry : entry ∈ graph.reachable entry :=
  Reach.mem_closure_of_mem_start _ _ (by simp)

/-- What control can rely on in a valid graph. -/
structure Valid (graph : Graph) (entry : BlockId) : Prop where
  inside : ∀ id ∈ graph.reachable entry, id < graph.size
  whole : ∀ id ∈ graph.reachable entry, (graph.block id).exits = false →
    (graph.block id).shape.isHalf = false
  closed : ∀ id ∈ graph.reachable entry,
    ∀ target ∈ graph.successors id, target ∈ graph.reachable entry

/-- Blocks within the bounds of the graph leave the search enough rounds. -/
theorem reachable_closed (inside : ∀ id ∈ graph.reachable entry, id < graph.size) :
    ∀ id ∈ graph.reachable entry,
      ∀ target ∈ graph.successors id, target ∈ graph.reachable entry := by
  have within : ∀ id ∈ graph.reachable entry, id ∈ List.range graph.size := by
    intro id member
    simpa using inside id member
  exact Reach.closure_closed graph.successors (by simp) within

theorem validate_eq_ok : graph.validate entry = .ok () ↔
    entry < graph.size ∧ (∀ id ∈ graph.reachable entry, graph.checkTargets id = .ok ()) ∧
      ∀ id ∈ graph.reachable entry,
        graph.checkIncoming (graph.reachable entry) id = .ok () := by
  simp only [validate, Fallible.check_eq_ok, Fallible.forM_eq_ok, checkBlock_eq_ok]

theorem Valid.of_validate (valid : graph.validate entry = .ok ()) : graph.Valid entry := by
  obtain ⟨entryInside, targets, _⟩ := validate_eq_ok.mp valid
  have inside : ∀ id ∈ graph.reachable entry, id < graph.size := by
    apply Reach.closure_preserves
    · intro source reached _ target edge
      exact (checkTargets_eq_ok.mp (targets source reached)).2 target edge
    · simpa using entryInside
  exact {
    inside
    whole := fun id member => (checkTargets_eq_ok.mp (targets id member)).1
    closed := reachable_closed inside }

end ContractBackend.Graph
