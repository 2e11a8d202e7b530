import ContractBackend.Ascending
import ContractBackend.FlatCode.Basic
import Mathlib.Data.List.Nodup

/-!
# Tables

What is found in a table made of entries. The routines of a program stand in the order of their
numbers, the main routine first; every stage of compilation keeps the routines and their order.
-/

namespace ContractBackend

/-- Looking up in a table whose values have been changed. -/
theorem lookup_mapValue {κ ν μ : Type} [BEq κ] [LawfulBEq κ] (change : κ → ν → μ)
    (table : List (κ × ν)) (key : κ) :
    (table.map fun entry => (entry.1, change entry.1 entry.2)).lookup key =
      (table.lookup key).map (change key) := by
  induction table with
  | nil => rfl
  | cons head tail ih =>
    obtain ⟨first, value⟩ := head
    simp only [List.map_cons, List.lookup_cons, ih]
    cases same : key == first with
    | false => rfl
    | true => rw [eq_of_beq same]; rfl

theorem mem_of_lookup {κ ν : Type} [DecidableEq κ] {table : List (κ × ν)} {key : κ} {value : ν}
    (found : table.lookup key = some value) : (key, value) ∈ table := by
  obtain ⟨before, after, rfl, _⟩ := List.lookup_eq_some_iff.mp found
  simp

/-- With one entry for each key, every entry is found. -/
theorem lookup_of_mem {κ ν : Type} [DecidableEq κ] {table : List (κ × ν)} {key : κ} {value : ν}
    (nodup : (table.map Prod.fst).Nodup) (member : (key, value) ∈ table) :
    table.lookup key = some value := by
  induction table with
  | nil => cases member
  | cons head tail ih =>
    rw [List.map_cons, List.nodup_cons] at nodup
    rcases List.mem_cons.mp member with rfl | later
    · simp
    · have different : key ≠ head.1 := by
        rintro rfl
        exact nodup.1 (List.mem_map.mpr ⟨_, later, rfl⟩)
      obtain ⟨first, _⟩ := head
      rw [List.lookup_cons, beq_eq_false_iff_ne.mpr different]
      exact ih nodup.2 later

namespace Keyed

variable {κ ν : Type} [LT κ] [DecidableLT κ] [DecidableEq κ] {key : κ} {value : ν}
  {table entries : List (κ × ν)}

theorem mem_of_mem_insert {entry : κ × ν} (member : entry ∈ insert key value table) :
    entry = (key, value) ∨ entry ∈ table := by
  induction table with
  | nil => simpa [insert] using member
  | cons head tail ih =>
    simp only [insert] at member
    split at member
    next => grind
    next =>
      split at member
      next => simpa using member
      next => grind

/-- In a table made of entries, the last entry with a key is found. -/
theorem lookup_ofList (entries : List (κ × ν)) (key : κ) :
    (ofList entries).lookup key = entries.reverse.lookup key := by
  suffices general : ∀ table : List (κ × ν),
      (entries.foldl (fun table entry => insert entry.1 entry.2 table) table).lookup key =
        (entries.reverse.lookup key).or (table.lookup key) by
    simpa [ofList] using general []
  induction entries with
  | nil => simp
  | cons head tail ih =>
    intro table
    obtain ⟨first, value⟩ := head
    rw [List.foldl_cons, ih, lookup_insert, List.reverse_cons, List.lookup_append,
      Option.or_assoc, List.lookup_cons, List.lookup_nil]
    by_cases same : key = first
    · simp [same]
    · simp [same, beq_eq_false_iff_ne.mpr same]

/-- With one entry for each key, a table made of entries holds them all. -/
theorem lookup_ofList_of_mem (nodup : (entries.map Prod.fst).Nodup)
    (member : (key, value) ∈ entries) :
    (ofList entries).lookup key = some value := by
  rw [lookup_ofList]
  refine lookup_of_mem ?_ (List.mem_reverse.mpr member)
  rwa [List.map_reverse, List.nodup_reverse]

/-- A table made of entries holds no others. -/
theorem mem_of_mem_ofList {entry : κ × ν} (member : entry ∈ ofList entries) : entry ∈ entries := by
  suffices general : ∀ table : List (κ × ν),
      entry ∈ entries.foldl (fun table entry => insert entry.1 entry.2 table) table →
        entry ∈ table ∨ entry ∈ entries from (general [] member).resolve_left List.not_mem_nil
  clear member
  induction entries with
  | nil => exact fun table member => .inl member
  | cons head tail ih =>
    intro table member
    rcases ih _ member with inserted | later
    · rcases mem_of_mem_insert inserted with rfl | old
      · exact .inr List.mem_cons_self
      · exact .inl old
    · exact .inr (List.mem_cons_of_mem _ later)

theorem mem_of_lookup_ofList (found : (ofList entries).lookup key = some value) :
    (key, value) ∈ entries :=
  mem_of_mem_ofList (mem_of_lookup found)

omit [LT κ] [DecidableLT κ] in
theorem mem_keys_iff :
    key ∈ table.map Prod.fst ↔ table.lookup key ≠ none := by
  rw [Ne, List.lookup_eq_none_iff, List.mem_map]
  constructor
  · rintro ⟨entry, member, rfl⟩ absent
    simpa using absent entry member
  · intro present
    by_contra absent
    refine present fun entry member => bne_iff_ne.mpr fun same => ?_
    exact absent ⟨entry, member, same.symm⟩

/-- A table made of entries has every key of the entries. -/
theorem lookup_ofList_ne_none (member : key ∈ entries.map Prod.fst) :
    (ofList entries).lookup key ≠ none := by
  rw [lookup_ofList, ← mem_keys_iff, List.map_reverse]
  exact List.mem_reverse.mpr member

/-- A key that is not there makes the table longer. -/
theorem length_insert (absent : table.lookup key = none) (value : ν) :
    (insert key value table).length = table.length + 1 := by
  induction table with
  | nil => rfl
  | cons head tail ih =>
    obtain ⟨first, stored⟩ := head
    rw [List.lookup_cons] at absent
    split at absent
    next => cases absent
    next different =>
      rw [beq_eq_false_iff_ne] at different
      rw [insert, if_neg different]
      split
      next => rfl
      next => rw [List.length_cons, ih absent, List.length_cons]

end Keyed

namespace RoutineTable

variable {α β : Type} {table : RoutineTable α}

/-- The routines stand in their order. -/
def Ordered (table : RoutineTable α) : Prop :=
  (table.map Prod.fst).Pairwise fun left right => left.rank < right.rank

theorem rank_inj {left right : Routine} (same : left.rank = right.rank) : left = right := by
  cases left <;> cases right <;> simp_all [Routine.rank]

theorem Ordered.nodup (ordered : table.Ordered) : (table.map Prod.fst).Nodup :=
  ordered.imp fun less same => by simp [same] at less

theorem Ordered.congr {other : RoutineTable β} (ordered : table.Ordered)
    (keys : other.map Prod.fst = table.map Prod.fst) : other.Ordered := by
  rwa [Ordered, keys]

theorem Ordered.insert (ordered : table.Ordered) {routine : Routine} (value : α) :
    Ordered (Keyed.insert routine value table) := by
  induction table with
  | nil => exact List.pairwise_singleton _ _
  | cons head tail ih =>
    rw [Ordered, List.map_cons, List.pairwise_cons] at ordered
    rw [Keyed.insert]
    split
    next same =>
      rw [Ordered, List.map_cons, List.pairwise_cons, same]
      exact ordered
    next different =>
      split
      next less =>
        rw [Ordered, List.map_cons, List.pairwise_cons, List.map_cons, List.pairwise_cons]
        refine ⟨?_, ordered⟩
        intro other member
        rcases List.mem_cons.mp member with rfl | later
        · exact less
        · exact Nat.lt_trans less (ordered.1 other later)
      next notLess =>
        rw [Ordered, List.map_cons, List.pairwise_cons]
        refine ⟨?_, ih ordered.2⟩
        intro other member
        obtain ⟨entry, isEntry, rfl⟩ := List.mem_map.mp member
        have apart : head.1.rank ≠ routine.rank := fun same => different (rank_inj same.symm)
        have above : ¬ routine.rank < head.1.rank := notLess
        rcases Keyed.mem_of_mem_insert isEntry with rfl | old
        · simp only
          omega
        · exact ordered.1 _ (List.mem_map_of_mem old)

/-- The main routine comes first. -/
theorem Ordered.exists_main (ordered : table.Ordered) (member : .main ∈ table.map Prod.fst) :
    ∃ value rest, table = (.main, value) :: rest ∧ ∀ entry ∈ rest, entry.1 ≠ .main := by
  cases table with
  | nil => cases member
  | cons head tail =>
    obtain ⟨first, value⟩ := head
    rw [Ordered, List.map_cons, List.pairwise_cons] at ordered
    have isMain : first = .main := by
      rcases List.mem_cons.mp member with same | later
      · exact same.symm
      · exact absurd (ordered.1 _ later) (Nat.not_lt_zero _)
    subst isMain
    refine ⟨value, tail, rfl, fun entry isEntry same => ?_⟩
    have above := ordered.1 _ (List.mem_map_of_mem isEntry)
    simp [same] at above

end RoutineTable

end ContractBackend
