/-!
# Ascending lists as finite sets and tables

Slots, routines, subroutines and keys are always gone through in a fixed order. Sets are therefore
kept as lists in ascending order without repetition, and tables as lists of entries in ascending
order of their keys. Membership and look-up are those of lists.
-/

namespace ContractBackend

namespace Ascending

variable {α : Type} [LT α] [DecidableLT α] [DecidableEq α]

/-- Add an element to an ascending list; one that is there already is kept once. -/
def insert (element : α) : List α → List α
  | [] => [element]
  | head :: tail =>
      if element = head then head :: tail
      else if element < head then element :: head :: tail
      else head :: insert element tail

@[simp] theorem mem_insert {element other : α} {set : List α} :
    other ∈ insert element set ↔ other = element ∨ other ∈ set := by
  induction set with
  | nil => simp [insert]
  | cons head tail ih =>
      simp only [insert]
      split
      next equal => simp [equal]
      next =>
        split
        next => simp
        next => simp [ih, or_left_comm]

/-- Add all elements of the second list to the first. -/
def union (set elements : List α) : List α :=
  elements.foldl (fun result element => insert element result) set

@[simp] theorem mem_union {set elements : List α} {other : α} :
    other ∈ union set elements ↔ other ∈ set ∨ other ∈ elements := by
  induction elements generalizing set with
  | nil => simp [union]
  | cons head tail ih =>
      have step : union set (head :: tail) = union (insert head set) tail := rfl
      rw [step, ih, mem_insert, List.mem_cons]
      grind

/-- The elements of a list, in ascending order and each once. -/
def ofList (elements : List α) : List α := union [] elements

@[simp] theorem mem_ofList {elements : List α} {other : α} :
    other ∈ ofList elements ↔ other ∈ elements := by
  simp [ofList]

/-- Adding an element keeps a list ascending, if the order is transitive and compares any two
elements. -/
theorem pairwise_insert (trans : ∀ {first second third : α}, first < second → second < third →
      first < third)
    (compares : ∀ {first second : α}, first ≠ second → ¬ first < second → second < first)
    {element : α} {set : List α} (ascending : set.Pairwise (· < ·)) :
    (insert element set).Pairwise (· < ·) := by
  induction set with
  | nil => exact List.pairwise_singleton _ _
  | cons head tail ih =>
      rw [List.pairwise_cons] at ascending
      rw [insert]
      split
      next => exact List.pairwise_cons.mpr ascending
      next different =>
        split
        next less =>
          refine List.pairwise_cons.mpr ⟨?_, List.pairwise_cons.mpr ascending⟩
          intro other member
          rcases List.mem_cons.mp member with rfl | later
          · exact less
          · exact trans less (ascending.1 other later)
        next notLess =>
          refine List.pairwise_cons.mpr ⟨?_, ih ascending.2⟩
          intro other member
          rcases mem_insert.mp member with rfl | later
          · exact compares different notLess
          · exact ascending.1 other later

/-- The elements of a list stand in order, if the order is transitive and compares any two. -/
theorem pairwise_ofList
    (trans : ∀ {first second third : α}, first < second → second < third → first < third)
    (compares : ∀ {first second : α}, first ≠ second → ¬ first < second → second < first)
    (elements : List α) : (ofList elements).Pairwise (· < ·) := by
  suffices ascending : ∀ set : List α, set.Pairwise (· < ·) →
      (union set elements).Pairwise (· < ·) from ascending [] .nil
  induction elements with
  | nil => exact fun _ ascending => ascending
  | cons head tail ih => exact fun set ascending => ih _ (pairwise_insert trans compares ascending)

end Ascending

namespace Keyed

variable {κ ν : Type} [LT κ] [DecidableLT κ] [DecidableEq κ]

/-- Set the value of a key in an ascending table. -/
def insert (key : κ) (value : ν) : List (κ × ν) → List (κ × ν)
  | [] => [(key, value)]
  | head :: tail =>
      if key = head.1 then (key, value) :: tail
      else if key < head.1 then (key, value) :: head :: tail
      else head :: insert key value tail

/-- The table that holds the given entries; of two entries with one key the later counts. -/
def ofList (entries : List (κ × ν)) : List (κ × ν) :=
  entries.foldl (fun table entry => insert entry.1 entry.2 table) []

/-- Looking a key up finds the value set last. -/
theorem lookup_insert (key other : κ) (value : ν) (table : List (κ × ν)) :
    (insert key value table).lookup other =
      if other = key then some value else table.lookup other := by
  induction table with
  | nil => grind [insert]
  | cons head tail ih => grind [insert]

end Keyed

end ContractBackend
