import Mathlib.Data.List.Forall2

/-!
# Computations that may fail

When a sequence of steps, a check of every element or a transformation of every
element of a list succeeds, expressed through the success of the single steps.
-/

namespace ContractBackend.Fallible

/-- Two results that both succeed, with related values, or both fail, for related reasons. -/
inductive Related {ε α : Type} (errors : ε → ε → Prop) (values : α → α → Prop) :
    Except ε α → Except ε α → Prop where
  | ok {left right : α} : values left right → Related errors values (.ok left) (.ok right)
  | error {left right : ε} : errors left right → Related errors values (.error left) (.error right)

variable {ε α β : Type} {elements : List α} {image : α → Except ε β} {result : β} {value : α}

@[simp] theorem ok_bind (value : α) (rest : α → Except ε β) :
    (Except.ok value >>= rest) = rest value :=
  rfl

@[simp] theorem error_bind (fault : ε) (rest : α → Except ε β) :
    (Except.error fault >>= rest) = .error fault :=
  rfl

theorem bind_eq_ok {first : Except ε α} {rest : α → Except ε β} :
    (first >>= rest) = .ok result ↔
      ∃ value, first = .ok value ∧ rest value = .ok result := by
  cases first with
  | error fault => simp [bind, Except.bind]
  | ok value => simp [bind, Except.bind]

theorem exists_error_iff {computation : Except ε α} :
    (∃ fault, computation = .error fault) ↔ ¬ ∃ value, computation = .ok value := by
  cases computation <;> simp

theorem toOption_eq_some {computation : Except ε α} :
    computation.toOption = some value ↔ computation = .ok value := by
  cases computation <;> simp [Except.toOption]

theorem exists_eq_ok {σ : Type} {result : Except ε α × σ} (isOk : result.1.toOption = some value) :
    ∃ after, result = (.ok value, after) :=
  ⟨result.2, Prod.ext (toOption_eq_some.mp isOk) rfl⟩

theorem exists_of_isSome {σ : Type} {result : Except ε α × σ} (isOk : result.1.toOption.isSome) :
    ∃ value after, result = (.ok value, after) := by
  obtain ⟨value, isValue⟩ := Option.isSome_iff_exists.mp isOk
  exact ⟨value, exists_eq_ok isValue⟩

theorem check_eq_ok {check : Except ε Unit} {rest : Unit → Except ε β} :
    (check >>= rest) = .ok result ↔ check = .ok () ∧ rest () = .ok result := by
  rw [bind_eq_ok]
  constructor
  · rintro ⟨_, checkOk, restOk⟩
    exact ⟨checkOk, restOk⟩
  · rintro ⟨checkOk, restOk⟩
    exact ⟨(), checkOk, restOk⟩

theorem map_eq_ok {first : Except ε α} {image : α → β} :
    (image <$> first) = .ok result ↔
      ∃ value, first = .ok value ∧ image value = result := by
  cases first with
  | error fault => simp [Functor.map, Except.map]
  | ok value => simp [Functor.map, Except.map]

@[simp] theorem pure_eq_ok {result : α} :
    (pure value : Except ε α) = .ok result ↔ value = result := by
  simp [pure, Except.pure]

@[simp] theorem throw_ne_ok {fault : ε} {result : α} :
    ¬ (throw fault : Except ε α) = .ok result := by
  simp [throw, throwThe, MonadExceptOf.throw]

theorem forM_eq_ok {check : α → Except ε Unit} :
    elements.forM check = .ok () ↔ ∀ element ∈ elements, check element = .ok () := by
  induction elements with
  | nil => simp [List.forM, pure, Except.pure]
  | cons head tail ih =>
    have unfolded : (head :: tail).forM check = (check head >>= fun _ => tail.forM check) :=
      rfl
    rw [unfolded, bind_eq_ok, List.forall_mem_cons, ← ih]
    constructor
    · rintro ⟨_, headOk, tailOk⟩
      exact ⟨headOk, tailOk⟩
    · rintro ⟨headOk, tailOk⟩
      exact ⟨(), headOk, tailOk⟩

theorem mapM_eq_ok {results : List β} :
    elements.mapM image = .ok results ↔
      List.Forall₂ (fun element result => image element = .ok result) elements results := by
  induction elements generalizing results with
  | nil =>
    rw [List.mapM_nil, pure_eq_ok]
    constructor
    · intro empty
      subst empty
      exact .nil
    · intro related
      cases related
      rfl
  | cons head tail ih =>
    simp only [List.mapM_cons, bind_eq_ok, pure_eq_ok]
    constructor
    · rintro ⟨first, firstOk, rest, restOk, rfl⟩
      exact .cons firstOk (ih.mp restOk)
    · intro related
      cases related with
      | @cons _ first _ rest firstOk restOk =>
        exact ⟨first, firstOk, rest, ih.mpr restOk, rfl⟩

/-- What stands in one place of related lists. -/
theorem exists_related {relation : α → β → Prop} {left : List α} {right : List β}
    (related : List.Forall₂ relation left right) {index : Nat} {first : α}
    (here : left[index]? = some first) :
    ∃ second, right[index]? = some second ∧ relation first second := by
  obtain ⟨inside, rfl⟩ := List.getElem?_eq_some_iff.mp here
  have inRight : index < right.length := related.length_eq ▸ inside
  exact ⟨right[index], List.getElem?_eq_getElem inRight, related.get inside inRight⟩

theorem exists_related_of_mem {relation : α → β → Prop} {left : List α} {right : List β}
    (related : List.Forall₂ relation left right) {second : β} (member : second ∈ right) :
    ∃ first ∈ left, relation first second := by
  obtain ⟨index, there⟩ := List.mem_iff_getElem?.mp member
  obtain ⟨first, here, isRelated⟩ := exists_related related.flip there
  exact ⟨first, List.mem_of_getElem? here, isRelated⟩

/-- A transformation that succeeds on every element succeeds on the list. -/
theorem exists_mapM_eq_ok (each : ∀ element ∈ elements, ∃ result, image element = .ok result) :
    ∃ results, elements.mapM image = .ok results := by
  induction elements with
  | nil => exact ⟨[], rfl⟩
  | cons head tail ih =>
    obtain ⟨first, firstOk⟩ := each head (by simp)
    obtain ⟨rest, restOk⟩ := ih fun element member => each element (by simp [member])
    exact ⟨first :: rest, mapM_eq_ok.mpr (.cons firstOk (mapM_eq_ok.mp restOk))⟩

/-- A transformation whose result is known on every element. -/
theorem mapM_eq_ok_map {result : α → β}
    (each : ∀ element ∈ elements, image element = .ok (result element)) :
    elements.mapM image = .ok (elements.map result) := by
  rw [mapM_eq_ok, List.forall₂_map_right_iff]
  exact List.forall₂_same.mpr each

/-- Every result of a transformation comes from an element. -/
theorem exists_of_mem_mapM {results : List β} (isOk : elements.mapM image = .ok results)
    (member : result ∈ results) :
    ∃ element ∈ elements, image element = .ok result :=
  exists_related_of_mem (mapM_eq_ok.mp isOk) member

end ContractBackend.Fallible
