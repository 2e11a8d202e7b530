import ContractBackend.Link
import ContractBackend.Machine.Run
import ContractBackend.Proofs.Listing
import ContractBackend.Proofs.Tables

/-!
# The linked listing

Every line of a linked listing comes from an element of the code of one routine, or is the label
of a subroutine. Labels of different places have different names, so a branch or a call leads
to the line of the place that it refers to.
-/

namespace ContractBackend

variable {id : SubroutineId} {name : String} {label : Label}

namespace Link

/-! ## Names that end in a number -/

/-- A name that does not end in a digit, so that a number behind it can be read off. -/
def IsStem (stem : String) : Prop :=
  ∃ front last, stem.toList = front ++ [last] ∧ last.isDigit = false

theorem isStem_underscore (name : String) : IsStem (name ++ "_") :=
  ⟨name.toList, '_', by simp, by decide⟩

theorem isStem_l (name : String) : IsStem (name ++ "l") :=
  ⟨name.toList, 'l', by simp, by decide⟩

theorem toList_toString (number : Nat) : (toString number).toList = Nat.toDigits 10 number := by
  rw [Nat.toString_eq_repr, Nat.toList_repr]

theorem dropWhile_numbered {stem : String} (isStem : IsStem stem) (number : Nat) :
    (stem ++ toString number).toList.reverse.dropWhile Char.isDigit = stem.toList.reverse := by
  obtain ⟨front, last, split, noDigit⟩ := isStem
  have digits : ∀ c ∈ (Nat.toDigits 10 number).reverse, c.isDigit = true := fun c member =>
    Nat.isDigit_of_mem_toDigits (by decide) (by decide) (List.mem_reverse.mp member)
  rw [String.toList_append, toList_toString, List.reverse_append,
    List.dropWhile_append_of_pos digits, split, List.reverse_append]
  simp [noDigit]

/-- The stem and the number can be read off a numbered name. -/
theorem numbered_inj {left right : String} (leftStem : IsStem left) (rightStem : IsStem right)
    {number other : Nat} (same : left ++ toString number = right ++ toString other) :
    left = right ∧ number = other := by
  have stems : left = right := by
    have reversed := congrArg (fun name : String => name.toList.reverse.dropWhile Char.isDigit) same
    simp only [dropWhile_numbered leftStem, dropWhile_numbered rightStem] at reversed
    exact String.toList_inj.mp (List.reverse_inj.mp reversed)
  subst stems
  have digits := congrArg String.toList same
  rw [String.toList_append, String.toList_append] at digits
  have read := congrArg (fun chars => Nat.ofDigitChars 10 chars 0) (List.append_cancel_left digits)
  simpa [toList_toString] using read

theorem IsStem.ne_numbered (isStem : IsStem name) (stem : String) (number : Nat) :
    name ≠ stem ++ toString number := by
  rintro rfl
  obtain ⟨front, last, split, noDigit⟩ := isStem
  rw [String.toList_append, toList_toString] at split
  have final := congrArg List.getLast? split
  rw [List.getLast?_append, List.getLast?_concat,
    List.getLast?_eq_some_getLast Nat.toDigits_ne_nil, Option.some_or, Option.some.injEq] at final
  have isDigit : last.isDigit = true :=
    Nat.isDigit_of_mem_toDigits (by decide) (by decide) (final ▸ List.getLast_mem _)
  simp [noDigit] at isDigit

/-! ## Labels of subroutines -/

/-- The labels of different subroutines end in different numbers. -/
structure Distinct (labels : List (SubroutineId × String)) : Prop where
  numbered : ∀ {id : SubroutineId} {label : String}, labels.lookup id = some label →
    ∃ name number, label = name ++ "_" ++ toString (number : Nat)
  inj : ∀ {id other : SubroutineId} {label : String}, labels.lookup id = some label →
    labels.lookup other = some label → id = other

variable {program : Program} {ids : List SubroutineId} {named : List (SubroutineId × String)}

theorem of_labels (isOk : labels program ids = .ok named) :
    Distinct named ∧ ∀ id, (named.lookup id).isSome ↔ id ∈ ids := by
  simp only [labels, Fallible.bind_eq_ok, Fallible.mapM_eq_ok, Fallible.pure_eq_ok] at isOk
  obtain ⟨entries, related, rfl⟩ := isOk
  have keys : entries.map Prod.fst = ids := by
    have same : ids.zipIdx.map Prod.fst = entries.map Prod.fst := by
      rw [← List.forall₂_eq_eq_eq, List.forall₂_map_left_iff, List.forall₂_map_right_iff]
      refine related.imp ?_
      rintro entry _ ⟨_, _, rfl⟩
      rfl
    rw [← same, List.zipIdx_map_fst]
  -- What is found for a subroutine is made from its place among the subroutines.
  have made : ∀ {id label}, (Keyed.ofList entries).lookup id = some label →
      ∃ (name : String) (number : Nat), ids[number]? = some id ∧
        label = name ++ "_" ++ toString number := by
    intro id label found
    obtain ⟨⟨_, number⟩, member, subroutine, _, made⟩ :=
      Fallible.exists_related_of_mem related (Keyed.mem_of_lookup_ofList found)
    cases made
    exact ⟨_, number, List.mem_zipIdx_iff_getElem?.mp member, rfl⟩
  refine ⟨⟨fun found => ?_, fun {id other label} found otherFound => ?_⟩, fun id => ⟨?_, ?_⟩⟩
  · obtain ⟨name, number, _, equal⟩ := made found
    exact ⟨name, number, equal⟩
  · obtain ⟨name, number, atNumber, rfl⟩ := made found
    obtain ⟨otherName, otherNumber, atOther, equal⟩ := made otherFound
    obtain ⟨_, rfl⟩ := numbered_inj (isStem_underscore _) (isStem_underscore _) equal
    rw [atNumber] at atOther
    exact Option.some.inj atOther
  · intro isSome
    obtain ⟨label, found⟩ := Option.isSome_iff_exists.mp isSome
    obtain ⟨_, number, atNumber, _⟩ := made found
    exact List.mem_of_getElem? atNumber
  · intro member
    rw [← keys] at member
    exact Option.isSome_iff_ne_none.mpr (Keyed.lookup_ofList_ne_none member)

/-! ## Where lines come from -/

/-- An element of the code of a routine; the instructions that save slots are inserted. -/
structure Element where
  item : Item
  inserted : Bool
  deriving DecidableEq

/-- What a line comes from: an element of the code of a routine, or nothing if the line is the
label of the routine. -/
structure Origin where
  routine : Routine
  item : Option Item
  inserted : Bool
  deriving DecidableEq

/-- The lines of a routine before its code. -/
def heading : Routine → List Origin
  | .main => []
  | .subroutine id => [⟨.subroutine id, none, false⟩]

/-- Where the lines of a routine come from. -/
def originsOf (entry : Routine × List Element) : List Origin :=
  heading entry.1 ++ entry.2.map fun element => ⟨entry.1, some element.item, element.inserted⟩

/-- Where the lines of a listing come from. -/
def origins (table : RoutineTable (List Element)) : List Origin := table.flatMap originsOf

/-- The code of the routines. -/
def items (table : RoutineTable (List Element)) : RoutineTable FlatCode :=
  table.map fun entry => (entry.1, entry.2.map Element.item)

/-- The first line of a routine. -/
def firstLine (table : RoutineTable (List Element)) (routine : Routine) : Nat :=
  (origins (table.takeWhile fun entry => entry.1 ≠ routine)).length

/-- The line of an element of the code of a routine. -/
def lineOf (table : RoutineTable (List Element)) (routine : Routine) (index : Nat) : Nat :=
  firstLine table routine + (heading routine).length + index

section Origins

variable {table : RoutineTable (List Element)} {routine : Routine} {code : List Element}
  {element : Element} {index line : Nat}

theorem firstLine_cons_self : firstLine ((routine, code) :: table) routine = 0 := by
  simp [firstLine, origins]

theorem firstLine_cons_of_ne {other : Routine} (different : other ≠ routine) :
    firstLine ((other, code) :: table) routine =
      (originsOf (other, code)).length + firstLine table routine := by
  simp [firstLine, origins, different]

/-- The main routine comes first. -/
theorem firstLine_main (ordered : table.Ordered) (member : .main ∈ table.map Prod.fst) :
    firstLine table .main = 0 := by
  obtain ⟨code, rest, rfl, _⟩ := ordered.exists_main member
  exact firstLine_cons_self

/-- A routine in a table is the first one or a later one. -/
theorem lookup_cons_cases {head : Routine × List Element}
    (found : List.lookup routine (head :: table) = some code) :
    head = (routine, code) ∨ (head.1 ≠ routine ∧ table.lookup routine = some code) := by
  obtain ⟨first, value⟩ := head
  rw [List.lookup_cons] at found
  by_cases same : routine = first
  · subst same
    left
    simpa using found
  · rw [beq_eq_false_iff_ne.mpr same] at found
    exact .inr ⟨Ne.symm same, found⟩

theorem origins_firstLine_add (found : table.lookup routine = some code) {offset : Nat}
    (inside : offset < (originsOf (routine, code)).length) :
    (origins table)[firstLine table routine + offset]? = (originsOf (routine, code))[offset]? := by
  induction table with
  | nil => cases found
  | cons head table ih =>
    rw [origins, List.flatMap_cons]
    rcases lookup_cons_cases found with rfl | ⟨different, later⟩
    · rw [firstLine_cons_self, Nat.zero_add, List.getElem?_append_left inside]
    · obtain ⟨first, value⟩ := head
      rw [firstLine_cons_of_ne different, Nat.add_assoc,
        List.getElem?_append_right (Nat.le_add_right _ _), Nat.add_sub_cancel_left]
      exact ih later

theorem origins_lineOf (found : table.lookup routine = some code)
    (here : code[index]? = some element) :
    (origins table)[lineOf table routine index]? =
      some ⟨routine, some element.item, element.inserted⟩ := by
  have bound := (List.getElem?_eq_some_iff.mp here).1
  rw [lineOf, Nat.add_assoc, origins_firstLine_add found (by simp [originsOf, bound]), originsOf,
    List.getElem?_append_right (Nat.le_add_right _ _), Nat.add_sub_cancel_left, List.getElem?_map,
    here]
  rfl

theorem origins_firstLine (found : table.lookup (.subroutine id) = some code) :
    (origins table)[firstLine table (.subroutine id)]? = some ⟨.subroutine id, none, false⟩ := by
  have first := origins_firstLine_add found (by simp [originsOf, heading] : 0 < _)
  rw [Nat.add_zero] at first
  rw [first]
  rfl

/-- Every line comes from somewhere. -/
theorem exists_of_origins (nodup : (table.map Prod.fst).Nodup) {origin : Origin}
    (here : (origins table)[line]? = some origin) :
    ∃ code, table.lookup origin.routine = some code ∧
      ((∃ index element, code[index]? = some element ∧ line = lineOf table origin.routine index ∧
          origin.item = some element.item) ∨
        (∃ id, origin.routine = .subroutine id ∧ line = firstLine table origin.routine ∧
          origin.item = none)) := by
  induction table generalizing line with
  | nil => simp [origins] at here
  | cons head table ih =>
    obtain ⟨routine, code⟩ := head
    rw [List.map_cons, List.nodup_cons] at nodup
    rw [origins, List.flatMap_cons] at here
    by_cases early : line < (originsOf (routine, code)).length
    · rw [List.getElem?_append_left early, originsOf] at here
      by_cases inHeading : line < (heading routine).length
      · rw [List.getElem?_append_left inHeading] at here
        cases routine with
        | main => simp [heading] at inHeading
        | subroutine id =>
          obtain rfl : line = 0 := by simpa [heading] using inHeading
          cases here
          exact ⟨code, by simp, .inr ⟨id, rfl, firstLine_cons_self.symm, rfl⟩⟩
      · rw [List.getElem?_append_right (Nat.le_of_not_lt inHeading), List.getElem?_map,
          Option.map_eq_some_iff] at here
        obtain ⟨element, atIndex, rfl⟩ := here
        refine ⟨code, by simp, .inl ⟨_, element, atIndex, ?_, rfl⟩⟩
        simp only [lineOf, firstLine_cons_self]
        omega
    · rw [List.getElem?_append_right (Nat.le_of_not_lt early)] at here
      obtain ⟨found, isFound, place⟩ := ih nodup.2 here
      have different : routine ≠ origin.routine := by
        rintro rfl
        exact nodup.1 (List.mem_map.mpr ⟨_, mem_of_lookup isFound, rfl⟩)
      refine ⟨found, ?_, ?_⟩
      · rw [List.lookup_cons, beq_eq_false_iff_ne.mpr different.symm]
        exact isFound
      · simp only [lineOf, firstLine_cons_of_ne different] at place ⊢
        rcases place with ⟨index, element, atIndex, equal, isItem⟩ | ⟨id, isSub, equal, isNone⟩
        · exact .inl ⟨index, element, atIndex, by omega, isItem⟩
        · exact .inr ⟨id, isSub, by omega, isNone⟩

end Origins

/-! ## Linking -/

/-- What precedes the labels of a routine. -/
def Resolver.scope (resolver : Resolver) : Routine → String
  | .main => "main_"
  | .subroutine id => (resolver.labels.lookup id).getD "" ++ "_"

/-- A line is what its origin becomes. -/
def Resolves (resolver : Resolver) (origin : Origin) (line : Line) : Prop :=
  match origin.item with
  | some item => resolver.item (resolver.scope origin.routine) item = .ok line
  | none => ∃ id label name, origin.routine = .subroutine id ∧
      resolver.labels.lookup id = some label ∧ line = .label label (some name)

/-- A listing of routines, each of which stands in it once. -/
structure Linked (resolver : Resolver) (table : RoutineTable (List Element))
    (lines : List Line) : Prop where
  resolved : List.Forall₂ (Resolves resolver) (origins table) lines
  distinct : Distinct resolver.labels
  nodup : (table.map Prod.fst).Nodup
  present : ∀ {id : SubroutineId} {label : String}, resolver.labels.lookup id = some label →
    .subroutine id ∈ table.map Prod.fst

section Link

variable {resolver : Resolver} {table : RoutineTable (List Element)} {slots : SlotAssignment}
  {version : Version} {assembly : Assembly}

theorem resolves_code (routine : Routine) {code : List Element} {lines : List Line}
    (isOk : resolver.code (resolver.scope routine) (code.map Element.item) = .ok lines) :
    List.Forall₂ (Resolves resolver)
      (code.map fun element => ⟨routine, some element.item, element.inserted⟩) lines := by
  rw [Resolver.code, Fallible.mapM_eq_ok, List.forall₂_map_left_iff] at isOk
  rw [List.forall₂_map_left_iff]
  exact isOk

theorem map_fst_subroutines (routines : RoutineTable FlatCode) :
    (subroutines routines).map Prod.fst =
      (routines.map Prod.fst).filterMap Routine.subroutine? := by
  simp [subroutines, List.map_filterMap, List.filterMap_map, Function.comp_def]

theorem mem_subroutines {routines : RoutineTable FlatCode} :
    id ∈ (subroutines routines).map Prod.fst ↔ .subroutine id ∈ routines.map Prod.fst := by
  rw [map_fst_subroutines, List.mem_filterMap]
  constructor
  · rintro ⟨_ | other, member, isSub⟩ <;> cases isSub
    exact member
  · exact fun member => ⟨_, member, rfl⟩

theorem resolves_subroutines {lines : List (List Line)}
    (subs : ∀ entry ∈ table, entry.1 ≠ .main)
    (labelled : ∀ id, .subroutine id ∈ table.map Prod.fst → (resolver.labels.lookup id).isSome)
    (isOk : ((subroutines (items table)).mapM fun entry => do
      let name := (← program.subroutine entry.1).handle.name
      resolver.subroutine name ((resolver.labels.lookup entry.1).getD "") entry.2) = .ok lines) :
    List.Forall₂ (Resolves resolver) (origins table) lines.flatten := by
  induction table generalizing lines with
  | nil =>
    cases isOk
    exact .nil
  | cons head table ih =>
    obtain ⟨routine, code⟩ := head
    cases routine with
    | main => exact absurd rfl (subs _ List.mem_cons_self)
    | subroutine id =>
      obtain ⟨label, isLabel⟩ := Option.isSome_iff_exists.mp (labelled id (by simp))
      simp only [items, subroutines, List.map_cons, List.filterMap_cons, Routine.subroutine?,
        Option.map_some, List.mapM_cons, Fallible.bind_eq_ok, Fallible.pure_eq_ok,
        Resolver.subroutine, isLabel, Option.getD_some] at isOk
      obtain ⟨_, ⟨subroutine, _, own, isOwn, rfl⟩, others, isOthers, rfl⟩ := isOk
      rw [origins, List.flatMap_cons, List.flatten_cons]
      refine List.rel_append ?_ (ih (fun entry member => subs entry (by simp [member]))
        (fun id member => labelled id (by simp [member])) isOthers)
      have scope : resolver.scope (.subroutine id) = label ++ "_" := by
        simp [Resolver.scope, isLabel]
      refine .cons ⟨id, label, _, rfl, isLabel, rfl⟩ (resolves_code (.subroutine id) ?_)
      rw [scope]
      exact isOwn

/-- A listing that linking makes. -/
theorem exists_linked (ordered : table.Ordered) (main : .main ∈ table.map Prod.fst)
    (isOk : link program slots version (items table) = .ok assembly) :
    ∃ named, labels program ((subroutines (items table)).map Prod.fst) = .ok named ∧
      Linked ⟨slots, named⟩ table assembly.lines := by
  have keys : (items table).map Prod.fst = table.map Prod.fst := by
    rw [items, List.map_map]
    rfl
  obtain ⟨code, rest, rfl, subs⟩ := ordered.exists_main main
  have isMain : List.lookup .main (items ((.main, code) :: rest)) = some (code.map Element.item) := by
    simp [items]
  simp only [link, Fallible.bind_eq_ok, isMain, Fallible.pure_eq_ok] at isOk
  obtain ⟨named, isNamed, mainLines, mainOk, subLines, subsOk, rfl⟩ := isOk
  obtain ⟨distinct, labelled⟩ := of_labels isNamed
  simp only [mem_subroutines, keys] at labelled
  have subsResolved : List.Forall₂ (Resolves ⟨slots, named⟩) (origins rest) subLines.flatten :=
    resolves_subroutines subs (fun id member => (labelled id).mpr (List.mem_cons_of_mem _ member))
      subsOk
  refine ⟨named, isNamed, ?_, distinct, ordered.nodup,
    fun {id label} found => (labelled id).mp (by simp [found])⟩
  rw [origins, List.flatMap_cons]
  exact List.rel_append (resolves_code .main mainOk) subsResolved

end Link

end Link

namespace Machine.Code

variable {lines : List Line}

theorem mem_labels {entry : String × Nat} : entry ∈ (ofLines lines).labels ↔
    ∃ comment, lines[entry.2]? = some (.label entry.1 comment) := by
  obtain ⟨name, line⟩ := entry
  simp only [ofLines, List.mem_reverse, List.mem_filterMap, Option.map_eq_some_iff]
  constructor
  · rintro ⟨⟨content, index⟩, member, _, isLabel, ⟨⟩⟩
    rw [List.mem_zipIdx_iff_getElem?] at member
    cases content with
    | label => cases isLabel; exact ⟨_, member⟩
    | instr => cases isLabel
  · rintro ⟨comment, found⟩
    exact ⟨(_, line), List.mem_zipIdx_iff_getElem?.mpr found, name, rfl, rfl⟩

theorem labels_descending :
    (ofLines lines).labels.Pairwise fun left right => right.2 < left.2 := by
  have ascending : lines.zipIdx.Pairwise fun left right => left.2 < right.2 := by
    rw [← List.pairwise_map (f := Prod.snd) (R := (· < ·)), List.zipIdx_map_snd]
    exact List.pairwise_lt_range'
  rw [ofLines, List.pairwise_reverse]
  refine ascending.filterMap _ ?_
  rintro ⟨_, index⟩ ⟨_, later⟩ less _ isLeft _ isRight
  obtain ⟨_, _, rfl⟩ := Option.map_eq_some_iff.mp isLeft
  obtain ⟨_, _, rfl⟩ := Option.map_eq_some_iff.mp isRight
  exact less

/-- A label is found in the last line it stands on. -/
theorem lookup_labels {line : Nat} {comment : Option String}
    (here : lines[line]? = some (.label name comment))
    (last : ∀ other comment, lines[other]? = some (.label name comment) → other ≤ line) :
    (ofLines lines).labels.lookup name = some line := by
  have member : (name, line) ∈ (ofLines lines).labels := mem_labels.mpr ⟨comment, here⟩
  have ordered : (ofLines lines).labels.Pairwise _ := labels_descending
  cases found : (ofLines lines).labels.lookup name with
  | none => simpa using List.lookup_eq_none_iff.mp found _ member
  | some other =>
    obtain ⟨_, there⟩ := mem_labels.mp (mem_of_lookup found)
    obtain ⟨before, after, split, absent⟩ := List.lookup_eq_some_iff.mp found
    rw [split] at member ordered
    rcases List.mem_append.mp member with early | late
    · simpa using absent _ early
    · rcases List.mem_cons.mp late with same | later
      · cases same
        rfl
      · have less := (List.pairwise_cons.mp (List.pairwise_append.mp ordered).2.1).1 _ later
        have bound := last other _ there
        simp only at less
        omega

end Machine.Code

namespace Link

section Targets

theorem text_eq (label : Label) (scope : String) :
    { label with scope }.text = scope ++ "l" ++ toString label.index := rfl

variable {resolver : Resolver} {table : RoutineTable (List Element)} {lines : List Line}
  {routine : Routine} {code : List Element} {index line : Nat}
  (linked : Linked resolver table lines)
include linked

theorem Linked.exists_line {origin : Origin} (here : (origins table)[line]? = some origin) :
    ∃ content, lines[line]? = some content ∧ Resolves resolver origin content :=
  Fallible.exists_related linked.resolved here

theorem Linked.exists_origin {content : Line} (here : lines[line]? = some content) :
    ∃ origin, (origins table)[line]? = some origin ∧ Resolves resolver origin content :=
  Fallible.exists_related linked.resolved.flip here

/-- The label of a subroutine stands on its first line. -/
theorem Linked.exists_label (found : table.lookup (.subroutine id) = some code) :
    ∃ label name, resolver.labels.lookup id = some label ∧
      lines[firstLine table (.subroutine id)]? = some (.label label (some name)) := by
  obtain ⟨content, here, other, label, name, same, isLabel, rfl⟩ :=
    linked.exists_line (origins_firstLine found)
  cases same
  exact ⟨label, name, isLabel, here⟩

/-- A label of a routine stands on the line of its element. -/
theorem Linked.lineOf_label (found : table.lookup routine = some code)
    (here : (code.map Element.item)[index]? = some (.label label)) :
    lines[lineOf table routine index]? =
      some (.label { label with scope := resolver.scope routine }.text none) := by
  rw [List.getElem?_map, Option.map_eq_some_iff] at here
  obtain ⟨element, atIndex, isLabel⟩ := here
  obtain ⟨content, there, resolves⟩ := linked.exists_line (origins_lineOf found atIndex)
  simp only [Resolves, isLabel, Resolver.item, Except.ok.injEq] at resolves
  rw [there, resolves]

/-- Different routines have different scopes. -/
theorem Linked.scope_inj {other : Routine}
    {otherCode : List Element} (found : table.lookup routine = some code)
    (otherFound : table.lookup other = some otherCode)
    (same : resolver.scope routine = resolver.scope other) : routine = other := by
  have main : ∀ id code, table.lookup (.subroutine id) = some code →
      resolver.scope .main ≠ resolver.scope (.subroutine id) := by
    intro id code found same
    obtain ⟨label, _, isLabel, _⟩ := linked.exists_label found
    obtain ⟨name, number, rfl⟩ := linked.distinct.numbered isLabel
    have main : "main_" = "main" ++ "_" := by simp
    simp only [Resolver.scope, isLabel, Option.getD_some, main] at same
    exact IsStem.ne_numbered ⟨['m', 'a', 'i'], 'n', by simp, by decide⟩ _ _
      ((String.append_left_inj "_").mp same)
  cases routine with
  | main =>
    cases other with
    | main => rfl
    | subroutine id => exact absurd same (main id _ otherFound)
  | subroutine id =>
    cases other with
    | main => exact absurd same.symm (main id _ found)
    | subroutine otherId =>
      obtain ⟨label, _, isLabel, _⟩ := linked.exists_label found
      obtain ⟨otherLabel, _, isOther, _⟩ := linked.exists_label otherFound
      simp only [Resolver.scope, isLabel, isOther, Option.getD_some] at same
      have labels := (String.append_left_inj "_").mp same
      rw [linked.distinct.inj isLabel (labels ▸ isOther)]

/-- A line with a label is the first line of a subroutine, or the label of a place in a
routine. -/
inductive LabelLine (resolver : Resolver) (table : RoutineTable (List Element)) (name : String) :
    Nat → Prop where
  | subroutine {id : SubroutineId} : resolver.labels.lookup id = some name →
      LabelLine resolver table name (firstLine table (.subroutine id))
  | place {routine : Routine} {code : List Element} {index : Nat} {label : Label} :
      table.lookup routine = some code → (code.map Element.item)[index]? = some (.label label) →
      name = { label with scope := resolver.scope routine }.text →
      LabelLine resolver table name (lineOf table routine index)

theorem Linked.labelLine {comment : Option String}
    (here : lines[line]? = some (.label name comment)) :
    LabelLine resolver table name line := by
  obtain ⟨origin, isOrigin, resolves⟩ := linked.exists_origin here
  obtain ⟨code, found, ⟨index, element, atIndex, rfl, isItem⟩ | ⟨id, isSub, rfl, isNone⟩⟩ :=
    exists_of_origins linked.nodup isOrigin
  · rw [Resolves, isItem] at resolves
    cases item : element.item with
    | instr instr =>
      rw [item] at resolves
      simp only [Resolver.item, Fallible.bind_eq_ok, Fallible.pure_eq_ok] at resolves
      obtain ⟨_, _, impossible⟩ := resolves
      cases impossible
    | label label =>
      rw [item] at resolves
      cases resolves
      exact .place found (by rw [List.getElem?_map, atIndex, Option.map_some, item]) rfl
  · rw [Resolves, isNone] at resolves
    obtain ⟨other, label, _, isOther, isLabel, equal⟩ := resolves
    cases equal
    rw [isOther]
    exact .subroutine isLabel

/-- The label of a subroutine stands on the first line of the subroutine only. -/
theorem LabelLine.eq_firstLine (isLabel : resolver.labels.lookup id = some name)
    (there : LabelLine resolver table name line) : line = firstLine table (.subroutine id) := by
  cases there with
  | subroutine same => rw [linked.distinct.inj same isLabel]
  | place _ _ same =>
    obtain ⟨stem, number, rfl⟩ := linked.distinct.numbered isLabel
    rw [text_eq] at same
    have stems := (numbered_inj (isStem_underscore _) (isStem_l _) same).1
    have last := congrArg (fun name : String => name.toList.getLast?) stems
    simp at last

/-- The name of a label stands on lines of labels with the same number in the same routine only. -/
theorem LabelLine.exists_twin (found : table.lookup routine = some code)
    (there : LabelLine resolver table { label with scope := resolver.scope routine }.text line) :
    ∃ position twin, (code.map Element.item)[position]? = some (.label twin) ∧
      twin.index = label.index ∧ line = lineOf table routine position := by
  generalize isName : ({ label with scope := resolver.scope routine } : Label).text = name at there
  rw [text_eq] at isName
  cases there with
  | subroutine same =>
    obtain ⟨stem, number, rfl⟩ := linked.distinct.numbered same
    have stems := (numbered_inj (isStem_l _) (isStem_underscore _) isName).1
    have last := congrArg (fun name : String => name.toList.getLast?) stems
    simp at last
  | place otherFound atPosition same =>
    rw [same, text_eq] at isName
    obtain ⟨scopes, isIndex⟩ := numbered_inj (isStem_l _) (isStem_l _) isName
    cases linked.scope_inj found otherFound ((String.append_left_inj "l").mp scopes)
    rw [found] at otherFound
    cases otherFound
    exact ⟨_, _, atPosition, isIndex.symm, rfl⟩

/-- A call leads to the first line of the subroutine. -/
theorem Linked.lookup_subroutine {label : String}
    (found : table.lookup (.subroutine id) = some code)
    (isLabel : resolver.labels.lookup id = some label) :
    (Machine.Code.ofLines lines).labels.lookup label =
      some (firstLine table (.subroutine id)) := by
  obtain ⟨other, name, isOther, here⟩ := linked.exists_label found
  rw [isLabel] at isOther
  cases isOther
  refine Machine.Code.lookup_labels here fun other comment there => ?_
  exact Nat.le_of_eq ((linked.labelLine there).eq_firstLine linked isLabel)

/-- A branch leads to the line of its label. -/
theorem Linked.lookup_label (found : table.lookup routine = some code)
    (unscoped : ∀ label, .label label ∈ code.map Element.item → label.scope = "")
    (isPosition : FlatCode.labelPosition? (code.map Element.item) label = some index) :
    (Machine.Code.ofLines lines).labels.lookup
        { label with scope := resolver.scope routine }.text =
      some (lineOf table routine index) := by
  have there := FlatCode.getElem?_of_labelPosition? isPosition
  refine Machine.Code.lookup_labels (linked.lineOf_label found there) fun other comment here => ?_
  obtain ⟨position, twin, atPosition, same, rfl⟩ :=
    (linked.labelLine here).exists_twin linked found
  have labels : twin = label := by
    have one := unscoped _ (List.mem_of_getElem? there)
    have two := unscoped _ (List.mem_of_getElem? atPosition)
    obtain ⟨_, _⟩ := label
    obtain ⟨_, _⟩ := twin
    simp_all
  exact Nat.add_le_add_left (FlatCode.le_of_labelPosition? isPosition (labels ▸ atPosition)) _

/-- An instruction of a routine stands on the line of its element. -/
theorem Linked.lineOf_instr (found : table.lookup routine = some code) {instr : Instr}
    (here : (code.map Element.item)[index]? = some (.instr instr)) :
    ∃ arguments, instr.operands.mapM (resolver.operand (resolver.scope routine)) = .ok arguments ∧
      lines[lineOf table routine index]? = some (.instr instr.op arguments) := by
  rw [List.getElem?_map, Option.map_eq_some_iff] at here
  obtain ⟨element, atIndex, isInstr⟩ := here
  obtain ⟨content, there, resolves⟩ := linked.exists_line (origins_lineOf found atIndex)
  simp only [Resolves, isInstr, Resolver.item, Fallible.bind_eq_ok, Fallible.pure_eq_ok] at resolves
  obtain ⟨arguments, isOk, rfl⟩ := resolves
  exact ⟨arguments, isOk, there⟩

end Targets

end Link

end ContractBackend
