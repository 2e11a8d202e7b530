import ContractBackend.Proofs.Depths
import ContractBackend.Proofs.Literals

/-!
# The lines of the text

Literals are escaped and labels are spelled with few characters, so neither of them breaks a line of
the text. The names of fields and the names of subroutines, which stand in comments, are copied as
they are: the text has one line for each line of the listing exactly if no such name holds a line
feed, and one more for each line feed in them.
-/

namespace ContractBackend

/-! ## Line feeds -/

namespace Text

/-- How many line feeds a text holds. -/
def lineFeeds (text : String) : Nat := text.toList.count '\n'

def lines (text : String) : List String := (text.toList.splitOn '\n').map String.ofList

@[simp] theorem lineFeeds_append (left right : String) :
    lineFeeds (left ++ right) = lineFeeds left + lineFeeds right := by
  rw [lineFeeds, String.toList_append, List.count_append]
  rfl

theorem lineFeeds_eq_zero {text : String} : lineFeeds text = 0 ↔ '\n' ∉ text.toList :=
  List.count_eq_zero

theorem lineFeeds_intercalate (separator head : String) (rest : List String) :
    lineFeeds (separator.intercalate (head :: rest)) =
      lineFeeds head + (rest.map lineFeeds).sum + rest.length * lineFeeds separator := by
  induction rest generalizing head with
  | nil => simp
  | cons next rest ih =>
    rw [String.intercalate_cons_cons, lineFeeds_append, lineFeeds_append, ih]
    simp only [List.map_cons, List.sum_cons, List.length_cons, Nat.add_one_mul]
    omega

theorem lineFeeds_toString (number : Nat) : lineFeeds (toString number) = 0 := by
  rw [lineFeeds_eq_zero, Link.toList_toString]
  intro member
  have isDigit : '\n'.isDigit = true := Nat.isDigit_of_mem_toDigits (by decide) (by decide) member
  cases isDigit

/-- A text has one line more than line feeds. -/
theorem length_lines (text : String) : (lines text).length = lineFeeds text + 1 := by
  rw [lines, List.length_map, lineFeeds]
  induction text.toList with
  | nil => rfl
  | cons head tail ih =>
    rw [List.splitOn_cons_eq_if_modifyHead, List.count_cons]
    split <;> simp [ih]

theorem lines_intercalate {parts : List String} (whole : ∀ part ∈ parts, lineFeeds part = 0)
    (some : parts ≠ []) : lines ("\n".intercalate parts) = parts := by
  have free : ∀ part ∈ parts.map String.toList, '\n' ∉ part := by
    simpa [lineFeeds_eq_zero] using whole
  have split : (List.intercalate ['\n'] (parts.map String.toList)).splitOn '\n' =
      parts.map String.toList :=
    List.splitOn_intercalate '\n' free (by simpa using some)
  rw [lines, String.toList_intercalate]
  change ((List.intercalate ['\n'] (parts.map String.toList)).splitOn '\n').map String.ofList = parts
  rw [split, List.map_map]
  simp [Function.comp_def]

/-! ### Literals -/

theorem lineFeed_not_mem {chars : List Char} (printable : ∀ c ∈ chars, IsPrintable c) :
    '\n' ∉ chars := by
  intro member
  exact absurd (printable _ member) (by decide)

theorem lineFeeds_hex (bytes : List UInt8) : lineFeeds (Hex.encode bytes) = 0 := by
  rw [lineFeeds_eq_zero, Hex.encode, String.toList_ofList]
  apply lineFeed_not_mem
  intro c member
  obtain ⟨byte, _, isDigit⟩ := List.mem_flatMap.mp member
  obtain ⟨high, low, equal, isHigh, isLow, _⟩ := Hex.ofByte_cases byte
  rw [equal, List.mem_pair] at isDigit
  rcases isDigit with rfl | rfl
  · exact isHigh.1
  · exact isLow.1

theorem lineFeeds_quote (text : String) : lineFeeds (Quoted.quote text) = 0 :=
  lineFeeds_eq_zero.mpr (lineFeed_not_mem (Quoted.isPrintable_quote text))

end Text

/-! ## Listings -/

open Text

namespace Argument

/-- The name that the text of an operand copies. -/
def copied? : Argument → Option String
  | .name value => some value
  | _ => none

/-- The label that an operand refers to. -/
def label? : Argument → Option String
  | .label value => some value
  | _ => none

theorem lineFeeds_render {argument : Argument}
    (labelled : ∀ label ∈ argument.label?, lineFeeds label = 0) :
    lineFeeds argument.render = (argument.copied?.map lineFeeds).getD 0 := by
  cases argument with
  | uint value => exact lineFeeds_toString value.toNat
  | bytes value =>
    rw [render, lineFeeds_append, lineFeeds_hex]
    rfl
  | text value => exact lineFeeds_quote value
  | name value => rfl
  | label value => exact labelled value rfl

/-- Only the names that are copied break the text of operands. -/
theorem sum_lineFeeds_render {arguments : List Argument}
    (labelled : ∀ label ∈ arguments.filterMap label?, lineFeeds label = 0) :
    ((arguments.map render).map lineFeeds).sum =
      ((arguments.filterMap copied?).map lineFeeds).sum := by
  induction arguments with
  | nil => rfl
  | cons head rest ih =>
    simp only [List.mem_filterMap, List.mem_cons] at labelled ih
    have first : lineFeeds head.render = (head.copied?.map lineFeeds).getD 0 :=
      lineFeeds_render fun label isLabel => labelled label ⟨head, .inl rfl, isLabel⟩
    have others := ih fun label ⟨argument, member, isLabel⟩ =>
      labelled label ⟨argument, .inr member, isLabel⟩
    rw [List.map_cons, List.map_cons, List.sum_cons, first, others, List.filterMap_cons]
    cases head.copied? <;> simp

end Argument

namespace Line

/-- The names that the text of a line copies: a comment, or named operands. -/
def copied : Line → List String
  | .label _ comment => comment.toList
  | .instr _ arguments => arguments.filterMap Argument.copied?

/-- The labels that a line mentions. -/
def labels : Line → List String
  | .label name _ => [name]
  | .instr _ arguments => arguments.filterMap Argument.label?

/-- Only the names that are copied break a line. -/
theorem lineFeeds_render {line : Line} (labelled : ∀ label ∈ line.labels, lineFeeds label = 0) :
    lineFeeds line.render = (line.copied.map lineFeeds).sum := by
  cases line with
  | label name comment =>
    have plain : lineFeeds name = 0 := labelled name (by simp [labels])
    cases comment with
    | none =>
      change lineFeeds (name ++ ":") = 0
      rw [lineFeeds_append, plain]
      rfl
    | some comment =>
      change lineFeeds (name ++ ": // " ++ comment) = lineFeeds comment + 0
      rw [lineFeeds_append, lineFeeds_append, plain, Nat.add_zero]
      exact Nat.zero_add _
  | instr op arguments =>
    have mnemonic : lineFeeds op.mnemonic = 0 := by cases op <;> rfl
    have blank : lineFeeds " " = 0 := rfl
    rw [render, lineFeeds_intercalate, mnemonic, blank, Argument.sum_lineFeeds_render labelled,
      Nat.zero_add, Nat.mul_zero, Nat.add_zero, copied]

end Line

namespace Assembly

/-- The names that the text of a listing copies. -/
def copied (assembly : Assembly) : List String := assembly.lines.flatMap Line.copied

/-- The first line of the text. -/
def pragma (assembly : Assembly) : String := s!"#pragma version {assembly.version.toNat}"

theorem lineFeeds_pragma (assembly : Assembly) : lineFeeds assembly.pragma = 0 := by
  change lineFeeds ("#pragma version " ++ toString assembly.version.toNat) = 0
  rw [lineFeeds_append, lineFeeds_toString]
  rfl

variable {assembly : Assembly}

theorem lineFeeds_render
    (labelled : ∀ line ∈ assembly.lines, ∀ label ∈ line.labels, lineFeeds label = 0) :
    lineFeeds assembly.render =
      assembly.lines.length + (assembly.copied.map lineFeeds).sum := by
  have each : (assembly.lines.map Line.render).map lineFeeds =
      assembly.lines.map fun line => (line.copied.map lineFeeds).sum := by
    rw [List.map_map]
    exact List.map_congr_left fun line member => Line.lineFeeds_render (labelled line member)
  have total : (assembly.copied.map lineFeeds).sum =
      (assembly.lines.map fun line => (line.copied.map lineFeeds).sum).sum := by
    rw [copied, List.map_flatMap, List.flatMap, List.sum_flatten, List.map_map]
    rfl
  change lineFeeds ("\n".intercalate (assembly.pragma :: assembly.lines.map Line.render)) = _
  have separator : lineFeeds "\n" = 1 := rfl
  rw [lineFeeds_intercalate, lineFeeds_pragma, each, ← total, List.length_map, separator]
  omega

/-- The text has the lines of the listing exactly if no name that it copies holds a line feed. -/
theorem lines_render_iff
    (labelled : ∀ line ∈ assembly.lines, ∀ label ∈ line.labels, lineFeeds label = 0) :
    Text.lines assembly.render = assembly.pragma :: assembly.lines.map Line.render ↔
      ∀ name ∈ assembly.copied, lineFeeds name = 0 := by
  constructor
  · intro same
    have count := congrArg List.length same
    rw [length_lines, lineFeeds_render labelled, List.length_cons, List.length_map] at count
    have none : (assembly.copied.map lineFeeds).sum = 0 := by omega
    intro name member
    exact List.sum_eq_zero_iff_forall_eq_nat.mp none _ (List.mem_map_of_mem member)
  · intro free
    refine lines_intercalate (List.forall_mem_cons.mpr ⟨assembly.lineFeeds_pragma, ?_⟩) nofun
    simp only [List.forall_mem_map]
    intro line member
    rw [Line.lineFeeds_render (labelled line member), List.sum_eq_zero_iff_forall_eq_nat]
    simp only [List.forall_mem_map]
    exact fun name isCopied => free name (List.mem_flatMap.mpr ⟨line, member, isCopied⟩)

end Assembly

/-! ## Labels -/

namespace Link

/-- A label is spelled with the characters that may stand in one. -/
def IsSpelled (label : String) : Prop := ∀ c ∈ label.toList, isLabelChar c = true

instance (label : String) : Decidable (IsSpelled label) :=
  List.decidableBAll (fun c => isLabelChar c = true) label.toList

theorem IsSpelled.append {left right : String} (spelled : IsSpelled left)
    (spelledRight : IsSpelled right) : IsSpelled (left ++ right) := by
  intro c member
  rw [String.toList_append, List.mem_append] at member
  exact member.elim (spelled c) (spelledRight c)

theorem isSpelled_toString (number : Nat) : IsSpelled (toString number) := by
  intro c member
  rw [toList_toString] at member
  have isDigit : c.isDigit = true := Nat.isDigit_of_mem_toDigits (by decide) (by decide) member
  simp [isLabelChar, Char.isAlphanum, isDigit]

theorem isSpelled_sanitize (name : String) : IsSpelled (sanitize name) := by
  intro c member
  rw [sanitize] at member
  split at member
  next =>
    have spelled : IsSpelled "sub" := by decide
    exact spelled c member
  next =>
    rw [String.toList_map, List.mem_map] at member
    obtain ⟨own, _, rfl⟩ := member
    split
    next allowed => exact allowed
    next => rfl

theorem IsSpelled.lineFeeds {label : String} (spelled : IsSpelled label) :
    Text.lineFeeds label = 0 := by
  rw [lineFeeds_eq_zero]
  intro member
  have allowed := spelled '\n' member
  revert allowed
  decide

variable {program : Program} {ids : List SubroutineId} {named : List (SubroutineId × String)}

theorem isSpelled_of_labels (isOk : labels program ids = .ok named) {id : SubroutineId}
    {label : String} (found : named.lookup id = some label) : IsSpelled label := by
  simp only [labels, Fallible.bind_eq_ok, Fallible.pure_eq_ok] at isOk
  obtain ⟨entries, isEntries, rfl⟩ := isOk
  obtain ⟨entry, _, made⟩ := Fallible.exists_of_mem_mapM isEntries (Keyed.mem_of_lookup_ofList found)
  simp only [Fallible.bind_eq_ok, Fallible.pure_eq_ok] at made
  obtain ⟨subroutine, _, same⟩ := made
  cases same
  exact ((isSpelled_sanitize _).append (by decide)).append (isSpelled_toString _)

section Resolver

variable {resolver : Resolver} {scope : String}
  (within : IsSpelled scope)
  (labelled : ∀ id label, resolver.labels.lookup id = some label → IsSpelled label)

include within

theorem isSpelled_text (label : Label) : IsSpelled { label with scope }.text :=
  (within.append (by decide)).append (isSpelled_toString _)

include labelled

theorem Resolver.of_operand {operand : Operand} {argument : Argument}
    (resolved : resolver.operand scope operand = .ok argument) :
    (∀ label ∈ argument.label?, IsSpelled label) ∧
      ∀ name ∈ argument.copied?, operand = .name name := by
  cases operand with
  | uint | bytes | text =>
    cases resolved
    constructor <;> rintro _ ⟨⟩
  | name value =>
    cases resolved
    constructor
    · rintro _ ⟨⟩
    · rintro _ ⟨⟩
      rfl
  | slot slot | slotIndex slot =>
    rw [Resolver.operand] at resolved
    split at resolved <;> cases resolved
    constructor <;> rintro _ ⟨⟩
  | label label =>
    cases resolved
    constructor
    · rintro _ ⟨⟩
      exact isSpelled_text within label
    · rintro _ ⟨⟩
  | subroutine id =>
    rw [Resolver.operand] at resolved
    split at resolved
    next label found =>
      cases resolved
      constructor
      · rintro _ ⟨⟩
        exact labelled id label found
      · rintro _ ⟨⟩
    next => cases resolved

/-- What an element becomes has labels that are spelled so, and copies the names that stand in
it. -/
theorem Resolver.of_item {item : Item} {line : Line}
    (resolved : resolver.item scope item = .ok line) :
    (∀ label ∈ line.labels, IsSpelled label) ∧
      ∀ name ∈ line.copied, ∃ instr, item = .instr instr ∧ .name name ∈ instr.operands := by
  cases item with
  | label label =>
    cases resolved
    exact ⟨by simpa [Line.labels] using isSpelled_text within label, nofun⟩
  | instr instr =>
    simp only [Resolver.item, Fallible.bind_eq_ok, Fallible.pure_eq_ok] at resolved
    obtain ⟨arguments, areArguments, rfl⟩ := resolved
    simp only [Line.labels, Line.copied, List.mem_filterMap]
    constructor
    · rintro label ⟨argument, member, isLabel⟩
      obtain ⟨operand, _, made⟩ := Fallible.exists_of_mem_mapM areArguments member
      exact (Resolver.of_operand within labelled made).1 label isLabel
    · rintro name ⟨argument, member, isName⟩
      obtain ⟨operand, inOperands, made⟩ := Fallible.exists_of_mem_mapM areArguments member
      obtain rfl := (Resolver.of_operand within labelled made).2 name isName
      exact ⟨instr, rfl, inOperands⟩

end Resolver

/-- The labels of a listing are spelled so, and the names that its text copies are those of
subroutines and those that stand in the code. -/
theorem labels_and_names_of_link {slots : SlotAssignment} {version : Version}
    {routines : RoutineTable FlatCode} {assembly : Assembly}
    (isOk : link program slots version routines = .ok assembly) :
    (∀ line ∈ assembly.lines, ∀ label ∈ line.labels, IsSpelled label) ∧
      ∀ name ∈ assembly.copied,
        (∃ id subroutine, program.subroutine id = .ok subroutine ∧ subroutine.handle.name = name) ∨
        ∃ entry ∈ routines, ∃ instr, .instr instr ∈ entry.2 ∧ .name name ∈ instr.operands := by
  obtain ⟨named, isNamed, lines⟩ := of_mem_lines isOk
  have labelled : ∀ id label, named.lookup id = some label → IsSpelled label :=
    fun id label found => isSpelled_of_labels isNamed found
  have orEmpty (id : SubroutineId) : IsSpelled ((named.lookup id).getD "") := by
    cases found : named.lookup id with
    | none => exact nofun
    | some label => exact labelled id label found
  have within (routine : Routine) : IsSpelled (Resolver.scope ⟨slots, named⟩ routine) := by
    cases routine with
    | main => exact (by decide : IsSpelled "main_")
    | subroutine id => exact (orEmpty id).append (by decide)
  constructor
  · intro line member label isLabel
    rcases lines line member with ⟨id, subroutine, _, rfl⟩ | ⟨entry, _, item, _, resolved⟩
    · rw [List.mem_singleton.mp isLabel]
      exact orEmpty id
    · exact (Resolver.of_item (within _) labelled resolved).1 label isLabel
  · intro name member
    obtain ⟨line, isLine, isCopied⟩ := List.mem_flatMap.mp member
    rcases lines line isLine with ⟨id, subroutine, found, rfl⟩ | ⟨entry, isEntry, item, isItem, resolved⟩
    · rw [List.mem_singleton.mp isCopied]
      exact .inl ⟨id, subroutine, found, rfl⟩
    · obtain ⟨instr, rfl, isOperand⟩ :=
        (Resolver.of_item (within _) labelled resolved).2 name isCopied
      exact .inr ⟨entry, isEntry, instr, isItem, isOperand⟩

end Link

/-! ## Names in expressions -/

/-- Whether something holds of all names that stand in an instruction. -/
def Instr.namesHave (holds : String → Bool) (instr : Instr) : Bool :=
  instr.operands.all fun
    | .name value => holds value
    | _ => true

/-- Whether something holds of the names of all fields that an expression reads. -/
def Expr.namesHave (holds : String → Bool) : Expr → Bool :=
  every fun
    | .field _ name _ => holds name
    | .inline _ => false
    | _ => true

/-- Regular instructions in which all names have a property. -/
def Dialect.named (holds : String → Bool) (main : Bool) : Dialect where
  admits instr := (regular main).admits instr && instr.namesHave holds
  straight := by
    intro instr admitted
    rw [Bool.and_eq_true] at admitted
    exact (regular main).straight admitted.1

theorem Dialect.closed_named (holds : String → Bool) : Dialect.Closed (.named holds) where
  ret := rfl
  retsub := rfl
  stores _ := rfl
  dup main := by cases main <;> exact ⟨rfl, rfl⟩

namespace Expr

variable {expr : Expr} {holds : String → Bool}

theorem isCatalog_of_namesHave (names : expr.namesHave holds = true) : expr.isCatalog = true := by
  refine every_mono (fun part isNamed => ?_) expr names
  cases part <;> first | rfl | cases isNamed

theorem fits_named (names : expr.namesHave holds = true) (main : Bool) :
    expr.Fits main (.named holds main) none := by
  refine ⟨every_mono (fun part isNamed => ?_) expr names,
    isProper_of_isCatalog (isCatalog_of_namesHave names), nofun⟩
  cases part with
  | inline => cases isNamed
  | seq items => cases items <;> simp [own, leaf?, operator?]
  | binary op | unary op => cases op <;> cases main <;> rfl
  | field source name ty =>
    have regular : (Dialect.regular main).admits ⟨source.opcode, [.name name]⟩ = true := by
      cases source <;> cases main <;> rfl
    have isHeld : holds name = true := isNamed
    simp [own, leaf?, Dialect.named, Instr.namesHave, regular, isHeld]
  | _ => cases main <;> rfl

end Expr

/-! ## Compiled programs -/

namespace Build

variable {main : Expr} {options : CompileOptions} {before : Program}

/-- The labels of a compiled listing break no line. -/
theorem lineFeeds_label (build : Build main options before) :
    ∀ line ∈ build.assembly.lines, ∀ label ∈ line.labels, lineFeeds label = 0 :=
  fun line member label isLabel =>
    ((Link.labels_and_names_of_link build.linked).1 line member label isLabel).lineFeeds

/-- The names that the text copies are those of subroutines and of fields. -/
theorem holds_of_copied {holds : String → Bool} (build : Build main options before)
    (mainNames : main.namesHave holds = true)
    (bodies : before.BodiesHave fun body => body.namesHave holds = true)
    (declared : ∀ id handle, before.declared id = some handle → holds handle.name = true) :
    ∀ name ∈ build.assembly.copied, holds name = true := by
  have same := build.sameDeclarations
  intro name member
  rcases (Link.labels_and_names_of_link build.linked).2 name member with
    ⟨id, subroutine, found, rfl⟩ | ⟨entry, isEntry, instr, inCode, isOperand⟩
  · refine declared id subroutine.handle ?_
    rw [← same.declared, Program.declared, Program.subroutine_eq_ok.mp found, Option.map_some]
  · cases Spill.emits_of_mem build.isSpilled isEntry inCode with
    | written inFlat inFlatCode =>
      rcases build.admits_of_mem_flat (Dialect.closed_named holds) (Expr.fits_named mainNames true)
        (bodies.mono fun _ names => Expr.fits_named names false) inFlat inFlatCode with
        admitted | ⟨branch, _, rfl⟩
      · rw [Dialect.named, Bool.and_eq_true] at admitted
        exact List.all_eq_true.mp admitted.2 _ isOperand
      · simp [Graph.Branch.instr, Instr.branch] at isOperand
    | inserted _ _ _ _ _ inserted =>
      cases inserted <;> simp [Instr.load, Instr.store, Instr.immediate] at isOperand

end Build

/-- The text has one line for each line of the listing, and one more for each line feed in a name
that it copies. So the lines of the text are the version and the lines of the listing exactly if
no such name holds a line feed. The names come from the program: if neither the fields that are read
nor the subroutines have names with line feeds, no line is broken. -/
theorem text_breaks_only_in_names {main : Expr} {options : CompileOptions} {before after : Program}
    {artifact : Artifact} (compiled : (compile main options).run before = (.ok artifact, after)) :
    (Text.lines artifact.text).length =
        1 + artifact.assembly.lines.length + (artifact.assembly.copied.map lineFeeds).sum ∧
      (Text.lines artifact.text =
          artifact.assembly.pragma :: artifact.assembly.lines.map Line.render ↔
        ∀ name ∈ artifact.assembly.copied, '\n' ∉ name.toList) ∧
      (main.namesHave (fun name => '\n' ∉ name.toList) = true →
        before.BodiesHave (fun body => body.namesHave (fun name => '\n' ∉ name.toList) = true) →
        (∀ id handle, before.declared id = some handle → '\n' ∉ handle.name.toList) →
        Text.lines artifact.text =
          artifact.assembly.pragma :: artifact.assembly.lines.map Line.render) := by
  obtain ⟨build, rfl, _⟩ := Build.run_compile_eq_ok.mp compiled
  have exactly : Text.lines build.artifact.text =
      build.assembly.pragma :: build.assembly.lines.map Line.render ↔
        ∀ name ∈ build.assembly.copied, '\n' ∉ name.toList := by
    simp only [← lineFeeds_eq_zero]
    exact Assembly.lines_render_iff build.lineFeeds_label
  refine ⟨?_, exactly, fun mainNames bodies declared => exactly.mpr fun name member => ?_⟩
  · rw [length_lines]
    change lineFeeds build.assembly.render + 1 = _
    rw [Assembly.lineFeeds_render build.lineFeeds_label]
    change _ = 1 + build.assembly.lines.length + (build.assembly.copied.map lineFeeds).sum
    omega
  · have held := build.holds_of_copied mainNames bodies
      (fun id handle isDeclared => decide_eq_true (declared id handle isDeclared)) name member
    exact of_decide_eq_true held

theorem text_breaks_only_in_names_factorial :
    ∃ artifact after, (compile factorialMain { optimize := .all }).run factorialProgram =
        (.ok artifact, after) ∧
      "factorial" ∈ artifact.assembly.copied ∧
      (Text.lines artifact.text).length = 1 + artifact.assembly.lines.length ∧
      Text.lines artifact.text =
        artifact.assembly.pragma :: artifact.assembly.lines.map Line.render := by
  have commented : ((compile factorialMain { optimize := .all }).run
      factorialProgram).1.toOption.any fun artifact =>
        decide ("factorial" ∈ artifact.assembly.copied) := by
    decide +kernel
  obtain ⟨artifact, after, compiled⟩ := exists_compile_factorial
  have split := (text_breaks_only_in_names compiled).2.2 (by decide +kernel)
    (bodies_factorialProgram (by decide +kernel)) fun id handle isDeclared => by
      match id with
      | 0 =>
          cases isDeclared
          decide
      | id + 1 => cases isDeclared
  refine ⟨artifact, after, compiled, ?_, ?_, split⟩
  · simpa [compiled, Except.toOption] using commented
  · rw [split, List.length_cons, List.length_map, Nat.add_comm]

/-! ## Names that break lines -/

/-- A subroutine whose name reads as an instruction behind a line feed. -/
def treacherous : Handle := ⟨0, "f\nerr", 0, .value .uint64⟩

/-- The text has an instruction that the listing has not, after a call of a subroutine and after a
look at a field with such a name. -/
theorem names_add_instructions :
    (((compile (.retValue (.call treacherous [])) {}).run
        { subroutines := #[⟨treacherous, [], .built (.int 1)⟩] }).1.toOption.any fun artifact =>
      decide (artifact.assembly.lines.length = 5 ∧ (Text.lines artifact.text).length = 7 ∧
        "err" ∈ Text.lines artifact.text ∧ .err ∉ artifact.assembly.opcodes)) = true ∧
    (((compile (.retValue (.field .txn "Fee\nerr" .uint64)) {}).run {}).1.toOption.any fun artifact =>
      decide (artifact.assembly.lines.length = 2 ∧ (Text.lines artifact.text).length = 4 ∧
        "err" ∈ Text.lines artifact.text ∧ .err ∉ artifact.assembly.opcodes)) = true := by
  decide +kernel

end ContractBackend
