import ContractBackend.Proofs.Accord
import ContractBackend.Proofs.FlatCode.Stretches

/-!
# Walking through stretches

The stretches of flat code are a graph: each goes on at its successors. A walk through this graph
does what a run of the code does, whatever the code is: with labels that stand in several places,
stretches without instructions, code that control never reaches.
-/

namespace ContractBackend

open Machine (Memory)
open Progress (Runs Ends)

/-- A stretch as a block. -/
def Stretch.block (stretch : Stretch) : Block where
  instrs := stretch.instrs
  shape :=
    match stretch.successors with
    | [] => .simple none
    | [next] => .simple (some next)
    | onTrue :: onFalse :: _ => .conditional (some onTrue) (some onFalse)

/-- Stretches as a graph. -/
def Stretch.graph (stretches : List Stretch) : Graph where
  blocks := (stretches.map Stretch.block).toArray

namespace FlatCode

variable {code : FlatCode} {cuts : List OpenStretch} {pieces : List (List Item)}
  {stretches : List Stretch} {stretch : OpenStretch} {number : Nat}

/-- The parts that code is cut into. -/
def cutParts (cuts : List OpenStretch) (pieces : List (List Item)) : Graph.Parts :=
  fun number id labels branches => id = number ∧ ∃ stretch, cuts[number]? = some stretch ∧
    labels = stretch.labels.length ∧ stretch.ending.Spells branches ∧
    pieces[number]? =
      some (stretch.labels.map .label ++ (stretch.instrs ++ branches).map .instr)

namespace Divided

variable (divided : code.Divided cuts pieces stretches)

include divided

theorem exists_part (found : cuts[number]? = some stretch) :
    ∃ branches, cutParts cuts pieces number number stretch.labels.length branches := by
  obtain ⟨items, piece, spells⟩ := Fallible.exists_related divided.spelled found
  obtain ⟨branches, ends, isPiece⟩ := spells.spelled
  exact ⟨branches, rfl, stretch, found, rfl, ends, isPiece ▸ piece⟩

theorem exists_block (found : cuts[number]? = some stretch) :
    ∃ targets, successors cuts number stretch.ending = .ok targets ∧
      (Stretch.graph stretches).block number =
        Stretch.block ⟨stretch.labels, stretch.instrs, targets⟩ := by
  obtain ⟨targets, isOk, resolved⟩ := divided.resolved number stretch found
  exact ⟨targets, isOk, by simp [Stretch.graph, Graph.block, resolved]⟩

theorem instrs_block (found : cuts[number]? = some stretch) :
    ((Stretch.graph stretches).block number).instrs = stretch.instrs := by
  obtain ⟨targets, _, isBlock⟩ := divided.exists_block found
  rw [isBlock]
  rfl

/-- A branch leads to the stretch that its label is resolved to. -/
theorem aims {instr : Instr} {label : Label} (isLabel : instr.label? = some label)
    (isOk : labelled cuts label = .ok number) :
    Graph.Aims code (Concat.start id pieces) (cutParts cuts pieces) instr number := by
  obtain rfl := divided.whole
  obtain ⟨⟨labelling, found, labels⟩, _⟩ := labelled_eq_ok isOk
  obtain ⟨_, piece, spells⟩ := Fallible.exists_related divided.spelled found
  have member : .label label ∈ pieces.flatten := by
    obtain ⟨offset, here⟩ := spells.exists_label labels
    exact List.mem_flatten.mpr ⟨_, List.mem_of_getElem? piece, List.mem_of_getElem? here⟩
  obtain ⟨target, isTarget⟩ := exists_labelPosition? member
  obtain ⟨offset, items, lies, there⟩ := exists_lies_of_labelled divided.spelled isOk isTarget
  obtain rfl : _ = items := Option.some.inj (piece.symm.trans lies.found)
  obtain ⟨branches, isPart⟩ := divided.exists_part found
  refine ⟨number, _, branches, offset, isPart, Nat.le_of_lt (spells.lt_of_label there), ?_⟩
  rw [isLabel, Option.bind_some, isTarget, lies.here]

theorem getElem?_start_add {items : List Item} {offset : Nat} (piece : pieces[number]? = some items)
    (inside : offset < items.length) :
    code[Concat.start id pieces number + offset]? = items[offset]? := by
  rw [divided.whole]
  exact Lies.getElem? ⟨piece, inside, rfl⟩

/-- The branches at the end of a stretch lead to its successors. -/
theorem continues {branches : List Instr} (found : cuts[number]? = some stretch)
    (ends : stretch.ending.Spells branches)
    (leaving : stretch.ending = .leave →
      ∃ last, stretch.instrs.getLast? = some last ∧ last.op.isExit = true) :
    Graph.Continues (Stretch.graph stretches) code (Concat.start id pieces) (cutParts cuts pieces)
      number number branches := by
  obtain ⟨labels, instrs, ending⟩ := stretch
  obtain ⟨targets, isOk, isBlock⟩ := divided.exists_block found
  have shape := congrArg Block.shape isBlock
  have falls : ∀ {next op}, behind cuts number op = .ok next →
      Graph.Onward code (Concat.start id pieces) (cutParts cuts pieces) number [] next := by
    intro next op isNext
    rw [behind] at isNext
    split at isNext
    next further =>
      cases isNext
      obtain ⟨branches, isPart⟩ := divided.exists_part (List.getElem?_eq_getElem further)
      exact .falls isPart
    next => cases isNext
  cases ends <;> simp only [successors, Fallible.bind_eq_ok, Fallible.pure_eq_ok] at isOk
  case fall =>
    cases isOk
    by_cases further : number + 1 < cuts.length
    · rw [if_pos further] at shape
      exact .simple shape (@falls _ .b (if_pos further))
    · rw [if_neg further] at shape
      refine .stop shape (List.getElem?_eq_none ?_)
      calc code.length = Concat.start id pieces pieces.length := by
            rw [Concat.start_length, List.flatMap_id, divided.whole]
        _ ≤ Concat.start id pieces (number + 1) :=
            Concat.start_mono id (divided.spelled.length_eq ▸ Nat.le_of_not_lt further)
  case leave =>
    obtain ⟨last, isLast, exits⟩ := leaving rfl
    exact .exit (by simp [Block.exits, isBlock, Stretch.block, isLast, exits])
  case jump isJump isLabel =>
    obtain ⟨there, isThere, rfl⟩ := isOk
    exact .simple shape (.jumps isJump (divided.aims isLabel isThere))
  case ifTrue isBnz isLabel =>
    obtain ⟨next, isNext, there, isThere, rfl⟩ := isOk
    exact .conditional shape (.inl ⟨isBnz, rfl, rfl⟩) (divided.aims isLabel isThere)
      (falls isNext)
  case ifFalse isBz isLabel =>
    obtain ⟨next, isNext, there, isThere, rfl⟩ := isOk
    exact .conditional shape (.inr ⟨isBz, rfl, rfl⟩) (divided.aims isLabel isThere)
      (falls isNext)
  case both isBnz isTrue isJump isFalse =>
    obtain ⟨onTrue, trueOk, onFalse, falseOk, rfl⟩ := isOk
    exact .conditional shape (.inl ⟨isBnz, rfl, rfl⟩) (divided.aims isTrue trueOk)
      (.jumps isJump (divided.aims isFalse falseOk))
  case bothReversed isBz isFalse isJump isTrue =>
    obtain ⟨onTrue, trueOk, onFalse, falseOk, rfl⟩ := isOk
    exact .conditional shape (.inr ⟨isBz, rfl, rfl⟩) (divided.aims isFalse falseOk)
      (.jumps isJump (divided.aims isTrue trueOk))

theorem spells : (Stretch.graph stretches).Spells code (Concat.start id pieces)
    (cutParts cuts pieces) cuts.length where
  bound := by
    rintro number _ labels branches ⟨rfl, stretch, found, _⟩
    exact (List.getElem?_eq_some_iff.mp found).1
  label := by
    rintro number _ labels branches offset ⟨rfl, stretch, found, rfl, _, piece⟩ within
    refine ⟨stretch.labels[offset], ?_⟩
    rw [divided.getElem?_start_add piece (by simp; omega)]
    rw [List.getElem?_append_left (by simpa using within), List.getElem?_map,
      List.getElem?_eq_getElem within]
    rfl
  instr := by
    rintro number _ labels branches offset instr ⟨rfl, stretch, found, rfl, _, piece⟩ atOffset
    rw [divided.instrs_block found] at atOffset
    have bound := (List.getElem?_eq_some_iff.mp atOffset).1
    rw [Nat.add_assoc, divided.getElem?_start_add piece (by simp at bound ⊢; omega)]
    rw [List.getElem?_append_right (by simp), List.length_map, Nat.add_sub_cancel_left,
      List.getElem?_map, atOffset]
    rfl
  next := by
    rintro number _ labels branches ⟨rfl, stretch, found, rfl, _, piece⟩
    rw [Concat.start_succ id piece, divided.instrs_block found]
    simp [Nat.add_assoc]
  branchless := by
    rintro number _ labels branches ⟨rfl, stretch, found, rfl, _, piece⟩
    rw [divided.instrs_block found]
    exact (spells_of_getElem? divided.spelled found piece).branchless
  continues := by
    rintro number _ labels branches ⟨rfl, stretch, found, rfl, ends, piece⟩
    exact divided.continues found ends (spells_of_getElem? divided.spelled found piece).leaving

end Divided

/-- Stretches do what their code does. Wherever flat code can be cut into stretches, a walk
through them from the first one and a run of the code from its start execute the same instructions
other than branches, in the same order and on the same memories, and they end in the same way. The
memory decides the branches, so this holds for every sequence of decisions. -/
theorem stretches_faithful (isOk : code.stretches = .ok stretches) (act : Action)
    (memory : Memory) (events : List Event) :
    ((∃ place, Runs ((Stretch.graph stretches).walk act)
        ((Stretch.graph stretches).enter 0 memory) events place) ↔
      ∃ point, Runs (code.step act) ⟨0, memory⟩ events point) ∧
    ∀ ending, Ends ((Stretch.graph stretches).walk act)
        ((Stretch.graph stretches).enter 0 memory) events ending ↔
      Ends (code.step act) ⟨0, memory⟩ events ending := by
  obtain ⟨cuts, pieces, divided⟩ := exists_divided isOk
  refine Graph.Accords.agree divided.spells.accords ?_ act memory events
  cases first : cuts[0]? with
  | some stretch =>
      obtain ⟨branches, isPart⟩ := divided.exists_part first
      exact divided.spells.accords (.start isPart (Nat.zero_le _))
  | none =>
      have noCuts : cuts = [] := by simpa using first
      have noPieces : pieces = [] := by simpa [noCuts] using divided.spelled.length_eq.symm
      have noStretches : stretches = [] := by simpa [noCuts] using divided.length
      rw [noStretches]
      exact .stop rfl (by simp [divided.whole, noPieces])

/-- A label in two places, a jump behind a conditional branch, code that control never reaches, and
labels at the end. -/
def tangled : FlatCode :=
  [.label ⟨0, ""⟩, .label ⟨1, ""⟩, .instr (.branch .bz ⟨1, ""⟩), .instr (.branch .b ⟨2, ""⟩),
    .instr (.int 7), .label ⟨2, ""⟩, .instr (.int 0), .instr (.branch .bnz ⟨0, ""⟩),
    .label ⟨3, ""⟩, .label ⟨1, ""⟩]

theorem stretches_faithful_tangled :
    let stretches : List Stretch :=
      [⟨[⟨0, ""⟩, ⟨1, ""⟩], [], [2, 3]⟩, ⟨[], [.int 7], [2]⟩, ⟨[⟨2, ""⟩], [.int 0], [0, 3]⟩,
        ⟨[⟨3, ""⟩, ⟨1, ""⟩], [], []⟩]
    tangled.stretches = .ok stretches ∧
      ∀ act memory events ending, Ends ((Stretch.graph stretches).walk act)
          ((Stretch.graph stretches).enter 0 memory) events ending ↔
        Ends (tangled.step act) ⟨0, memory⟩ events ending :=
  ⟨rfl, fun act memory events => (stretches_faithful rfl act memory events).2⟩

end FlatCode

end ContractBackend
