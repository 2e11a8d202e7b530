import ContractBackend.Error
import ContractBackend.FlatCode.Basic

/-!
# From flat code back to its stretches

The straight stretches of flat code between labels and branches, and where control goes on behind
each of them.
-/

namespace ContractBackend

/-- How a stretch of code ends. -/
inductive StretchEnd where
  /-- Control goes on at the next stretch. -/
  | fall
  | jump (target : Label)
  | ifTrue (target : Label)
  | ifFalse (target : Label)
  | both (onTrue onFalse : Label)
  /-- The last instruction leaves the routine. -/
  | leave
  deriving DecidableEq, Inhabited

/-- A stretch of code before its end has been resolved. -/
structure OpenStretch where
  labels : List Label
  /-- The instructions without the branches at the end. -/
  instrs : List Instr
  ending : StretchEnd
  deriving DecidableEq, Inhabited

/-- A stretch of straight-line code. -/
structure Stretch where
  labels : List Label
  /-- The instructions without the branches at the end. -/
  instrs : List Instr
  /-- The stretches at which control can go on, the one for true first. -/
  successors : List Nat
  deriving DecidableEq, Inhabited

namespace StretchEnd

/-- The end made by a conditional branch that jumps to the first label, followed by a jump to the
second one if there is one. -/
def ofConditional (op : Opcode) (first : Label) : Option Label → StretchEnd
  | some second => if op = .bnz then .both first second else .both second first
  | none => if op = .bnz then .ifTrue first else .ifFalse first

end StretchEnd

namespace FlatCode

/-- The target of a jump. -/
def jumpLabel? (instr : Instr) : Option Label :=
  if instr.op = .b then instr.label? else none

/-- Cut code into stretches. The labels and instructions are those of the stretch that is being
read. -/
def cut : FlatCode → List Label → List Instr → Except CompileError (List OpenStretch)
  | [], [], [] => .ok []
  | [], labels, instrs => .ok [⟨labels, instrs, .fall⟩]
  | .label label :: rest, labels, [] => cut rest (labels ++ [label]) []
  | .label label :: rest, labels, instrs => do
      pure (⟨labels, instrs, .fall⟩ :: (← cut rest [label] []))
  | .instr instr :: rest, labels, instrs =>
      match instr.op with
      | .b =>
          match instr.label? with
          | some target => do
              pure (⟨labels, instrs, .jump target⟩ :: (← cut rest [] []))
          | none => .error (.malformedGraph (.branchWithoutLabel instr.op))
      | .bnz | .bz =>
          match instr.label? with
          | some first =>
              match rest with
              | .instr next :: behind =>
                  match jumpLabel? next with
                  | some second => do
                      pure (⟨labels, instrs, .ofConditional instr.op first (some second)⟩ ::
                        (← cut behind [] []))
                  | none => do
                      pure (⟨labels, instrs, .ofConditional instr.op first none⟩ ::
                        (← cut (.instr next :: behind) [] []))
              | rest => do
                  pure (⟨labels, instrs, .ofConditional instr.op first none⟩ ::
                    (← cut rest [] []))
          | none => .error (.malformedGraph (.branchWithoutLabel instr.op))
      | op =>
          if op.isExit then do
            pure (⟨labels, instrs ++ [instr], .leave⟩ :: (← cut rest [] []))
          else
            cut rest labels (instrs ++ [instr])

/-- The stretch that a label stands at; the last one if it stands at several. -/
def labelled (stretches : List OpenStretch) (label : Label) : Except CompileError Nat :=
  let found := stretches.zipIdx.foldl
    (fun found entry => if label ∈ entry.1.labels then some entry.2 else found) none
  match found with
  | some position => .ok position
  | none => .error (.malformedGraph (.unknownLabel label))

/-- The stretch behind the one at a position, which the given branch needs. -/
def behind (stretches : List OpenStretch) (position : Nat) (op : Opcode) :
    Except CompileError Nat :=
  if position + 1 < stretches.length then .ok (position + 1)
  else .error (.malformedGraph (.branchAtEnd op))

/-- Where control goes on behind the stretch at a position. -/
def successors (stretches : List OpenStretch) (position : Nat) :
    StretchEnd → Except CompileError (List Nat)
  | .fall => .ok (if position + 1 < stretches.length then [position + 1] else [])
  | .jump target => do pure [← labelled stretches target]
  | .ifTrue target => do
      let onFalse ← behind stretches position .bnz
      pure [← labelled stretches target, onFalse]
  | .ifFalse target => do
      let onTrue ← behind stretches position .bz
      pure [onTrue, ← labelled stretches target]
  | .both onTrue onFalse => do
      pure [← labelled stretches onTrue, ← labelled stretches onFalse]
  | .leave => .ok []

def stretches (code : FlatCode) : Except CompileError (List Stretch) := do
  let cuts ← cut code [] []
  cuts.zipIdx.mapM fun entry => do
    pure ⟨entry.1.labels, entry.1.instrs, ← successors cuts entry.2 entry.1.ending⟩

end FlatCode

end ContractBackend
