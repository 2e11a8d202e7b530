import ContractBackend.Graph.Basic
import ContractBackend.StackEffect

/-!
# Repeated values

A piece of code that computes one or two values twice in a row computes them once; the second time
they are duplicated.
-/

namespace ContractBackend

namespace Dedupe

/-- Instructions whose only effect is on the top of the stack. -/
def isPlain (instr : Instr) : Bool :=
  instr.effect?.isSome && !instr.op.readsDeepStack && !instr.op.hasSideEffects

/-- The instruction that replaces the second of two equal windows, if they only push values and
there are one or two of them. -/
def replacement? (version : Version) (window : List Instr) : Option Instr :=
  if window.all isPlain then
    match StackHeight.netPushes? window with
    | some 1 => some ⟨.dup, []⟩
    | some 2 => if Opcode.dup2.minVersion ≤ version then some ⟨.dup2, []⟩ else none
    | _ => none
  else
    none

/-- Whether two lists have at least the given number of elements and agree on them. -/
def agree : Nat → List Instr → List Instr → Bool
  | 0, _, _ => true
  | count + 1, left :: lefts, right :: rights => left = right && agree count lefts rights
  | _ + 1, _, _ => false

/-- Replace the second of two equal windows of the given width, the second of which ends at the
given position. -/
def replaceAt? (version : Version) (instrs : List Instr) (stop width : Nat) :
    Option (List Instr) :=
  let first := instrs.drop (stop - 2 * width)
  if agree width first (first.drop width) then
    (replacement? version (first.take width)).map fun instr =>
      instrs.take (stop - width) ++ instr :: instrs.drop stop
  else
    none

/-- Replace the second of the widest equal windows that end at a position, at most of the given
width. -/
def replaceEnding? (version : Version) (instrs : List Instr) (stop : Nat) :
    Nat → Option (List Instr)
  | 0 => none
  | width + 1 =>
      replaceAt? version instrs stop (width + 1) <|> replaceEnding? version instrs stop width

/-- Replace the second of the last equal windows that end at or before a position. -/
def replaceUpTo? (version : Version) (instrs : List Instr) : Nat → Option (List Instr)
  | 0 => none
  | stop + 1 =>
      replaceEnding? version instrs (stop + 1) ((stop + 1) / 2) <|>
        replaceUpTo? version instrs stop

/-- Replace the second of two equal windows: the last ones, and of those that end together the
widest. -/
def once? (version : Version) (instrs : List Instr) : Option (List Instr) :=
  replaceUpTo? version instrs instrs.length

/-- Replace at most the given number of windows. -/
def rounds (version : Version) : Nat → List Instr → List Instr × Nat
  | 0, instrs => (instrs, 0)
  | count + 1, instrs =>
      match once? version instrs with
      | none => (instrs, 0)
      | some shorter =>
          let (result, replaced) := rounds version count shorter
          (result, replaced + 1)

/-- Replace windows of a block until none is left; their number comes with the result. -/
def block (version : Version) (instrs : List Instr) : List Instr × Nat :=
  rounds version (instrs.length + 1) instrs

end Dedupe

namespace Graph

/-- Replace repeated values in every reachable block. -/
def dedupe (graph : Graph) (entry : BlockId) (version : Version) : Graph × Nat :=
  (graph.reachable entry).foldl (fun (graph, replaced) id =>
    let (instrs, more) := Dedupe.block version (graph.block id).instrs
    (graph.modify id fun block => { block with instrs }, replaced + more)) (graph, 0)

end Graph

end ContractBackend
