import ContractBackend.Error

/-!
# Stack effects

How many values an instruction takes off the stack and puts on it, and the height of the stack
behind a straight piece of code.
-/

namespace ContractBackend

/-- What an instruction does to the height of the stack. -/
structure StackEffect where
  pops : Nat
  pushes : Nat
  deriving DecidableEq, Inhabited

namespace Instr

/-- The numeric immediate of an instruction. -/
def immediate? (instr : Instr) : Option Nat :=
  match instr.operands with
  | .uint value :: _ => some value.toNat
  | _ => none

/-- The effect of an instruction. It is unknown for calls and returns, which depend on the callee,
and where the depth of a stack operation is missing. -/
def effect? (instr : Instr) : Option StackEffect :=
  match instr.op with
  | .int | .byte | .pushint | .pushbytes | .arg | .txn | .global => some ⟨0, 1⟩
  | .appGlobalGet => some ⟨1, 1⟩
  | .appGlobalPut => some ⟨2, 0⟩
  | .log => some ⟨1, 0⟩
  | .load => some ⟨0, 1⟩
  | .store => some ⟨1, 0⟩
  | .loads => some ⟨1, 1⟩
  | .stores => some ⟨2, 0⟩
  | .pop => some ⟨1, 0⟩
  | .dup => some ⟨1, 2⟩
  | .dup2 => some ⟨2, 4⟩
  | .swap => some ⟨2, 2⟩
  | .select => some ⟨3, 1⟩
  | .dig => instr.immediate?.map fun depth => ⟨depth + 1, depth + 2⟩
  | .cover | .uncover => instr.immediate?.map fun depth => ⟨depth + 1, depth + 1⟩
  | .add | .sub | .mul | .div | .mod | .bitOr | .bitAnd | .bitXor => some ⟨2, 1⟩
  | .lt | .gt | .le | .ge | .eq | .neq | .and | .or => some ⟨2, 1⟩
  | .concat => some ⟨2, 1⟩
  | .bitNot | .not | .len | .itob | .btoi => some ⟨1, 1⟩
  | .bnz | .bz => some ⟨1, 0⟩
  | .b => some ⟨0, 0⟩
  | .assert => some ⟨1, 0⟩
  | .err => some ⟨0, 0⟩
  | .ret => some ⟨1, 0⟩
  | .callsub | .retsub => none

end Instr

namespace StackHeight

/-- The height of the stack behind a straight piece of code whose first instruction has the given
position. Branches are not followed. -/
def checkFrom (position : Nat) : List Instr → Nat → Except CompileError Nat
  | [], height => .ok height
  | instr :: rest, height =>
      match instr.effect? with
      | none => .error (.internal (.dynamicEffect instr.op position))
      | some effect =>
          if effect.pops ≤ height then
            checkFrom (position + 1) rest (height - effect.pops + effect.pushes)
          else
            .error (.internal (.stackUnderflow instr.op position effect.pops))

/-- The height of the stack behind a straight piece of code. -/
def check (instrs : List Instr) (height : Nat) : Except CompileError Nat :=
  checkFrom 0 instrs height

/-- How many values a piece of code leaves on an empty stack, if it never reaches below it. -/
def netPushes? (instrs : List Instr) : Option Nat := (check instrs 0).toOption

end StackHeight

end ContractBackend
