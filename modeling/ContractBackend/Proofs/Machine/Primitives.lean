import ContractBackend.Machine.Exec
import ContractBackend.Proofs.Fallible

/-!
# The primitive steps of an execution

Each primitive applied to a memory, as one equation. Later proofs evaluate
instructions with these equations and do not open the primitives again.
-/

namespace ContractBackend

open Machine (Value)

theorem get_set_self (scratch : Vector Value cellCount) (cell : Cell) (value : Value) :
    (scratch.set cell value cell.isLt).get cell = value :=
  Vector.getElem_set_self cell.isLt

theorem get_set_of_ne (scratch : Vector Value cellCount) {cell other : Cell} (value : Value)
    (different : cell ≠ other) : (scratch.set cell value cell.isLt).get other = scratch.get other :=
  Vector.getElem_set_ne cell.isLt other.isLt fun same => different (Fin.ext same)

theorem toNat_ofNat_cell (cell : Cell) : (UInt64.ofNat cell.val).toNat = cell.val := by
  have small : cell.val < 2 ^ 64 := Nat.lt_of_lt_of_le cell.isLt (by decide)
  exact UInt64.toNat_ofNat_of_lt' small

namespace Machine.Exec

variable {α β : Type} {memory : Memory} {site : Site} {limits : Limits}

theorem bind_apply (first : Exec α) (rest : α → Exec β) (memory : Memory) :
    (first >>= rest) memory = (first memory >>= fun result => rest result.1 result.2) :=
  rfl

theorem pure_apply (value : α) (memory : Memory) :
    (pure value : Exec α) memory = .ok (value, memory) :=
  rfl

theorem get_apply (memory : Memory) : (get : Exec Memory) memory = .ok (memory, memory) :=
  rfl

theorem modify_apply (change : Memory → Memory) (memory : Memory) :
    (modify change : Exec PUnit) memory = .ok (⟨⟩, change memory) :=
  rfl

theorem lift_apply (result : Except Fault α) (memory : Memory) :
    (liftM result : Exec α) memory = (result >>= fun value => .ok (value, memory)) :=
  rfl

theorem push_apply (value : Value) (memory : Memory) :
    push limits value memory =
      if memory.stack.length < limits.maxStack then
        .ok ((), { memory with stack := value :: memory.stack })
      else .error (.stackLimitExceeded limits.maxStack) := by
  simp only [push, bind_apply, get_apply, Fallible.ok_bind]
  split <;> rfl

theorem pop_apply (memory : Memory) :
    pop site memory =
      match memory.stack with
      | [] => .error (.stackUnderflow site)
      | value :: rest => .ok (value, { memory with stack := rest }) := by
  simp only [pop, bind_apply, get_apply, Fallible.ok_bind]
  cases memory.stack <;> rfl

theorem popUint_apply (memory : Memory) :
    popUint site memory =
      match memory.stack with
      | [] => .error (.stackUnderflow site)
      | .uint value :: rest => .ok (value, { memory with stack := rest })
      | found :: _ => .error (.typeMismatch site .uint64 found.ty) := by
  simp only [popUint, bind_apply, pop_apply]
  rcases memory.stack with _ | ⟨_ | _, _⟩ <;> rfl

theorem popBytes_apply (memory : Memory) :
    popBytes site memory =
      match memory.stack with
      | [] => .error (.stackUnderflow site)
      | .bytes value :: rest => .ok (value, { memory with stack := rest })
      | found :: _ => .error (.typeMismatch site .bytes found.ty) := by
  simp only [popBytes, bind_apply, pop_apply]
  rcases memory.stack with _ | ⟨_ | _, _⟩ <;> rfl

theorem cell_apply_ofNat (index : Cell) (memory : Memory) :
    cell (UInt64.ofNat index.val) memory = .ok (index, memory) := by
  simp only [cell, toNat_ofNat_cell, index.isLt, dite_true, pure_apply]

theorem readCell_apply (index : Cell) (memory : Memory) :
    readCell index memory = .ok (memory.scratch.get index, memory) :=
  rfl

theorem writeCell_apply (index : Cell) (value : Value) (memory : Memory) :
    writeCell index value memory =
      .ok ((), { memory with scratch := memory.scratch.set index value index.isLt }) :=
  rfl

end Machine.Exec

end ContractBackend
