import ContractBackend.Machine.Value
import ContractBackend.Program

/-!
# Built-in demos

Small contracts that the command line can compile and run.
-/

namespace ContractBackend

inductive Demo where
  | factorial
  | fib
  | counter
  | loop
  deriving DecidableEq, Inhabited

namespace Demo

/-- Every demo, in the order in which they are listed. -/
def all : List Demo := [.factorial, .fib, .counter, .loop]

def name : Demo → String
  | .factorial => "factorial"
  | .fib => "fib"
  | .counter => "counter"
  | .loop => "loop"

def ofName? (name : String) : Option Demo := all.find? fun demo => demo.name == name

def names : String := ", ".intercalate (all.map name)

/-- The body of a recursive function of one number. -/
def recursive (result : Var → (Expr → Expr) → Expr) : Builder := fun scope =>
  match scope.params with
  | n :: _ => (result n fun argument => .call scope.this [argument], [])
  | [] => (.abort, [])

/-- The product of the numbers up to `n`. -/
def factorialBody : Builder := recursive fun n call =>
  .ifElse (.binary .lt n.load (.int 2)) (.int 1)
    (.binary .mul n.load (call (.binary .sub n.load (.int 1))))

def fibBody : Builder := recursive fun n call =>
  .ifElse (.binary .lt n.load (.int 2)) n.load
    (.binary .add (call (.binary .sub n.load (.int 1))) (call (.binary .sub n.load (.int 2))))

def build : Demo → ProgramM Expr
  | .factorial => do
      let fact ← Program.define "fact" 1 (.value .uint64) [] factorialBody
      pure (.binary .eq (.call fact [.int 5]) (.int 120))
  | .fib => do
      let fib ← Program.define "fib" 1 (.value .uint64) [] fibBody
      pure (.binary .eq (.call fib [.int 10]) (.int 55))
  | .counter =>
      pure (.seq [
        .statePut (.text "count") (.binary .add (.stateGet (.text "count")) (.int 1)),
        .exit true])
  | .loop => do
      let i ← Program.newVar .uint64
      let total ← Program.newVar .uint64
      pure (.seq [
        i.store (.int 0),
        total.store (.int 0),
        .whileLoop (.binary .lt i.load (.field .txn "Amount" .uint64)) (.seq [
          i.store (.binary .add i.load (.int 1)),
          total.store (.binary .add total.load i.load)]),
        .binary .gt total.load (.int 0)])

/-- What the demos are run with. -/
def environment : Machine.Environment where
  txn := [("Amount", .uint 10), ("Fee", .uint 1000)]

end Demo

end ContractBackend
