import ContractBackend.CommandLine.Run

/-!
# Entry point
-/

def main (arguments : List String) : IO UInt32 := do
  let output := ContractBackend.CommandLine.run arguments
  IO.print output.stdout
  IO.eprint output.stderr
  pure output.code
