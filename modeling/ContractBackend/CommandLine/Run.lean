import ContractBackend.Artifact.Codec
import ContractBackend.CommandLine.Demo
import ContractBackend.Compile
import ContractBackend.Machine.Run

/-!
# The command line

What the program prints for its arguments, and the code it exits with.
-/

namespace ContractBackend.CommandLine

/-- What a call of the program leads to. -/
structure Output where
  code : UInt32 := 0
  stdout : String := ""
  stderr : String := ""
  deriving DecidableEq, Inhabited

/-- Lines of text. -/
def lines (texts : List String) : String := String.join (texts.map (· ++ "\n"))

def usage : String := lines [
  "TEALC - stack-machine contract compiler backend",
  "",
  "Usage:",
  "  tealc <demo> [options]    Compile a built-in demo and print its assembly",
  "",
  s!"Demos: {Demo.names}",
  "",
  "Options:",
  "  --version N               Target version " ++
    s!"({oldestVersion.toNat}..={newestVersion.toNat})",
  "  --mode app|sig            Execution mode (default: app)",
  "  --dedupe                  Replace repeated values with dup/dup2",
  "  --elide                   Remove store/load pairs",
  "  --share-slots             Share scratch cells between exclusive subroutines",
  "  --run                     Execute the result in the reference interpreter",
  "  --bytes                   Show the size of the serialized artifact",
  "  --help, -h                Show this help"]

/-- What is wrong with the arguments. -/
inductive ArgumentError where
  | missingValue (flag : String)
  | invalidVersion (text : String)
  | invalidMode (text : String)
  deriving DecidableEq, Inhabited

namespace ArgumentError

def message : ArgumentError → String
  | .missingValue flag => s!"{flag} needs a value"
  | .invalidVersion text => s!"invalid version '{text}'"
  | .invalidMode text => s!"invalid mode '{text}' (expected app or sig)"

end ArgumentError

/-- The argument behind the first occurrence of a flag. -/
def flagValue (flag : String) : List String → Except ArgumentError (Option String)
  | [] => .ok none
  | [argument] => if argument = flag then .error (.missingValue flag) else .ok none
  | argument :: value :: rest =>
      if argument = flag then .ok (some value) else flagValue flag (value :: rest)

/-- The number that some decimal digits stand for; none if there are no digits or others. -/
def digits? (digits : List Char) : Option Nat :=
  if digits.isEmpty || !digits.all Char.isDigit then none
  else some (digits.foldl (fun number c => 10 * number + (c.toNat - '0'.toNat)) 0)

/-- The version that a text stands for: decimal digits behind an optional plus sign, with a value
that fits into a byte. -/
def version? (text : String) : Option Version := do
  let number ← match text.toList with
    | '+' :: digits => digits? digits
    | digits => digits? digits
  if number < 256 then some (UInt8.ofNat number) else none

/-- The mode that a text stands for. -/
def mode? : String → Option Mode
  | "app" => some .application
  | "sig" => some .signature
  | _ => none

/-- The options that the arguments ask for. -/
def options (arguments : List String) : Except ArgumentError CompileOptions := do
  let version ← match ← flagValue "--version" arguments with
    | none => pure newestVersion
    | some text => (version? text).elim (throw (.invalidVersion text)) pure
  let mode ← match ← flagValue "--mode" arguments with
    | none => pure .application
    | some text => (mode? text).elim (throw (.invalidMode text)) pure
  pure { version, mode,
         optimize := { dedupe := arguments.contains "--dedupe",
                       elide := arguments.contains "--elide",
                       share := arguments.contains "--share-slots" } }

/-- The first argument that is neither a flag nor the value of one. The first text is the argument
in front. -/
def demoName? : String → List String → Option String
  | _, [] => none
  | previous, argument :: rest =>
      if argument.startsWith "-" || previous = "--version" || previous = "--mode" then
        demoName? argument rest
      else
        some argument

/-- A line for something a run has done. -/
def effectLine : Machine.Effect → String
  | .log message => s!"log: {(Machine.Value.bytes message).render}"
  | .put key value => s!"global {Text.Utf8.decodeLossy key} = {value.render}"

/-- Run an artifact and report on it. -/
def runReport (artifact : Artifact) : Output :=
  let title := lines ["", "=== RUN ==="]
  match Machine.run artifact.assembly Demo.environment with
  | .error fault => { code := 1, stdout := title, stderr := lines [fault.message] }
  | .ok outcome =>
      { stdout := title ++ lines (
          (if outcome.approved then "approved" else "rejected") ::
          s!"steps: {outcome.steps}" :: outcome.memory.effects.toList.map effectLine) }

/-- Report on the size of an artifact. -/
def sizeReport (artifact : Artifact) : String :=
  lines ["", "=== ARTIFACT ===", s!"{artifact.encode.length} bytes"]

/-- Compile a demo and report on it. -/
def compileDemo (demo : Demo) (options : CompileOptions) (showBytes runIt : Bool) : Output :=
  let compilation : ProgramM Artifact := do compile (← demo.build) options
  match (compilation.run {}).1 with
  | .error error => { code := 1, stderr := lines [error.message] }
  | .ok artifact =>
      let listing := lines [artifact.text] ++ (if showBytes then sizeReport artifact else "")
      let run : Output := if runIt then runReport artifact else {}
      { run with stdout := listing ++ run.stdout }

def run (arguments : List String) : Output :=
  if arguments.isEmpty || arguments.contains "--help" || arguments.contains "-h" then
    { stdout := usage }
  else
    match options arguments with
    | .error error => { code := 2, stdout := usage, stderr := lines [s!"Error: {error.message}"] }
    | .ok options =>
        match demoName? "" arguments with
        | none => { code := 2, stdout := usage }
        | some name =>
            match Demo.ofName? name with
            | none =>
                { code := 2, stderr := lines [
                    s!"Error: unknown demo '{name}' (expected one of: {Demo.names})"] }
            | some demo =>
                compileDemo demo options (arguments.contains "--bytes")
                  (arguments.contains "--run")

end ContractBackend.CommandLine
