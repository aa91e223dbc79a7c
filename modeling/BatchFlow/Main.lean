import BatchFlow.CommandLine.Directory
import BatchFlow.CommandLine.Execute

/-!
# The program

Reads the arguments, the files and standard input, and prints what comes of the command.
-/

namespace BatchFlow.CommandLine

/-- The fault behind an error of the system. -/
def FileFault.ofError? : IO.Error → Option FileFault
  | .noFileOrDirectory _ code _ | .permissionDenied _ code _ | .inappropriateType _ code _
  | .invalidArgument _ code _ => FileFault.ofCode? code.toNat
  | _ => none

/-- Why a file cannot be read, in words. -/
def readErrorText (e : IO.Error) : String :=
  ((FileFault.ofError? e).map FileFault.message).getD (toString e)

/-- The text of a file, or why it cannot be read. -/
def readContent (file : String) : IO (Except String String) := do
  try return .ok (← IO.FS.readFile file)
  catch e => return .error (readErrorText e)

/-- A draw for every step, from one seed. -/
def drawFrom (seed : Nat) (step : String) : Float :=
  let mixed := (hash (seed, step)).toNat / Nat.pow 2 11
  Float.ofScientific mixed false 0 / Float.ofScientific (Nat.pow 2 53) false 0

/-- Standard input; a terminal supplies nothing. -/
def readInput : IO String := do
  let stdin ← IO.getStdin
  if ← stdin.isTty then return "" else stdin.readToEnd

/-- Carries a command out. -/
def perform : Command → IO Outcome
  | .overview => return .printed overviewText
  | .help => return .printed helpText
  | .version => return .printed versionText
  | .blocks => return blocksOutcome
  | .compile file init => do return planOutcome file (← readContent file) init
  | .run file limit init => do
    let content ← readContent file
    match readEngine file content limit (← IO.getEnv Settings.limitVariable) init with
    | .error complaint => return .failed complaint
    | .ok engine =>
      let seed ← IO.rand 0 (Nat.pow 2 53)
      return orFailed (runOn engine (drawFrom seed) (← readInput))

/-- Carries out the command that the arguments spell. -/
def performArguments (args : List String) : IO UInt32 := do
  let outcome ← match parse args with
    | none => pure .misused
    | some command => perform command
  match outcome with
  | .printed text => IO.print text
  | .failed complaint => IO.eprintln complaint.text
  | .misused => IO.eprint helpText
  return outcome.exitCode

end BatchFlow.CommandLine

/-- The program. -/
def main (args : List String) : IO UInt32 := BatchFlow.CommandLine.performArguments args
