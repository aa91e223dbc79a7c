import BatchFlow.Engine.Limit

namespace BatchFlow.CommandLine

/-!
# Arguments of the command line

* `Command` — what the user asks for.
* `parse` — the command that the arguments spell, read from left to right. `none` is a misuse.
-/

/-- What the user asks for. -/
inductive Command where
  /-- Nothing in particular. -/
  | overview
  | help
  | version
  /-- The plan of a workflow. -/
  | compile (file : String) (init : List String)
  /-- A run with the values on standard input. -/
  | run (file : String) (limit : Option Nat) (init : List String)
  /-- The available blocks. -/
  | blocks
deriving DecidableEq, Repr

/-- What the arguments of one command say so far. -/
structure Given where
  file : Option String := none
  limit : Option Nat := none
  init : List String := []

/-- The words that a command takes. -/
structure Signature where
  takesFile : Bool
  takesLimit : Bool

/-- The end of reading: all arguments are read, or help is asked for. -/
inductive Reading where
  | given (given : Given)
  | help

/-- Whether an argument is an option and no value. A single dash is a value. -/
def isOption (arg : String) : Bool :=
  match arg.toList with
  | '-' :: _ :: _ => true
  | _ => false

/-- The file, which is named once and not by an empty word. -/
def Given.addFile? (signature : Signature) (given : Given) (arg : String) : Option Given :=
  if signature.takesFile && given.file.isNone && !arg.isEmpty then
    some { given with file := some arg }
  else none

/-- The value of a long option. -/
def Given.addOption? (signature : Signature) (given : Given) (name : String) (value : String) :
    Option Given :=
  if !signature.takesFile then none
  else if name = "init" then some { given with init := given.init ++ [value] }
  else if name = "max-concurrent-steps" && signature.takesLimit && given.limit.isNone then
    (readCount? value.toList).map fun n => { given with limit := some n }
  else none

/-- The name of a long option, and the value after `=` if there is one. -/
def splitOption (body : List Char) : String × Option String :=
  let name := body.takeWhile (· ≠ '=')
  match body.dropWhile (· ≠ '=') with
  | [] => (String.ofList name, none)
  | _ :: value => (String.ofList name, some (String.ofList value))

/-- Reads the arguments of one command. `onlyFiles` holds after `--`. -/
def readArguments? (signature : Signature) (onlyFiles : Bool) (given : Given) :
    List String → Option Reading
  | [] => some (.given given)
  | arg :: rest => do
    if onlyFiles then readArguments? signature true (← given.addFile? signature arg) rest
    else match arg.toList with
      | ['-', '-'] => readArguments? signature true given rest
      | '-' :: '-' :: body =>
        match splitOption body, rest with
        | ("help", none), _ => some .help
        | (name, some value), rest =>
          readArguments? signature false (← given.addOption? signature name value) rest
        | (name, none), value :: rest =>
          if isOption value then none
          else readArguments? signature false (← given.addOption? signature name value) rest
        | (_, none), [] => none
      | '-' :: 'h' :: _ => some .help
      | '-' :: _ :: _ => none
      | _ => readArguments? signature false (← given.addFile? signature arg) rest

/-- Help about one of the commands, or about all of them. -/
def parseHelp : List String → Option Command
  | [] | ["compile"] | ["run"] | ["blocks"] | ["help"] => some .help
  | _ => none

/-- The command that the arguments spell. -/
def parse : List String → Option Command
  | [] => some .overview
  | "--" :: rest => if rest.isEmpty then some .overview else none
  | "--help" :: _ => some .help
  | "--version" :: _ => some .version
  | "help" :: rest => parseHelp rest
  | "compile" :: rest => do
    match ← readArguments? ⟨true, false⟩ false {} rest with
    | .help => return .help
    | .given given => return .compile (← given.file) given.init
  | "run" :: rest => do
    match ← readArguments? ⟨true, true⟩ false {} rest with
    | .help => return .help
    | .given given => return .run (← given.file) given.limit given.init
  | "blocks" :: rest => do
    match ← readArguments? ⟨false, false⟩ false {} rest with
    | .help => return .help
    | .given _ => return .blocks
  | arg :: _ =>
    match arg.toList with
    | '-' :: 'h' :: _ => some .help
    | '-' :: 'V' :: _ => some .version
    | _ => none

end BatchFlow.CommandLine
