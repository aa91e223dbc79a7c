import BatchFlow.Catalog.Builtins
import BatchFlow.CommandLine.Arguments
import BatchFlow.Plan.Json
import BatchFlow.Definition.Text
import BatchFlow.Run.Schedule

namespace BatchFlow.CommandLine

/-!
# Commands

* `Outcome` — what a command prints, or why it fails with which causes.
* `readPlan`, `readEngine`, `runOn` — the stages of a command, from the texts of its files on.
* `Outcome.exitCode`, `Outcome.errorText` — how an outcome shows.
-/

/-- A failure with its causes, nearest first. -/
structure Complaint where
  error : String
  causes : List String := []
deriving DecidableEq, Repr

/-- What comes of a command. -/
inductive Outcome where
  | printed (text : String)
  | failed (complaint : Complaint)
  | misused
deriving DecidableEq, Repr

/-- The line that stands for a command when none is given. -/
def overviewText : String := "retina - use --help to see available commands\n"

/-- What is printed for the version. -/
def versionText : String := "retina 0.0.1-alpha.0\n"

/-- What is printed for help. -/
def helpText : String :=
  "Usage: retina compile <WORKFLOW_FILE> [--init <KEY=VALUE>]\n" ++
  "       retina run <WORKFLOW_FILE> [--max-concurrent-steps <N>] [--init <KEY=VALUE>]\n" ++
  "       retina blocks\n"

/-- A value as it is printed. -/
def printJson (j : Json) : Outcome := .printed (j.pretty ++ "\n")

/-- An init parameter: a name and, after the first `=`, a JSON value or any other text. -/
def readInit (pair : String) : Except Complaint (String × Json) :=
  match splitOption pair.toList with
  | (_, none) => .error { error := s!"invalid init parameter '{pair}', expected KEY=VALUE" }
  | (name, some raw) => .ok (name, (Json.parse? raw).getD (.string raw))

/-- The init parameters; the last value of a name counts. -/
def readInits (pairs : List String) : Except Complaint (Table String Json) := do
  return Table.ofList (← pairs.mapM readInit)

/-- The definition in a file. `content` is the text of the file, or why it cannot be read. -/
def readDefinition (file : String) (content : Except String String) :
    Except Complaint Definition :=
  match content with
  | .error cause =>
    .error { error := s!"failed to read workflow file: {file}", causes := [cause] }
  | .ok text =>
    match Definition.ofText? text with
    | some d => .ok d
    | none => .error { error := s!"failed to parse workflow file: {file}" }

/-- A result on workflows as the result of a command. -/
def orInvalid {α : Type} : Except Rejection α → Except Complaint α
  | .ok a => .ok a
  | .error rejection => .error { error := "invalid workflow", causes := [rejection.message] }

/-- The plan of the workflow in a file. -/
def readPlan (file : String) (content : Except String String) (init : List String) :
    Except Complaint Plan := do
  let d ← readDefinition file content
  let initParameters ← readInits init
  orInvalid (d.compile Catalog.builtinRegistry initParameters)

/-- The engine of the workflow in a file. `setting` is the value of the environment variable for
    the limit. -/
def readEngine (file : String) (content : Except String String) (limit : Option Nat)
    (setting : Option String) (init : List String) : Except Complaint Engine := do
  let d ← readDefinition file content
  let initParameters ← readInits init
  let settings := match limit with
    | some n => Settings.ofLimit n
    | none => Settings.ofEnvironment setting
  orInvalid (Engine.ofDefinition Catalog.builtinRegistry settings initParameters d)

/-- The values for a run. A blank text supplies none. -/
def readParameters (text : String) : Except Complaint (Table String Json) :=
  if (Text.trim text.toList).isEmpty then .ok []
  else match (Json.parse? text).bind Json.object? with
    | some parameters => .ok parameters
    | none => .error { error := "failed to parse runtime parameters JSON from stdin" }

/-- The causes of a fault of a run: the fault, and the fault of the block behind it. -/
def causesOf (fault : RunFault) : List String :=
  fault.message :: match fault with
    | .block _ reported => [reported.message]
    | _ => []

/-- A run on the values in a text. -/
def runOn (engine : Engine) (draw : String → Float) (text : String) : Except Complaint Outcome := do
  let parameters ← readParameters text
  match (engine.run parameters { draw }).result with
  | .ok records => return printJson (.array (records.map .object))
  | .error fault =>
    .error { error := "workflow execution failed", causes := causesOf fault }

/-- A complaint as an outcome. -/
def orFailed : Except Complaint Outcome → Outcome
  | .ok outcome => outcome
  | .error complaint => .failed complaint

/-- The manifests of the available blocks, by type. -/
def blocksOutcome : Outcome :=
  let registry := Catalog.builtinRegistry
  printJson (.array ((registry.blockTypes.filterMap registry.manifest?).map Manifest.toJson))

/-- The outcome of a command other than a run. -/
def planOutcome (file : String) (content : Except String String) (init : List String) : Outcome :=
  orFailed (do return printJson (← readPlan file content init).toJson)

namespace Outcome

/-- The code with which the program ends. -/
def exitCode : Outcome → UInt32
  | .printed _ => 0
  | .failed _ => 1
  | .misused => 2

end Outcome

/-- The causes, numbered when there are several. -/
def causesText : List String → String
  | [] => ""
  | [cause] => "\n\nCaused by:\n    " ++ cause
  | causes => "\n\nCaused by:" ++
      String.join (causes.zipIdx.map fun (cause, n) => s!"\n    {n}: {cause}")

/-- A complaint as it is reported. -/
def Complaint.text (c : Complaint) : String := "Error: " ++ c.error ++ causesText c.causes

end BatchFlow.CommandLine
