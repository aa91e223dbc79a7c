import BatchFlow.Json.Record
import BatchFlow.Selector

namespace BatchFlow

/-!
# Arguments

An argument is what a step gives for a property, once selectors have been told from literals.

* `Term` — a literal or a selector. A text that starts with `$` is meant as a selector, and has to
  be one; all else is literal, texts inside lists and objects included.
* `Argument` — a term, steps that are targets of a decision, or named terms.
* `Argument.selectors` — the selectors in an argument, in order.
* `Argument.toJson`, `Argument.ofJson?` — the argument as a JSON value.
-/

/-- A literal or a selector. -/
inductive Term where
  | literal (value : Json)
  | selector (selector : Selector)
deriving DecidableEq

/-- What a step gives for a property. -/
inductive Argument where
  | term (term : Term)
  | targets (steps : List String)
  | map (entries : Table String Term)
deriving DecidableEq

/-- A text that starts like a selector and is none. -/
structure MalformedSelector where
  raw : String
  fault : SelectorFault
deriving DecidableEq, Repr

/-- Reads a selector and remembers the text if it is none. -/
def readSelector (raw : String) : Except MalformedSelector Selector :=
  match Selector.parse raw with
  | .ok selector => .ok selector
  | .error fault => .error ⟨raw, fault⟩

namespace Term

/-- Tells selectors from literals. -/
def read : Json → Except MalformedSelector Term
  | .string raw =>
    if looksLikeSelector raw then (readSelector raw).map .selector
    else .ok (.literal (.string raw))
  | value => .ok (.literal value)

/-- The selector in a term. -/
def selectors : Term → List Selector
  | .literal _ => []
  | .selector s => [s]

/-- A term as a tagged record; a selector is written as its text. -/
def toJson : Term → Json
  | .literal value => .object [("type", .string "literal"), ("value", value)]
  | .selector s => .object [("type", .string "selector"), ("value", .string s.text)]

end Term

/-- Reads an object of named terms. -/
def readTerms : List (String × Json) → Except MalformedSelector (Table String Term)
  | [] => .ok []
  | (name, value) :: rest => do return (name, ← Term.read value) :: (← readTerms rest)

namespace Argument

/-- The selectors in order. -/
def selectors : Argument → List Selector
  | .term t => t.selectors
  | .targets steps => steps.map .step
  | .map entries => entries.flatMap fun (_, t) => t.selectors

/-- Whether the argument lists targets of a decision. -/
def isTargets : Argument → Bool
  | .targets _ => true
  | _ => false

/-- An argument as a tagged record. -/
def toJson : Argument → Json
  | .term t => t.toJson
  | .targets steps => .object [("type", .string "targets"),
      ("value", .ofStrings (steps.map fun step => (Selector.step step).text))]
  | .map entries => .object [("type", .string "map"),
      ("value", .object (entries.map fun (name, t) => (name, t.toJson)))]

end Argument

/-! ### Reading the JSON form back -/

/-- The selector that a text denotes, if it denotes one. -/
def Selector.parse? (raw : String) : Option Selector := (Selector.parse raw).toOption

/-- The step that a text references. -/
def readStepReference? (raw : String) : Option String := do
  match ← Selector.parse? raw with
  | .step name => return name
  | _ => none

/-- The tag of a value and what it is about. -/
def readTagged? (j : Json) : Option (String × Json) := do
  let fields ← j.record? ["type", "value"]
  return (← fields.require? "type" Json.string?, ← fields.get? "value")

/-- A term from a tagged record. -/
def Term.ofJson? (j : Json) : Option Term := do
  let (tag, value) ← readTagged? j
  match tag with
  | "literal" => return .literal value
  | "selector" => return .selector (← Selector.parse? (← value.string?))
  | _ => none

/-- Named terms, one by one. -/
def readTermEntries? : List (String × Json) → Option (Table String Term)
  | [] => some []
  | (name, value) :: rest => do return (name, ← Term.ofJson? value) :: (← readTermEntries? rest)

/-- An argument from a tagged record. -/
def Argument.ofJson? (j : Json) : Option Argument := do
  let (tag, value) ← readTagged? j
  match tag with
  | "targets" => return .targets (← (← value.strings?).mapM readStepReference?)
  | "map" => return .map (← readTermEntries? (← value.object?))
  | _ => return .term (← Term.ofJson? j)

end BatchFlow
