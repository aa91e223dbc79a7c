import BatchFlow.Graph.Node
import BatchFlow.Text.Alphanumeric
import BatchFlow.Text.Split

namespace BatchFlow

/-!
# Selectors

A selector points at data of the workflow or at a step:

* `$inputs.<name>` — a workflow input;
* `$steps.<name>.<property>` — one output of a step;
* `$steps.<name>.*` — all outputs of a step;
* `$steps.<name>` — the step itself.

`Selector.parse` reads one and `Selector.text` writes it. Names consist of letters and numbers of
any script, `_`, `-` and `*`, and no input or step is named `*`.
-/

/-- A reference to data of the workflow or to a step. -/
inductive Selector where
  | input (name : String)
  | output (step property : String)
  | allOutputs (step : String)
  | step (name : String)
deriving DecidableEq, Repr

/-- Why a text is no selector. -/
inductive SelectorFault where
  | badSegment
  | badShape
deriving DecidableEq, Repr

/-- Whether a text is meant as a selector. -/
def looksLikeSelector (raw : String) : Bool := raw.toList.head? == some '$'

/-- The characters of names. -/
def isNameChar (c : Char) : Bool := Text.isAlphanumeric c || c == '_' || c == '-' || c == '*'

/-- Whether a part of a selector is a name. -/
def isName (part : String) : Bool := !part.isEmpty && part.toList.all isNameChar

namespace Selector

/-- The selector with these parts. -/
def ofParts? : List String → Option Selector
  | ["$inputs", name] => if name = "*" then none else some (.input name)
  | ["$steps", owner] => if owner = "*" then none else some (.step owner)
  | ["$steps", owner, property] =>
    if owner = "*" then none
    else if property = "*" then some (.allOutputs owner)
    else some (.output owner property)
  | _ => none

/-- The selector that a text denotes. -/
def parse (raw : String) : Except SelectorFault Selector :=
  let parts := Text.pieces '.' raw
  if !(parts.drop 1).all isName then .error .badSegment
  else match ofParts? parts with
    | some selector => .ok selector
    | none => .error .badShape

/-- The text of a selector. -/
def text : Selector → String
  | .input name => "$inputs." ++ name
  | .output owner property => "$steps." ++ owner ++ "." ++ property
  | .allOutputs owner => "$steps." ++ owner ++ ".*"
  | .step name => "$steps." ++ name

/-- The node at which a selector points. -/
def node : Selector → Node
  | .input name => .input name
  | .output owner _ | .allOutputs owner | .step owner => .step owner

/-- The step at which a selector points. -/
def stepName? : Selector → Option String
  | .input _ => none
  | .output owner _ | .allOutputs owner | .step owner => some owner

/-- Whether a selector addresses data and not a step as a whole. -/
def isData : Selector → Bool
  | .step _ => false
  | _ => true

end Selector

end BatchFlow
