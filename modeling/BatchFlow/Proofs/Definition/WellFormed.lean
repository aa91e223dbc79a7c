import BatchFlow.Proofs.Selector
import BatchFlow.Workflow.Resolve
import Mathlib.Logic.Relation

namespace BatchFlow

/-!
# Well-formed definitions

What makes a definition a workflow, said of the definition itself and of the manifests of its
blocks, without the steps by which it is checked.

* `PropertyKind.Fits`, `PropertyKind.Mentions` — which values a property may have, and the selectors
  that are written in a value.
* `Definition.Uses`, `Definition.Produces` — which selectors a step uses, and at what a selector can
  point.
* `Definition.Flow` — from where to where data and decisions flow.
* `Definition.WellFormed` — all of this taken together.
-/

/-! ### Values of properties -/

namespace Json

/-- Whether a value is meant as it stands: it is no text that starts like a selector. -/
def IsLiteral : Json → Prop
  | .string raw => looksLikeSelector raw = false
  | _ => True

/-- Whether a value is the text of a selector. -/
def Denotes (value : Json) (s : Selector) : Prop :=
  ∃ raw, value = .string raw ∧ Selector.parse raw = .ok s

/-- Whether a value is a literal or the text of a selector of data. -/
def IsTerm (value : Json) : Prop := value.IsLiteral ∨ ∃ s, value.Denotes s ∧ s.isData = true

/-- Whether a value references a step. -/
def IsReference (value : Json) : Prop := ∃ name, value.Denotes (.step name)

end Json

namespace PropertyKind

/-- Whether a property of some kind may have a value. -/
def Fits : PropertyKind → Json → Prop
  | .data .., value => value.IsTerm
  | .dataMap .., value => ∃ members, value = .object members ∧ ∀ m ∈ members, m.2.IsTerm
  | .stepTargets, value =>
    value.IsReference ∨ ∃ items, value = .array items ∧ ∀ item ∈ items, item.IsReference
  | .config, value => value.IsLiteral

/-- Whether a selector is written in a value of a property of some kind. -/
def Mentions : PropertyKind → Json → Selector → Prop
  | .data .., value, s => value.Denotes s
  | .dataMap .., value, s => ∃ members, value = .object members ∧ ∃ m ∈ members, m.2.Denotes s
  | .stepTargets, value, s =>
    value.Denotes s ∨ ∃ items, value = .array items ∧ ∃ item ∈ items, item.Denotes s
  | .config, _, _ => False

end PropertyKind

/-- Whether data of some kinds can meet a property that accepts others: one side puts no
    restriction, or they have a kind in common. -/
def Kind.Meet (produced accepted : List Kind) : Prop :=
  (produced = [] ∨ wildcard ∈ produced) ∨ (accepted = [] ∨ wildcard ∈ accepted) ∨
    ∃ kind ∈ produced, kind ∈ accepted

/-- Kinds are compatible when they meet. -/
theorem Kind.compatible_iff {produced accepted : List Kind} :
    compatible produced accepted = true ↔ Meet produced accepted := by
  simp [compatible, unrestricted, Meet, List.isEmpty_iff, or_assoc]

/-- Whether the manifests of all blocks have properties of different names. -/
def Registry.Distinct (registry : Registry) : Prop :=
  ∀ entry ∈ registry, (entry.2.manifest.properties.map (·.name)).Nodup

instance (registry : Registry) : Decidable registry.Distinct :=
  inferInstanceAs
    (Decidable (∀ entry ∈ registry, (entry.2.manifest.properties.map (·.name)).Nodup))

namespace Definition

variable (registry : Registry) (d : Definition)

/-! ### References -/

/-- Whether a step has a value for a property of its block, its own or the default. -/
def Gives (step : StepDef) (spec : PropertySpec) (value : Json) : Prop :=
  step ∈ d.steps ∧ ∃ m, registry.manifest? step.blockType = some m ∧ spec ∈ m.properties ∧
    rawValue? step.properties spec = some value

/-- Whether a step uses a selector in a property. -/
def Uses (step : StepDef) (spec : PropertySpec) (s : Selector) : Prop :=
  ∃ value, d.Gives registry step spec value ∧ spec.kind.Mentions value s

/-- What the declared inputs and steps produce, with its kinds. -/
inductive Produces : Selector → List Kind → Prop
  | input {i : InputDef} : i ∈ d.inputs → Produces (.input i.name) (i.kinds.map Kind.mk)
  | output {step : StepDef} {m : Manifest} {property : String} {o : OutputSpec} :
      step ∈ d.steps → registry.manifest? step.blockType = some m →
      m.output? property = some o → Produces (.output step.name property) o.kinds
  | allOutputs {step : StepDef} : step ∈ d.steps → Produces (.allOutputs step.name) [.wildcard]
  | step {step : StepDef} : step ∈ d.steps → Produces (.step step.name) [.wildcard]

/-- The flow of data from where it is produced to where it is used, and of decisions from a step to
    its targets. -/
inductive Flow : Node → Node → Prop
  | data {step : StepDef} {spec : PropertySpec} {s : Selector} :
      d.Uses registry step spec s → s.isData = true → Flow s.node (.step step.name)
  | target {step : StepDef} {spec : PropertySpec} {target : String} :
      d.Uses registry step spec (.step target) → Flow (.step step.name) (.step target)
  | output {o : OutputDef} {s : Selector} :
      o ∈ d.outputs → Selector.parse o.selector = .ok s → Flow s.node (.output o.name)

/-- Whether a definition describes a workflow of registered blocks. -/
structure WellFormed : Prop where
  version : (Text.pieces '.' d.version).head? = some "1"
  inputs_nodup : (d.inputs.map (·.name)).Nodup
  steps_nodup : (d.steps.map (·.name)).Nodup
  outputs_nodup : (d.outputs.map (·.name)).Nodup
  /-- Every step has a block that declares the properties that are set, and the step sets those
      that are required and have no default. -/
  registered : ∀ step ∈ d.steps, ∃ m, registry.manifest? step.blockType = some m ∧
    (∀ name ∈ step.properties.keys, ∃ spec ∈ m.properties, spec.name = name) ∧
    ∀ spec ∈ m.properties, spec.required = true → spec.default = none →
      spec.name ∈ step.properties.keys
  fits : ∀ step spec value, d.Gives registry step spec value → spec.kind.Fits value
  /-- Every output selects data that is produced. -/
  outputs_selected : ∀ o ∈ d.outputs, ∃ s kinds, Selector.parse o.selector = .ok s ∧
    s.isData = true ∧ d.Produces registry s kinds
  /-- Every selector that a step uses points at something. -/
  declared : ∀ step spec s, d.Uses registry step spec s → ∃ kinds, d.Produces registry s kinds
  kinds_meet : ∀ step spec s kinds, d.Uses registry step spec s → s.isData = true →
    d.Produces registry s kinds → Kind.Meet kinds spec.acceptedKinds
  no_self_target : ∀ step spec, ¬ d.Uses registry step spec (.step step.name)
  acyclic : ∀ node, ¬ Relation.TransGen (d.Flow registry) node node

end Definition

end BatchFlow
