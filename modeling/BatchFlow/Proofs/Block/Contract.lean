import BatchFlow.Block.Basic
import BatchFlow.Proofs.Outcome

namespace BatchFlow

/-!
# What blocks promise

A manifest says which sort of output a block returns for an element. The engine relies on it.

* `Manifest.Declares` — whether a step is among those that an element declares as targets.
* `Manifest.Promises` — whether an output is one that the manifest promises for an element.
* `Block.Honours`, `Registry.Honest` — blocks that return one promised output per element.
* `Block.IsElementwise` — a block deals with the elements of a batch one by one.
* `Block.honours_of_execute` — such a block honours its manifest when it does so element by element.
-/

/-- Whether a value is a text or lists it. -/
def Json.Lists (value : Json) (text : String) : Prop :=
  value = .string text ∨ ∃ items, value = .array items ∧ .string text ∈ items

/-- A text that was read from a list is one of its items. -/
theorem Json.string_mem_of_mapM {items : List Json} {texts : List String}
    (h : items.mapM Json.string? = some texts) {text : String} (htext : text ∈ texts) :
    .string text ∈ items := by
  obtain ⟨item, hitem, h⟩ := exists_of_mem_mapM? h htext
  cases item <;> cases h
  exact hitem

/-- A list of texts lists each of them. -/
theorem Json.lists_of_strings? {value : Json} {texts : List String}
    (h : value.strings? = some texts) {text : String} (htext : text ∈ texts) :
    value.Lists text := by
  obtain ⟨items, hitems, h⟩ := Option.bind_eq_some_iff.1 h
  cases value <;> cases hitems
  exact Or.inr ⟨items, rfl, string_mem_of_mapM h htext⟩

namespace Manifest

/-- Whether a property lists targets of decisions and nothing else. -/
def ListsTargets (m : Manifest) (property : String) : Prop :=
  (∃ spec ∈ m.properties, spec.name = property) ∧
    ∀ spec ∈ m.properties, spec.name = property → spec.kind = .stepTargets

instance (m : Manifest) (property : String) : Decidable (m.ListsTargets property) :=
  inferInstanceAs (Decidable (_ ∧ _))

/-- Whether a step is among those that the properties of an element declare as targets. -/
def Declares (m : Manifest) (inputs : Values) (target : String) : Prop :=
  ∃ property value, m.ListsTargets property ∧ inputs.get? property = some value ∧
    value.Lists target

/-- Whether an output is of the sort that the manifest promises: a decision for declared targets if
    the block decides, else a nested batch if it fans out, and values if it does not. -/
def Promises (m : Manifest) (inputs : Values) : Output → Prop
  | .decision next => m.flowControl = true ∧ ∀ target ∈ next, m.Declares inputs target
  | .nested _ => m.flowControl = false ∧ m.transform = .increment
  | .values _ => m.flowControl = false ∧ m.transform ≠ .increment

variable {m : Manifest} {inputs : Values} {property : String} {targets : List String}

/-- What a required list of targets contains is declared. -/
theorem declares_of_require? (hlists : m.ListsTargets property)
    (h : inputs.require? property Json.strings? = some targets) :
    ∀ target ∈ targets, m.Declares inputs target := by
  obtain ⟨value, hvalue, h⟩ := Option.bind_eq_some_iff.1 h
  exact fun target htarget => ⟨property, value, hlists, hvalue, Json.lists_of_strings? h htarget⟩

/-- What an optional list of targets contains is declared. -/
theorem declares_of_optional? (hlists : m.ListsTargets property)
    (h : inputs.optional? property [] Json.strings? = some targets) :
    ∀ target ∈ targets, m.Declares inputs target := by
  unfold Table.optional? at h
  split at h
  · cases h
    exact List.forall_mem_nil _
  · rename_i value hvalue
    exact fun target htarget => ⟨property, value, hlists, hvalue, Json.lists_of_strings? h htarget⟩

end Manifest

namespace Block

/-- Whether a block returns one promised output per element, whatever it is called with. -/
def Honours (block : Block) : Prop :=
  ∀ call inputs outputs,
    block.executeAll block.manifest.acceptsBatchInput call inputs = .ok outputs →
      List.Forall₂ block.manifest.Promises inputs outputs

/-- Whether a block makes of a batch what it makes of each of its elements. -/
def IsElementwise (block : Block) : Prop :=
  ∀ call inputs, block.executeBatch call inputs = inputs.mapM (block.execute call)

/-- Such a block returns the same in one call for the whole batch and one after another. -/
theorem IsElementwise.executeAll_eq {block : Block} (h : block.IsElementwise) (wholeBatch : Bool)
    (call : Call) (inputs : List Values) :
    block.executeAll wholeBatch call inputs = inputs.mapM (block.execute call) := by
  unfold executeAll
  split
  · exact h call inputs
  · rfl

/-- A block that deals with elements one by one honours its manifest when it does so for each. -/
theorem honours_of_execute {block : Block} (hblock : block.IsElementwise)
    (h : ∀ call inputs output, block.execute call inputs = .ok output →
      block.manifest.Promises inputs output) : block.Honours := by
  intro call inputs outputs houtputs
  rw [hblock.executeAll_eq] at houtputs
  exact (mapM_eq_ok.1 houtputs).imp fun inputs output => h call inputs output

end Block

namespace Registry

/-- Whether all blocks of a registry honour their manifests. -/
def Honest (registry : Registry) : Prop :=
  ∀ blockType block, registry.get? blockType = some block → block.Honours

/-- What is registered one after another was given or was there before. -/
theorem mem_of_registerAll {registry : Registry} {blocks : List Block} {blockType : String}
    {block : Block} (h : (registry.registerAll blocks).1.get? blockType = some block) :
    registry.get? blockType = some block ∨ block ∈ blocks := by
  induction blocks generalizing registry with
  | nil => exact Or.inl h
  | cons first rest ih =>
    unfold registerAll at h
    split at h
    · rename_i registry' hregister
      -- what the others found may be the first block, which had been registered for them
      rcases ih h with hfound | hmem
      · unfold register at hregister
        dsimp only at hregister
        split at hregister
        · cases hregister
        · cases hregister
          rw [Table.get?_put] at hfound
          split at hfound
          · cases hfound
            exact Or.inr List.mem_cons_self
          · exact Or.inl hfound
      · exact Or.inr (List.mem_cons_of_mem _ hmem)
    · exact Or.inl h

/-- Blocks that honour their manifests make an honest registry. -/
theorem honest_registerAll {blocks : List Block} (h : ∀ block ∈ blocks, block.Honours) :
    Honest (registerAll [] blocks).1 := by
  intro blockType block hblock
  rcases mem_of_registerAll hblock with hnone | hmem
  · cases hnone
  · exact h block hmem

end Registry

end BatchFlow
