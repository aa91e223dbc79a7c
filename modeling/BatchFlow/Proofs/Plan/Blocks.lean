import BatchFlow.Engine.Basic
import BatchFlow.Proofs.Block.Contract
import BatchFlow.Proofs.Plan.Coherence

namespace BatchFlow

/-!
# Steps and their blocks

* `Plan.Step.PassesTargets` — the properties for targets pass a step the names of its targets.
* `Definition.manifest_of_compile`, `Definition.passesTargets_of_compile` — a compiled step has the
  manifest of its block, and is passed the names of its targets.
* `Definition.keys_bindings_of_compile` — a compiled step binds properties of its block.
* `bindBlocks_eq_ok` — an engine has blocks of the registry.
* `Engine.exists_ofDefinition` — a definition that can be compiled has an engine.
-/

/-- The names that a list of texts lists. -/
theorem Json.mem_of_lists_ofStrings {texts : List String} {text : String}
    (h : (Json.ofStrings texts).Lists text) : text ∈ texts := by
  rcases h with h | ⟨items, h, hmem⟩
  · cases h
  · cases h
    obtain ⟨text', htext, he⟩ := List.mem_map.1 hmem
    cases he
    exact htext

/-- What is bound to the properties for targets are the names of the targets. -/
def Plan.Step.PassesTargets (step : Step) : Prop :=
  ∀ property b, (property, b) ∈ step.bindings → step.manifest.ListsTargets property →
    ∃ names, b = .source (.literal (.ofStrings names)) ∧ ∀ name ∈ names, name ∈ step.targets

/-- A property for targets is given targets. -/
theorem targets_of_interpret {name : String} {spec : PropertySpec} {raw : Json} {a : Argument}
    (h : interpret name spec raw = .ok a) (hkind : spec.kind = .stepTargets) :
    ∃ targets, a = .targets targets := by
  obtain ⟨targets, -, ha⟩ := (interpret_stepTargets_eq_ok_iff hkind).1 h
  exact ⟨targets, ha⟩

section Compile

variable {registry : Registry} {initParameters : Table String Json} {d : Definition} {p : Plan}

/-- A compiled step has the manifest of its block. -/
theorem Definition.manifest_of_compile (h : d.compile registry initParameters = .ok p)
    {step : Plan.Step} (hstep : step ∈ p.steps) :
    registry.manifest? step.blockType = some step.manifest := by
  obtain ⟨w, earlier, wstep, hw, hmem, hcompiled⟩ := exists_compileStep h hstep
  obtain ⟨-, htype, hmanifest, -⟩ := Plan.compileStep_eq_ok hcompiled
  rw [htype, hmanifest]
  exact hw.manifest_eq hmem

/-- A compiled step binds properties of its block, in their order, if no two have the same name. -/
theorem Definition.keys_bindings_of_compile (h : d.compile registry initParameters = .ok p)
    {step : Plan.Step} (hstep : step ∈ p.steps)
    (hnodup : (step.manifest.properties.map (·.name)).Nodup) :
    (Table.keys step.bindings).Sublist (step.manifest.properties.map (·.name)) := by
  obtain ⟨w, earlier, wstep, hw, hmem, hcompiled⟩ := exists_compileStep h hstep
  obtain ⟨-, -, hmanifest, -⟩ := Plan.compileStep_eq_ok hcompiled
  obtain ⟨sd, -, hresolved⟩ := exists_of_mem_mapM hw.steps_eq hmem
  obtain ⟨-, -, -, arguments, hread, harguments⟩ := resolveStep_eq_ok hresolved
  rw [hmanifest] at hnodup ⊢
  have hkeys := keys_readArguments hread
  rw [Plan.keys_bindings_of_compileStep hcompiled, harguments,
    Table.ofList_eq (hnodup.sublist hkeys)]
  exact hkeys

/-- A step of a plan hands its block the targets that the plan knows. -/
theorem Definition.passesTargets_of_compile (h : d.compile registry initParameters = .ok p)
    {step : Plan.Step} (hstep : step ∈ p.steps) : step.PassesTargets := by
  obtain ⟨w, earlier, wstep, hw, hmem, hcompiled⟩ := exists_compileStep h hstep
  obtain ⟨-, -, hmanifest, htargets, -, -, -, hfrom, -⟩ := Plan.compileStep_eq_ok hcompiled
  rintro property b hb ⟨-, hlists⟩
  obtain ⟨a, ha, hbind⟩ := hfrom property b hb
  obtain ⟨spec, hspec, hname, name, raw, hinterpret⟩ := hw.argument_interpreted hmem ha
  obtain ⟨targets, rfl⟩ :=
    targets_of_interpret hinterpret (hlists spec (hmanifest ▸ hspec) hname)
  cases hbind
  refine ⟨targets, rfl, fun target htarget => ?_⟩
  rw [htargets]
  exact Workflow.Step.mem_targets_iff.2 ⟨property, targets, ha, htarget⟩

end Compile

/-- The blocks that are looked up for some steps were found before or are in the registry. -/
theorem bindBlocks_eq_ok {registry : Registry} {found blocks : Table String Block}
    {steps : List Plan.Step} (h : bindBlocks registry found steps = .ok blocks) {blockType : String}
    {block : Block} (hblock : blocks.get? blockType = some block) :
    found.get? blockType = some block ∨ registry.get? blockType = some block := by
  induction steps generalizing found with
  | nil =>
    cases h
    exact Or.inl hblock
  | cons step rest ih =>
    unfold bindBlocks at h
    -- a type that was bound before is passed over
    split at h
    · exact ih h
    · split at h
      · rename_i first hfirst
        rcases ih h with hfound | hregistry
        · rw [Table.get?_put] at hfound
          split at hfound
          · rename_i htype
            cases hfound
            exact Or.inr (htype ▸ hfirst)
          · exact Or.inl hfound
        · exact Or.inr hregistry
      · cases h

/-- The blocks of some steps are looked up when the registry has them all. -/
theorem exists_bindBlocks {registry : Registry} {found : Table String Block}
    {steps : List Plan.Step} (hfound : ∀ blockType block,
      found.get? blockType = some block → registry.get? blockType = some block)
    (hsteps : ∀ step ∈ steps, ∃ block, registry.get? step.blockType = some block) :
    ∃ blocks, bindBlocks registry found steps = .ok blocks ∧
      (∀ blockType block, found.get? blockType = some block → blocks.get? blockType = some block) ∧
      ∀ step ∈ steps, blocks.get? step.blockType = registry.get? step.blockType := by
  induction steps generalizing found with
  | nil => exact ⟨found, rfl, fun _ _ => id, List.forall_mem_nil _⟩
  | cons step rest ih =>
    obtain ⟨⟨block, hblock⟩, hrest⟩ := List.forall_mem_cons.1 hsteps
    cases hhas : found.get? step.blockType with
    | some first =>
      obtain ⟨blocks, hbind, hkept, hblocks⟩ := ih hfound hrest
      refine ⟨blocks, ?_, hkept, List.forall_mem_cons.2 ⟨?_, hblocks⟩⟩
      · rw [bindBlocks, Table.contains, hhas]
        exact hbind
      · rw [hkept _ _ hhas, hfound _ _ hhas]
    | none =>
      have hput : ∀ blockType other, (found.put step.blockType block).get? blockType = some other →
          registry.get? blockType = some other := by
        intro blockType other hother
        rw [Table.get?_put] at hother
        split at hother
        · rename_i htype
          rw [← htype, hblock, hother]
        · exact hfound _ _ hother
      obtain ⟨blocks, hbind, hkept, hblocks⟩ := ih hput hrest
      refine ⟨blocks, ?_, fun blockType other hother => hkept _ _ ?_,
        List.forall_mem_cons.2 ⟨?_, hblocks⟩⟩
      · rw [bindBlocks, Table.contains, hhas, hblock]
        exact hbind
      -- the block that is found now was not found before, so nothing is overwritten
      · rw [Table.get?_put, if_neg]
        · exact hother
        · rintro rfl
          cases hhas.symm.trans hother
      · rw [hkept step.blockType block (by rw [Table.get?_put, if_pos rfl]), hblock]

/-- A definition that can be compiled has an engine, with the blocks of the registry. -/
theorem Engine.exists_ofDefinition {registry : Registry} {initParameters : Table String Json}
    {d : Definition} {p : Plan} (h : d.compile registry initParameters = .ok p)
    (settings : Settings) :
    ∃ engine, Engine.ofDefinition registry settings initParameters d = .ok engine ∧
      engine.plan = p ∧ ∀ step ∈ p.steps,
        engine.blocks.get? step.blockType = registry.get? step.blockType := by
  have hsteps : ∀ step ∈ p.steps, ∃ block, registry.get? step.blockType = some block := by
    intro step hstep
    obtain ⟨block, hblock, -⟩ := Option.map_eq_some_iff.1 (Definition.manifest_of_compile h hstep)
    exact ⟨block, hblock⟩
  have hnone : ∀ blockType block, Table.get? ([] : Table String Block) blockType = some block →
      registry.get? blockType = some block := fun _ _ hfound => by cases hfound
  obtain ⟨blocks, hbind, -, hblocks⟩ := exists_bindBlocks hnone hsteps
  exact ⟨⟨p, blocks, settings⟩, bind_eq_ok.2 ⟨p, h, bind_eq_ok.2 ⟨blocks, hbind, rfl⟩⟩, rfl,
    hblocks⟩

/-- An engine has the compiled plan and blocks of the registry. -/
theorem Engine.ofDefinition_eq_ok {registry : Registry} {settings : Settings}
    {initParameters : Table String Json} {d : Definition} {engine : Engine}
    (h : Engine.ofDefinition registry settings initParameters d = .ok engine) :
    d.compile registry initParameters = .ok engine.plan ∧
      ∀ blockType block, engine.blocks.get? blockType = some block →
        registry.get? blockType = some block := by
  obtain ⟨plan, hplan, h⟩ := bind_eq_ok.1 h
  obtain ⟨blocks, hblocks, h⟩ := bind_eq_ok.1 h
  cases pure_eq_ok.1 h
  exact ⟨hplan, fun blockType block hblock =>
    (bindBlocks_eq_ok hblocks hblock).resolve_left fun hnone => by cases hnone⟩

end BatchFlow
