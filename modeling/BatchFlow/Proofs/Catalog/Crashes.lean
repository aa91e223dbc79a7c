import BatchFlow.Proofs.Catalog.Contracts
import BatchFlow.Proofs.Run.Failure

namespace BatchFlow

/-!
# When a built-in block breaks off

A block that finds fault with its properties reports it, and the run ends with the name of the step
and that fault. One built-in block can break off instead: an image cannot be cut to a range whose
upper bound is below zero, so `crop` breaks off at the first detection on an image of negative size.

* `Reports` — whether a computation reports its faults and never breaks off, as every built-in block
  but `crop` does.
* `Catalog.Uncroppable` — an image of negative size, and a first detection with a box.
* `Catalog.crop_crashed_iff` — with these `crop` breaks off, and with nothing else.
* `Task.Uncroppable`, `Task.outcome_crashed_iff` — the tasks of built-in blocks that break off.
* `Catalog.breaks_off_iff` — the calls and the runs that break off.
-/

/-! ### Computations that report their faults -/

section Reports

variable {α β : Type}

/-- Whether a computation has a result or reports a fault. -/
def Reports (x : Except Failure α) : Prop := x ≠ .error .crashed

theorem reports_ok (a : α) : Reports (.ok a) := nofun

theorem reports_reported (fault : BlockFault) : Reports (.error (.reported fault) : Except _ α) :=
  nofun

/-- A chain whose first part reports its faults breaks off in the second part or not at all. -/
theorem Reports.bind_crashed_iff {x : Except Failure α} {f : α → Except Failure β}
    (hx : Reports x) : (x >>= f) = .error .crashed ↔ ∃ a, x = .ok a ∧ f a = .error .crashed := by
  rw [bind_eq_error]
  exact or_iff_right hx

/-- A chain reports its faults when its parts do. -/
theorem Reports.bind {x : Except Failure α} {f : α → Except Failure β} (hx : Reports x)
    (hf : ∀ a, Reports (f a)) : Reports (x >>= f) := by
  intro h
  obtain ⟨a, -, ha⟩ := hx.bind_crashed_iff.1 h
  exact hf a ha

/-- Properties that cannot be read are reported. -/
theorem reports_readInputs (inputs : Values) (read : Values → Option α) :
    Reports (readInputs inputs read) := by
  unfold readInputs
  split
  · exact reports_ok _
  · exact reports_reported _

/-- Faults in data are reported. -/
theorem reports_reportData (field : String) (x : Except Vision.DataFault α) :
    Reports (reportData field x) := by
  cases x with
  | ok a => exact reports_ok a
  | error fault => exact reports_reported _

/-- Faults of a query are reported. -/
theorem reports_reportQuery (x : Except Query.QueryFault α) : Reports (reportQuery x) := by
  cases x with
  | ok a => exact reports_ok a
  | error fault => exact reports_reported _

/-- A missing property is reported. -/
theorem reports_requireValue (inputs : Values) (name : String) :
    Reports (requireValue inputs name) := by
  unfold requireValue
  split
  · exact reports_reported _
  · exact reports_reported _
  · exact reports_ok _

end Reports

/-! ### Images and detections -/

namespace Vision

/-- The number that a member of an object is. -/
def numberAt? (fields : Table String Json) (name : String) : Option Float :=
  (fields.get? name).bind Json.float?

/-- Whether a value is an image with a side that is not at least zero. -/
def HasNegativeSide (j : Json) : Prop :=
  ∃ fields width height, j = .object fields ∧ numberAt? fields "width" = some width ∧
    numberAt? fields "height" = some height ∧ ¬ (0.0 ≤ width ∧ 0.0 ≤ height)

/-- Whether a value is a detection with numbers for its center and for its size. -/
def HasBox (j : Json) : Prop :=
  ∃ fields, j = .object fields ∧
    ∀ name ∈ ["x", "y", "width", "height"], ∃ x, numberAt? fields name = some x

/-- A field is read as the number that its member is. -/
theorem floatField_eq_ok_iff {fields : Table String Json} {name : String} {x : Float} :
    floatField fields name = .ok x ↔ numberAt? fields name = some x := by
  unfold floatField numberAt?
  cases fields.get? name with
  | none => simp
  | some j =>
    rw [Option.bind_some]
    dsimp only
    cases j.float? <;> simp

/-- A detection has a box when it has the numbers for it. -/
theorem Detection.exists_box_iff {d : Detection} : (∃ box, d.box = .ok box) ↔
    ∀ name ∈ ["x", "y", "width", "height"], ∃ x, numberAt? d.fields name = some x := by
  simp only [List.forall_mem_cons, ← floatField_eq_ok_iff]
  constructor
  · rintro ⟨box, hbox⟩
    obtain ⟨⟨x, y⟩, hcenter, hbox⟩ := bind_eq_ok.1 hbox
    obtain ⟨⟨width, height⟩, hsize, -⟩ := bind_eq_ok.1 hbox
    obtain ⟨x', hx, hcenter⟩ := bind_eq_ok.1 hcenter
    obtain ⟨y', hy, -⟩ := bind_eq_ok.1 hcenter
    obtain ⟨width', hwidth, hsize⟩ := bind_eq_ok.1 hsize
    obtain ⟨height', hheight, -⟩ := bind_eq_ok.1 hsize
    exact ⟨⟨x', hx⟩, ⟨y', hy⟩, ⟨width', hwidth⟩, ⟨height', hheight⟩, List.forall_mem_nil _⟩
  · rintro ⟨⟨x, hx⟩, ⟨y, hy⟩, ⟨width, hwidth⟩, ⟨height, hheight⟩, -⟩
    have hcenter : d.center = .ok (x, y) :=
      bind_eq_ok.2 ⟨x, hx, bind_eq_ok.2 ⟨y, hy, rfl⟩⟩
    have hsize : d.size = .ok (width, height) :=
      bind_eq_ok.2 ⟨width, hwidth, bind_eq_ok.2 ⟨height, hheight, rfl⟩⟩
    exact ⟨_, bind_eq_ok.2 ⟨_, hcenter, bind_eq_ok.2 ⟨_, hsize, rfl⟩⟩⟩

/-- A box cannot be cut to a size that is not at least zero. -/
theorem Box.clamp?_eq_none_iff {box : Box} {width height : Float} :
    box.clamp? width height = none ↔ ¬ (0.0 ≤ width ∧ 0.0 ≤ height) := by
  unfold Box.clamp?
  split <;> simp_all

/-- A detection is an object, with the members as its fields. -/
theorem Detection.ofJson_eq_ok_iff {j : Json} {d : Detection} :
    Detection.ofJson j = .ok d ↔ j = .object d.fields := by
  cases j with
  | object fields => exact ⟨fun h => by cases h; rfl, fun h => by cases h; rfl⟩
  | _ => exact iff_of_false nofun nofun

/-- An image is an object, with the members as its fields. -/
theorem Image.ofJson_eq_ok_iff {j : Json} {image : Image} :
    Image.ofJson j = .ok image ↔ j = .object image.fields := by
  cases j with
  | object fields => exact ⟨fun h => by cases h; rfl, fun h => by cases h; rfl⟩
  | _ => exact iff_of_false nofun nofun

end Vision

namespace Catalog

open Vision

/-! ### Blocks that report their faults -/

/-- A condition never breaks off. -/
theorem reports_condition (call : Call) (inputs : Values) :
    Reports (condition.execute call inputs) :=
  (reports_readInputs inputs _).bind fun _ => (reports_reportQuery _).bind fun _ => reports_ok _

/-- A gate never breaks off. -/
theorem reports_continueIf (call : Call) (inputs : Values) :
    Reports (continueIf.execute call inputs) :=
  (reports_readInputs inputs _).bind fun _ => (reports_reportQuery _).bind fun _ => reports_ok _

/-- A random choice never breaks off. -/
theorem reports_abTest (call : Call) (inputs : Values) : Reports (abTest.execute call inputs) := by
  refine (reports_readInputs inputs _).bind fun read => ?_
  split
  · exact reports_ok _
  · exact reports_reported _

/-- Changing detections never breaks off. -/
theorem reports_transformDetections (operations : List Query.Operation) (parameters : Values)
    (predictions : Json) : Reports (transformDetections operations parameters predictions) := by
  refine (reports_reportQuery _).bind fun changed => ?_
  split
  · exact reports_ok _
  · exact reports_reported _

/-- A filter of detections never breaks off. -/
theorem reports_detectionsFilter (call : Call) (inputs : Values) :
    Reports (detectionsFilter.execute call inputs) :=
  (reports_readInputs inputs _).bind fun _ => reports_transformDetections _ _ _

/-- A transformation of detections never breaks off. -/
theorem reports_detectionsTransformation (call : Call) (inputs : Values) :
    Reports (detectionsTransformation.execute call inputs) :=
  (reports_readInputs inputs _).bind fun _ => reports_transformDetections _ _ _

/-- A collapse never breaks off. -/
theorem reports_dimensionCollapse (call : Call) (inputs : Values) :
    Reports (dimensionCollapse.execute call inputs) := by
  refine (reports_requireValue inputs _).bind fun value => ?_
  split
  · exact reports_ok _
  · exact reports_reported _

/-- A random choice is made only with a probability between zero and one. -/
theorem probability_of_draw {call call' : Call} {inputs : Values}
    (h : abTest.execute call inputs ≠ abTest.execute call' inputs) :
    ∃ read, AbTestInputs.read? inputs = some read ∧
      0.0 ≤ read.probability ∧ read.probability ≤ 1.0 := by
  have hexecute : ∀ call, abTest.execute call inputs =
      (readInputs inputs AbTestInputs.read? >>= fun read =>
        if 0.0 ≤ read.probability ∧ read.probability ≤ 1.0 then
          .ok (.decision (if call.draw < read.probability then read.a else read.b))
        else .error (.reported (.probability read.probability))) := fun _ => rfl
  rw [hexecute, hexecute] at h
  cases hread : readInputs inputs AbTestInputs.read? with
  | error failure =>
    rw [hread] at h
    exact absurd rfl h
  | ok read =>
    refine ⟨read, readInputs_eq_ok.1 hread, ?_⟩
    -- outside the bounds the draw is not looked at
    by_contra hout
    rw [hread] at h
    refine h ?_
    show (if _ then _ else _) = (if _ then _ else _)
    rw [if_neg hout, if_neg hout]

/-! ### Crops -/

/-- Whether properties are an image of negative size, and detections of which the first has a
    box. -/
def Uncroppable (inputs : Values) : Prop :=
  ∃ image first rest, inputs.get? "image" = some image ∧ HasNegativeSide image ∧
    inputs.get? "predictions" = some (.array (first :: rest)) ∧ HasBox first

/-- Reporting faults changes no result. -/
theorem reportData_eq_ok {α : Type} {field : String} {x : Except DataFault α} {a : α} :
    reportData field x = .ok a ↔ x = .ok a := by
  cases x <;> simp [reportData]

/-- Cutting out one detection breaks off when it has a box and there is no range to which the box
    could be cut. -/
theorem cropOne_crashed_iff {image : Image} {position : Nat} {j : Json} :
    cropOne image position j = .error .crashed ↔
      HasNegativeSide (.object image.fields) ∧ HasBox j := by
  constructor
  · intro h
    obtain ⟨detection, hdetection, h⟩ := (reports_reportData _ _).bind_crashed_iff.1 h
    obtain ⟨width, hwidth, h⟩ := (reports_reportData _ _).bind_crashed_iff.1 h
    obtain ⟨height, hheight, h⟩ := (reports_reportData _ _).bind_crashed_iff.1 h
    obtain ⟨box, hbox, h⟩ := (reports_reportData _ _).bind_crashed_iff.1 h
    dsimp only at h
    split at h
    -- numbers that cannot be written are reported
    · exact absurd h ((reports_ok _).bind fun _ => (reports_reportData _ _).bind fun _ =>
        (reports_reportData _ _).bind fun _ => (reports_reportData _ _).bind fun _ =>
          (reports_reportData _ _).bind fun _ => (reports_reportData _ _).bind fun _ =>
            (reports_reportData _ _).bind fun _ => reports_ok _)
    · rename_i hclamp
      exact ⟨⟨image.fields, width, height, rfl, floatField_eq_ok_iff.1 (reportData_eq_ok.1 hwidth),
          floatField_eq_ok_iff.1 (reportData_eq_ok.1 hheight), Box.clamp?_eq_none_iff.1 hclamp⟩,
        detection.fields, Detection.ofJson_eq_ok_iff.1 (reportData_eq_ok.1 hdetection),
        Detection.exists_box_iff.1 ⟨box, reportData_eq_ok.1 hbox⟩⟩
  · rintro ⟨⟨fields, width, height, hfields, hwidth, hheight, hsides⟩, members, rfl, hmembers⟩
    cases hfields
    obtain ⟨box, hbox⟩ := Detection.exists_box_iff (d := ⟨members⟩).2 hmembers
    refine (reports_reportData _ _).bind_crashed_iff.2 ⟨⟨members⟩, rfl, ?_⟩
    refine (reports_reportData _ _).bind_crashed_iff.2
      ⟨width, reportData_eq_ok.2 (floatField_eq_ok_iff.2 hwidth), ?_⟩
    refine (reports_reportData _ _).bind_crashed_iff.2
      ⟨height, reportData_eq_ok.2 (floatField_eq_ok_iff.2 hheight), ?_⟩
    refine (reports_reportData _ _).bind_crashed_iff.2 ⟨box, reportData_eq_ok.2 hbox, ?_⟩
    rw [Box.clamp?_eq_none_iff.2 hsides]
    rfl

/-- What has been cut out had a box. -/
theorem hasBox_of_cropOne {image : Image} {position : Nat} {j crop : Json}
    (h : cropOne image position j = .ok crop) : HasBox j := by
  obtain ⟨detection, hdetection, h⟩ := bind_eq_ok.1 h
  obtain ⟨width, -, h⟩ := bind_eq_ok.1 h
  obtain ⟨height, -, h⟩ := bind_eq_ok.1 h
  obtain ⟨box, hbox, -⟩ := bind_eq_ok.1 h
  exact ⟨detection.fields, Detection.ofJson_eq_ok_iff.1 (reportData_eq_ok.1 hdetection),
    Detection.exists_box_iff.1 ⟨box, reportData_eq_ok.1 hbox⟩⟩

/-- Cutting out all detections breaks off at the first one or not at all, since whether there is a
    range to which boxes can be cut does not depend on the detection. -/
theorem cropAll_crashed_iff {image : Image} {position : Nat} {detections : List Json} :
    cropAll image position detections = .error .crashed ↔
      HasNegativeSide (.object image.fields) ∧
        ∃ first rest, detections = first :: rest ∧ HasBox first := by
  induction detections generalizing position with
  | nil => exact iff_of_false nofun fun ⟨_, _, _, h, _⟩ => nomatch h
  | cons first rest ih =>
    constructor
    · intro h
      rcases bind_eq_error.1 h with h | ⟨crop, hcrop, h⟩
      · obtain ⟨hside, hbox⟩ := cropOne_crashed_iff.1 h
        exact ⟨hside, first, rest, rfl, hbox⟩
      · rcases bind_eq_error.1 h with h | ⟨crops, -, h⟩
        · -- the first detection would have been the one at which this breaks off
          have hcrashed : cropOne image position first = .error .crashed :=
            cropOne_crashed_iff.2 ⟨(ih.1 h).1, hasBox_of_cropOne hcrop⟩
          rw [hcrop] at hcrashed
          cases hcrashed
        · cases h
    · rintro ⟨hside, _, _, hdetections, hbox⟩
      cases hdetections
      exact bind_eq_error.2 (Or.inl (cropOne_crashed_iff.2 ⟨hside, hbox⟩))

/-- An image of negative size with a box to be cut out breaks `crop` off, and nothing else does. -/
theorem crop_crashed_iff {call : Call} {inputs : Values} :
    crop.execute call inputs = .error .crashed ↔ Uncroppable inputs := by
  constructor
  · intro h
    obtain ⟨⟨image, predictions⟩, hread, h⟩ := (reports_readInputs _ _).bind_crashed_iff.1 h
    obtain ⟨image', himage, hread⟩ := Option.bind_eq_some_iff.1 (readInputs_eq_ok.1 hread)
    obtain ⟨predictions', hpredictions, hread⟩ := Option.bind_eq_some_iff.1 hread
    cases hread
    obtain ⟨fields, hfields, h⟩ := (reports_reportData _ _).bind_crashed_iff.1 h
    obtain ⟨detections, hdetections, h⟩ := (reports_reportData _ _).bind_crashed_iff.1 h
    -- reading and checking report their faults, so the cuts break off
    rcases bind_eq_error.1 h with h | ⟨crops, -, h⟩
    · obtain ⟨hside, first, rest, rfl, hbox⟩ := cropAll_crashed_iff.1 h
      rw [← Image.ofJson_eq_ok_iff.1 (reportData_eq_ok.1 hfields)] at hside
      rw [asArray_eq_ok_iff.1 (reportData_eq_ok.1 hdetections)] at hpredictions
      exact ⟨image, first, rest, himage, hside, hpredictions, hbox⟩
    · cases h
  · rintro ⟨image, first, rest, himage, ⟨fields, width, height, rfl, hsides⟩, hpredictions, hbox⟩
    have hread : (do return (← inputs.get? "image", ← inputs.get? "predictions")) =
        some (Json.object fields, Json.array (first :: rest)) := by
      rw [himage, hpredictions]
      rfl
    refine (reports_readInputs _ _).bind_crashed_iff.2 ⟨_, readInputs_eq_ok.2 hread, ?_⟩
    refine (reports_reportData _ _).bind_crashed_iff.2 ⟨⟨fields⟩, rfl, ?_⟩
    refine (reports_reportData _ _).bind_crashed_iff.2 ⟨first :: rest, rfl, ?_⟩
    refine bind_eq_error.2 (Or.inl (cropAll_crashed_iff.2 ⟨?_, first, rest, rfl, hbox⟩))
    exact ⟨fields, width, height, rfl, hsides⟩

/-- Of the built-in blocks none but `crop` breaks off, and that one only for an image of negative
    size with a box to be cut out. -/
theorem crashed_iff_of_mem_builtins {block : Block} (h : block ∈ builtins) {call : Call}
    {inputs : Values} : block.execute call inputs = .error .crashed ↔
      block.manifest.blockType = "Crop" ∧ Uncroppable inputs := by
  have hreports : ∀ {block : Block}, block.manifest.blockType ≠ "Crop" →
      Reports (block.execute call inputs) → (block.execute call inputs = .error .crashed ↔
        block.manifest.blockType = "Crop" ∧ Uncroppable inputs) :=
    fun htype hreports => iff_of_false hreports fun h => htype h.1
  simp only [builtins, List.mem_cons, List.not_mem_nil, or_false] at h
  rcases h with rfl | rfl | rfl | rfl | rfl | rfl | rfl
  · exact hreports (by decide) (reports_condition call inputs)
  · exact hreports (by decide) (reports_continueIf call inputs)
  · exact hreports (by decide) (reports_abTest call inputs)
  · rw [crop_crashed_iff]
    exact (and_iff_right rfl).symm
  · exact hreports (by decide) (reports_detectionsFilter call inputs)
  · exact hreports (by decide) (reports_detectionsTransformation call inputs)
  · exact hreports (by decide) (reports_dimensionCollapse call inputs)

/-- The built-in blocks have no call of their own for whole batches. -/
theorem isElementwise_of_mem_builtins : ∀ block ∈ builtins, block.IsElementwise := by
  simp only [builtins, List.forall_mem_cons]
  exact ⟨fun _ _ => rfl, fun _ _ => rfl, fun _ _ => rfl, fun _ _ => rfl, fun _ _ => rfl,
    fun _ _ => rfl, fun _ _ => rfl, List.forall_mem_nil _⟩

/-- What is registered among the built-in blocks is one of them, under its own type. -/
theorem of_builtinRegistry {blockType : String} {block : Block}
    (h : builtinRegistry.get? blockType = some block) :
    block ∈ builtins ∧ block.manifest.blockType = blockType := by
  have hregistry : builtinRegistry = builtins.map fun b => (b.manifest.blockType, b) := rfl
  rw [hregistry] at h
  obtain ⟨b, hb, he⟩ := List.mem_map.1 (Table.mem_of_get? h)
  cases he
  exact ⟨hb, rfl⟩

end Catalog

/-! ### Tasks and runs -/

/-- Whether a task cuts out boxes and comes to an image of negative size with a box to be cut
    out. -/
def Task.Uncroppable (task : Task) : Prop :=
  task.step.blockType = "Crop" ∧ ∃ before inputs after,
    task.elements.map (·.2) = before ++ inputs :: after ∧
    (∀ earlier ∈ before, ∃ output, Catalog.crop.execute {} earlier = .ok output) ∧
    Catalog.Uncroppable inputs

/-- The call of a built-in block breaks off when it comes to a box to be cut out of an image of
    negative size. -/
theorem Task.outcome_crashed_iff {context : RunContext}
    (hblocks : context.engine.blocks = Catalog.builtinRegistry) {task : Task} :
    task.outcome context = .error .crashed ↔ task.Uncroppable := by
  have hcrop : Table.get? Catalog.builtinRegistry "Crop" = some Catalog.crop := rfl
  unfold outcome Uncroppable
  rw [hblocks]
  split
  · rename_i block hblock
    obtain ⟨hmem, htype⟩ := Catalog.of_builtinRegistry hblock
    -- element by element, the first call that has no result decides
    rw [(Catalog.isElementwise_of_mem_builtins block hmem).executeAll_eq, mapM_eq_error_iff]
    simp only [Catalog.crashed_iff_of_mem_builtins hmem, htype]
    constructor
    · rintro ⟨before, inputs, after, hsplit, hbefore, hcuts, hinputs⟩
      rw [hcuts, hcrop] at hblock
      cases hblock
      exact ⟨hcuts, before, inputs, after, hsplit, hbefore, hinputs⟩
    · rintro ⟨hcuts, before, inputs, after, hsplit, hbefore, hinputs⟩
      rw [hcuts, hcrop] at hblock
      cases hblock
      exact ⟨before, inputs, after, hsplit, hbefore, hcuts, hinputs⟩
  · rename_i hnone
    -- without a block of its type the step reports a fault
    refine iff_of_false nofun fun ⟨htype, _⟩ => ?_
    rw [htype, hcrop] at hnone
    cases hnone

/-- Of the built-in blocks only `crop` ever breaks off, and it does so exactly when it is to cut a
    box out of an image of negative size; a random choice is made with a probability between zero
    and one. A run with the built-in blocks breaks off exactly when a task that comes to such a box
    is the first to fail. It ends with the name of a step and a fault exactly when that step was the
    first to fail, and its block reported that fault. -/
theorem Catalog.breaks_off_iff (call : Call) (inputs : Values) (plan : Plan) (settings : Settings) :
    (∀ block ∈ builtins, block.execute call inputs = .error .crashed ↔
      block.manifest.blockType = "Crop" ∧ Uncroppable inputs) ∧
    (∀ other, abTest.execute call inputs ≠ abTest.execute other inputs →
      ∃ read, AbTestInputs.read? inputs = some read ∧
        0.0 ≤ read.probability ∧ read.probability ≤ 1.0) ∧
    ∀ parameters options prepared, prepare plan.inputs parameters = .ok prepared →
      options.cancelled = false →
      let engine : Engine := ⟨plan, builtinRegistry, settings⟩
      let context : RunContext := ⟨engine, prepared.store, options.draw⟩
      let initial := RunState.initial plan prepared.shape
      let final := engine.finalState options prepared
      let result := (engine.run parameters options).result
      (result = .error .crashed ↔ ∃ s i task fault,
        FirstFailure context initial s i task fault final ∧ task.Uncroppable) ∧
      ∀ name reason, result = .error (.block name reason) ↔ ∃ s i task fault,
        FirstFailure context initial s i task fault final ∧
        task.step.name = name ∧ task.outcome context = .error (.reported reason) := by
  refine ⟨fun block hblock => crashed_iff_of_mem_builtins hblock, fun other => probability_of_draw,
    fun parameters options prepared hprepare hoptions => ?_⟩
  intro engine context initial final result
  -- the result of a run is the fault of its first failure
  have hresult : ∀ fault, (engine.run parameters options).result = .error fault ↔ ∃ s i task,
      FirstFailure context initial s i task fault final := fun fault =>
    Engine.run_eq_error_iff hprepare hoptions
  constructor
  · rw [hresult]
    constructor
    · rintro ⟨s, i, task, hfirst⟩
      exact ⟨s, i, task, .crashed, hfirst,
        (Task.outcome_crashed_iff rfl).1 (hfirst.fails.eq_crashed_iff.1 rfl)⟩
    · rintro ⟨s, i, task, fault, hfirst, htask⟩
      obtain rfl := hfirst.fails.eq_crashed_iff.2 ((Task.outcome_crashed_iff rfl).2 htask)
      exact ⟨s, i, task, hfirst⟩
  · intro name reason
    rw [hresult]
    constructor
    · rintro ⟨s, i, task, hfirst⟩
      exact ⟨s, i, task, _, hfirst, hfirst.fails.eq_block_iff.1 rfl⟩
    · rintro ⟨s, i, task, fault, hfirst, htask⟩
      obtain rfl := hfirst.fails.eq_block_iff.2 htask
      exact ⟨s, i, task, hfirst⟩

namespace Sample

/-- A step that cuts boxes out of images. -/
def cropping : Definition where
  version := "1.0"
  inputs := [.batch "image" 1 [], .batch "boxes" 1 []]
  steps := [⟨"Crop", "crop",
    [("image", .string "$inputs.image"), ("predictions", .string "$inputs.boxes")]⟩]
  outputs := [⟨"crops", "$steps.crop.crops"⟩]

/-- An image of negative width. -/
def flippedImage : Json := .object [("width", .ofInt (-1)), ("height", .ofNat 4)]

/-- A detection with a box. -/
def unitBox : Json :=
  .object [("x", .ofNat 0), ("y", .ofNat 0), ("width", .ofNat 1), ("height", .ofNat 1)]

/-- One image of negative width and one box in it. -/
def flippedInput : Table String Json :=
  [("image", .array [flippedImage]), ("boxes", .array [.array [unitBox]])]

end Sample

/-- A box that is to be cut out of an image of negative width breaks the call off, and the run. -/
theorem Catalog.breaks_off_flipped :
    let inputs : Values :=
      [("image", Sample.flippedImage), ("predictions", .array [Sample.unitBox])]
    crop.execute {} inputs = .error .crashed ∧ ∃ plan prepared s i task fault,
      Sample.cropping.compile builtinRegistry [] = .ok plan ∧
      prepare plan.inputs Sample.flippedInput = .ok prepared ∧
      let engine : Engine := ⟨plan, builtinRegistry, {}⟩
      (engine.run Sample.flippedInput).result = .error .crashed ∧
      FirstFailure ⟨engine, prepared.store, fun _ => 0.5⟩ (.initial plan prepared.shape) s i task
        fault (engine.finalState {} prepared) ∧
      task.Uncroppable := by
  intro inputs
  have hfound : ((Sample.cropping.compile builtinRegistry []).toOption.bind fun plan =>
      (prepare plan.inputs Sample.flippedInput).toOption.bind fun prepared =>
        if (Engine.finalState ⟨plan, builtinRegistry, {}⟩ {} prepared).failure = some .crashed
        then some () else none).isSome := by
    decide +kernel
  obtain ⟨_, hfound⟩ := Option.isSome_iff_exists.1 hfound
  obtain ⟨plan, hcompile, hfound⟩ := Option.bind_eq_some_iff.1 hfound
  obtain ⟨prepared, hprepare, hfound⟩ := Option.bind_eq_some_iff.1 hfound
  obtain ⟨hfailure, -⟩ := Option.ite_none_right_eq_some.1 hfound
  have hprepare := toOption_eq_some.1 hprepare
  have hrun : (Engine.run ⟨plan, builtinRegistry, {}⟩ Sample.flippedInput).result =
      .error .crashed := by
    rw [Engine.run_eq_resultOf hprepare rfl, Engine.resultOf_eq_error_iff]
    exact hfailure
  have hside : Vision.HasNegativeSide Sample.flippedImage :=
    ⟨_, floatOfInt (-1), floatOfInt 4, rfl, rfl, rfl, by decide +kernel⟩
  have hbox : Vision.HasBox Sample.unitBox := by
    refine ⟨_, rfl, ?_⟩
    simp only [List.forall_mem_cons]
    exact ⟨⟨_, rfl⟩, ⟨_, rfl⟩, ⟨_, rfl⟩, ⟨_, rfl⟩, List.forall_mem_nil _⟩
  obtain ⟨hcalls, -, hends⟩ := Catalog.breaks_off_iff {} inputs plan {}
  obtain ⟨hcrashed, -⟩ := hends Sample.flippedInput {} prepared hprepare rfl
  obtain ⟨s, i, task, fault, hfirst, htask⟩ := hcrashed.1 hrun
  refine ⟨(hcalls crop (by simp [builtins])).2 ⟨rfl, _, _, [], rfl, hside, rfl, hbox⟩, plan,
    prepared, s, i, task, fault, toOption_eq_some.1 hcompile, hprepare, hrun, hfirst, htask⟩

end BatchFlow
