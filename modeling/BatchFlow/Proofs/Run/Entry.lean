import BatchFlow.Proofs.Batch.Indices
import BatchFlow.Proofs.Outcome
import BatchFlow.Run.State

namespace BatchFlow

/-!
# What a step leaves behind

* `Entry` — a step that is done, with what it returned at each element.
* `Entry.produced`, `Entry.counts`, `Entry.decisions` — the values, the numbers of children and the
  decisions in it.
* `Output.Fits` — whether an output is of the sort that the manifest of its step asks for.
* `Recording.addAll_eq_ok`, `Recording.exists_addAll_iff` — what is recorded of the outputs of a
  step, and when they can be recorded.
* `Recording.addAll_eq_error_iff` — what stays recorded when one of them is refused.
-/

/-- A step that is done, with what it returned at each element; nothing if it was passed over. -/
structure Entry where
  step : Plan.Step
  outputs : List (Index × Output)

namespace Entry

/-- The values of one output, under the step and the indices to which they belong. -/
def valuesOf (step : String) : Index × Output → List ((String × Index) × Values)
  | (index, .values values) => [((step, index), values)]
  | (index, .nested items) =>
    items.zipIdx.map fun (values, position) => ((step, index ++ [position]), values)
  | (_, .decision _) => []

/-- The values that the step produced, in order. -/
def produced (e : Entry) : List ((String × Index) × Values) :=
  e.outputs.flatMap (valuesOf e.step.name)

/-- The number of children to which one output fans out. -/
def countOf (lineage : Lineage) : Index × Output → Option ((Lineage × Index) × Nat)
  | (index, .nested items) => some ((lineage, index), items.length)
  | _ => none

/-- The numbers of children to which the elements of the step fan out. -/
def counts (e : Entry) : List ((Lineage × Index) × Nat) :=
  e.outputs.filterMap (countOf e.step.alignment.outputLineage)

/-- The decision of one output. -/
def decisionOf : Index × Output → Option (Index × List String)
  | (index, .decision next) => some (index, next)
  | _ => none

/-- The decisions that the step made. -/
def decisions (e : Entry) : List (Index × List String) := e.outputs.filterMap decisionOf

/-- The decisions of an entry are among its outputs. -/
theorem mem_decisions {e : Entry} {index : Index} {next : List String} :
    (index, next) ∈ e.decisions ↔ (index, .decision next) ∈ e.outputs := by
  rw [decisions, List.mem_filterMap]
  constructor
  · rintro ⟨⟨i, o⟩, hmem, he⟩
    cases o <;> cases he
    exact hmem
  · intro hmem
    exact ⟨_, hmem, rfl⟩

end Entry

/-- The values of an output belong to its index, or to the children of this index. -/
theorem Entry.mem_keys_valuesOf {step : String} {index : Index} {output : Output}
    {key : String × Index} (h : key ∈ Table.keys (valuesOf step (index, output))) :
    key.1 = step ∧ ((∃ values, output = .values values ∧ key.2 = index) ∨
      ∃ items k, output = .nested items ∧ k < items.length ∧ key.2 = index ++ [k]) := by
  cases output with
  | values values =>
    obtain rfl := List.mem_singleton.1 h
    exact ⟨rfl, Or.inl ⟨values, rfl, rfl⟩⟩
  | nested items =>
    obtain ⟨⟨key', values⟩, hentry, rfl⟩ := List.mem_map.1 h
    obtain ⟨⟨item, k⟩, hitem, he⟩ := List.mem_map.1 hentry
    cases he
    have hk := (List.getElem?_eq_some_iff.1 (List.mem_zipIdx_iff_getElem?.1 hitem)).1
    exact ⟨rfl, Or.inr ⟨items, k, rfl, hk, rfl⟩⟩
  | decision next => cases h

/-- One output has one value per index. -/
theorem Entry.nodup_keys_valuesOf (step : String) (o : Index × Output) :
    (Table.keys (valuesOf step o)).Nodup := by
  obtain ⟨index, output⟩ := o
  cases output with
  | values values => exact List.nodup_singleton _
  | nested items =>
    have hkeys : Table.keys (valuesOf step (index, .nested items)) =
        (items.zipIdx.map (·.2)).map fun position => (step, index ++ [position]) := by
      rw [valuesOf, Table.keys, List.map_map, List.map_map]
      rfl
    rw [hkeys, List.zipIdx_map_snd]
    exact List.Nodup.map (fun k k' he => by simpa using he) List.nodup_range'
  | decision next => exact List.nodup_nil

/-- Whether an output is of the sort that the manifest of its step asks for: a decision about its
    targets, a nested batch or values. -/
def Output.Fits (step : Plan.Step) : Output → Prop
  | .decision next => step.manifest.flowControl = true ∧ ∀ name ∈ next, name ∈ step.targets
  | .nested _ => step.manifest.flowControl = false ∧ step.manifest.transform = .increment
  | .values _ => step.manifest.flowControl = false ∧ step.manifest.transform ≠ .increment

/-- Outputs of the right sort at different indices have values under different keys. -/
theorem Entry.nodup_keys_produced {step : Plan.Step} {outputs : List (Index × Output)}
    (hnodup : (outputs.map (·.1)).Nodup) (hfits : ∀ o ∈ outputs, o.2.Fits step) :
    (Table.keys (produced ⟨step, outputs⟩)).Nodup := by
  rw [Table.keys, produced, List.map_flatMap, List.nodup_flatMap]
  refine ⟨fun o _ => nodup_keys_valuesOf step.name o, ?_⟩
  refine (List.pairwise_map.1 hnodup).imp_of_mem ?_
  rintro ⟨index, output⟩ ⟨index', output'⟩ hmem hmem' hne key hkey hkey'
  refine hne ?_
  obtain ⟨-, ⟨values, rfl, he⟩ | ⟨items, k, rfl, -, he⟩⟩ := mem_keys_valuesOf hkey
  · obtain ⟨-, ⟨values', rfl, he'⟩ | ⟨items', k', rfl, -, he'⟩⟩ := mem_keys_valuesOf hkey'
    · exact he.symm.trans he'
    -- a step does not return both sorts
    · exact absurd (hfits _ hmem').2 (hfits _ hmem).2
  · obtain ⟨-, ⟨values', rfl, he'⟩ | ⟨items', k', rfl, -, he'⟩⟩ := mem_keys_valuesOf hkey'
    · exact absurd (hfits _ hmem).2 (hfits _ hmem').2
    · exact List.append_inj_left' (he.symm.trans he') rfl

namespace RunState.Recording

variable {step : Plan.Step} {r r' : Recording} {index : Index} {output : Output}
  {outputs : List (Index × Output)}

/-- Nested outputs are written one after another. -/
theorem putNested_results (r : Recording) (step : String) (index : Index) (items : List Values) :
    (r.putNested step index items).results =
      r.results.writeAll (Entry.valuesOf step (index, .nested items)) := by
  rw [putNested, Entry.valuesOf, Table.writeAll, List.foldl_map]

/-- What is recorded of one output. -/
theorem add_eq_ok (h : r.add step index output = .ok r') :
    output.Fits step ∧
      r'.results = r.results.writeAll (Entry.valuesOf step.name (index, output)) ∧
      (∀ key, r'.shape.counts.get? key = (r.shape.counts.get? key).or
        (Table.get? (Entry.countOf step.alignment.outputLineage (index, output)).toList key)) ∧
      r'.decisions = r.decisions ++ (Entry.decisionOf (index, output)).toList := by
  have hsame : ∀ key, r.shape.counts.get? key = (r.shape.counts.get? key).or
      (Table.get? (none : Option ((Lineage × Index) × Nat)).toList key) := fun key =>
    (Option.or_none).symm
  -- the splits follow the arms of `add`: a decision, plain values twice, nested values and the
  -- three refusals
  unfold add at h
  split at h
  · rename_i next hflow
    split at h
    · cases h
    · rename_i hnone
      cases h
      refine ⟨⟨hflow, fun name hname => ?_⟩, rfl, hsame, rfl⟩
      simpa using List.find?_eq_none.1 hnone name hname
  · cases h
  · rename_i hflow ht
    cases h
    exact ⟨⟨hflow, by rw [ht]; exact fun h => by cases h⟩, rfl, hsame, (List.append_nil _).symm⟩
  · rename_i hflow ht
    cases h
    exact ⟨⟨hflow, by rw [ht]; exact fun h => by cases h⟩, rfl, hsame, (List.append_nil _).symm⟩
  · rename_i items hflow ht
    split at h
    · cases h
    · rename_i shape hshape
      cases h
      refine ⟨⟨hflow, ht⟩, putNested_results _ _ _ _, fun key => ?_, (List.append_nil _).symm⟩
      exact BatchStructure.get?_register hshape key
  · cases h
  · cases h

/-- When one output can be recorded. -/
theorem exists_add_iff : (∃ r', r.add step index output = .ok r') ↔
    output.Fits step ∧ ∀ entry,
      Entry.countOf step.alignment.outputLineage (index, output) = some entry →
      (r.shape.counts.get? entry.1).or (some entry.2) = some entry.2 := by
  constructor
  · rintro ⟨r', h⟩
    refine ⟨(add_eq_ok h).1, fun entry hentry => ?_⟩
    cases output with
    | values values => cases hentry
    | decision next => cases hentry
    | nested items =>
      cases hentry
      obtain ⟨hflow, ht⟩ := (add_eq_ok h).1
      simp only [add, hflow, ht] at h
      split at h
      · cases h
      · rename_i shape hshape
        have hexisting := BatchStructure.register_eq_ok_iff.1 ⟨_, hshape⟩
        cases he : r.shape.counts.get? (step.alignment.outputLineage, index) with
        | none => rfl
        | some existing => rw [Option.some_or, hexisting existing he]
  · rintro ⟨hfits, hcounts⟩
    -- each sort of output has a branch of its own in `add`
    cases output with
    | decision next =>
      obtain ⟨hflow, htargets⟩ := hfits
      have hnone : (next.find? fun name => !step.targets.contains name) = none := by
        rw [List.find?_eq_none]
        intro name hname
        simpa using htargets name hname
      simp only [add, hflow, hnone]
      exact ⟨_, rfl⟩
    | values values =>
      obtain ⟨hflow, ht⟩ := hfits
      cases htransform : step.manifest.transform with
      | increment => exact absurd htransform ht
      | identity => simp only [add, hflow, htransform]; exact ⟨_, rfl⟩
      | decrement => simp only [add, hflow, htransform]; exact ⟨_, rfl⟩
    | nested items =>
      obtain ⟨hflow, ht⟩ := hfits
      have hregister : ∃ shape,
          r.shape.register step.alignment.outputLineage index items.length = .ok shape := by
        refine BatchStructure.register_eq_ok_iff.2 fun existing he => ?_
        have := hcounts _ rfl
        rw [show r.shape.counts.get? (step.alignment.outputLineage, index) = some existing from he]
          at this
        simpa using this
      obtain ⟨shape, hshape⟩ := hregister
      simp only [add, hflow, ht, hshape]
      exact ⟨_, rfl⟩

/-- The first output may fan out, and then has a number of children. -/
theorem counts_cons (step : Plan.Step) (first : Index × Output) (rest : List (Index × Output)) :
    Entry.counts ⟨step, first :: rest⟩ =
      (Entry.countOf step.alignment.outputLineage first).toList ++ Entry.counts ⟨step, rest⟩ := by
  rw [Entry.counts, Entry.counts, List.filterMap_cons]
  cases Entry.countOf step.alignment.outputLineage first <;> rfl

/-- Outputs are recorded one after another. -/
theorem addAll_cons_eq_ok {rest : List (Index × Output)} :
    addAll step r ((index, output) :: rest) = .ok r' ↔
      ∃ r₁, r.add step index output = .ok r₁ ∧ addAll step r₁ rest = .ok r' := by
  rw [addAll]
  cases r.add step index output <;> simp

/-- What is recorded of the outputs of a step. -/
theorem addAll_eq_ok (h : addAll step r outputs = .ok r') :
    (∀ entry ∈ outputs, entry.2.Fits step) ∧
      r'.results = r.results.writeAll (Entry.produced ⟨step, outputs⟩) ∧
      (∀ key, r'.shape.counts.get? key =
        (r.shape.counts.get? key).or (Table.get? (Entry.counts ⟨step, outputs⟩) key)) ∧
      r'.decisions = r.decisions ++ Entry.decisions ⟨step, outputs⟩ := by
  induction outputs generalizing r with
  | nil =>
    cases h
    exact ⟨List.forall_mem_nil _, rfl, fun key => (Option.or_none).symm, (List.append_nil _).symm⟩
  | cons first rest ih =>
    obtain ⟨index, output⟩ := first
    obtain ⟨r₁, hadd, h⟩ := addAll_cons_eq_ok.1 h
    obtain ⟨hfits, hresults, hcounts, hdecisions⟩ := add_eq_ok hadd
    obtain ⟨hfits', hresults', hcounts', hdecisions'⟩ := ih h
    refine ⟨List.forall_mem_cons.2 ⟨hfits, hfits'⟩, ?_, fun key => ?_, ?_⟩
    · rw [hresults', hresults]
      exact (List.foldl_append).symm
    · rw [hcounts', hcounts, Option.or_assoc, counts_cons, Table.get?_append]
    · rw [hdecisions', hdecisions, List.append_assoc, Entry.decisions, Entry.decisions,
        List.filterMap_cons]
      cases Entry.decisionOf (index, output) <;> rfl

/-- Recording keeps the numbers of children that have been noted. -/
theorem addAll_extends (h : addAll step r outputs = .ok r') : r.shape.Extends r'.shape := by
  intro l index n hn
  have hget := (addAll_eq_ok h).2.2.1 (l, index)
  rwa [show r.shape.counts.get? (l, index) = some n from hn, Option.some_or] at hget

/-- When outputs cannot be recorded, one of them is refused after those before it, which stay
    recorded. -/
theorem addAll_eq_error_iff {refusal : Refusal} : addAll step r outputs = .error refusal ↔
    ∃ part index output rest, outputs = part ++ (index, output) :: rest ∧
      addAll step r part = .ok refusal.kept ∧
        refusal.kept.add step index output = .error refusal.fault := by
  constructor
  · intro h
    induction outputs generalizing r with
    | nil => cases h
    | cons first rest ih =>
      obtain ⟨index, output⟩ := first
      cases hadd : r.add step index output with
      | error fault =>
        rw [addAll, hadd] at h
        cases h
        exact ⟨[], index, output, rest, rfl, rfl, hadd⟩
      | ok r₁ =>
        rw [addAll, hadd] at h
        obtain ⟨part, index', output', rest', rfl, hpart, hrefused⟩ := ih h
        exact ⟨(index, output) :: part, index', output', rest', rfl,
          addAll_cons_eq_ok.2 ⟨r₁, hadd, hpart⟩, hrefused⟩
  · rintro ⟨part, index, output, rest, rfl, hpart, hrefused⟩
    induction part generalizing r with
    | nil =>
      cases hpart
      rw [List.nil_append, addAll, hrefused]
    | cons first part ih =>
      obtain ⟨index', output'⟩ := first
      obtain ⟨r₁, hadd, hpart⟩ := addAll_cons_eq_ok.1 hpart
      rw [List.cons_append, addAll, hadd]
      exact ih hpart

/-- A number of children comes from the first output or from the others. -/
theorem mem_counts_cons {first : Index × Output} {rest : List (Index × Output)}
    {entry : (Lineage × Index) × Nat} :
    entry ∈ Entry.counts ⟨step, first :: rest⟩ ↔
      Entry.countOf step.alignment.outputLineage first = some entry ∨
        entry ∈ Entry.counts ⟨step, rest⟩ := by
  rw [counts_cons, List.mem_append, Option.mem_toList]

/-- Outputs are accepted when the first one is, and the others after it. -/
theorem exists_addAll_cons_iff {rest : List (Index × Output)} :
    (∃ r', addAll step r ((index, output) :: rest) = .ok r') ↔
      ∃ r₁, r.add step index output = .ok r₁ ∧ ∃ r', addAll step r₁ rest = .ok r' := by
  simp only [addAll_cons_eq_ok]
  constructor
  · rintro ⟨r', r₁, hadd, h⟩
    exact ⟨r₁, hadd, r', h⟩
  · rintro ⟨r₁, hadd, r', h⟩
    exact ⟨r', r₁, hadd, h⟩

/-- When the outputs of a step can be recorded: each is of the right sort, and none fans out to
    another number of children than has been noted. -/
theorem exists_addAll_iff : (∃ r', addAll step r outputs = .ok r') ↔
    (∀ entry ∈ outputs, entry.2.Fits step) ∧
      ∀ entry ∈ Entry.counts ⟨step, outputs⟩, (r.shape.counts.get? entry.1).or
        (Table.get? (Entry.counts ⟨step, outputs⟩) entry.1) = some entry.2 := by
  induction outputs generalizing r with
  | nil => exact ⟨fun _ => ⟨List.forall_mem_nil _, List.forall_mem_nil _⟩, fun _ => ⟨r, rfl⟩⟩
  | cons first rest ih =>
    obtain ⟨index, output⟩ := first
    -- the first output is noted before the others
    have hrest : ∀ {r₁}, r.add step index output = .ok r₁ → ∀ key,
        (r₁.shape.counts.get? key).or (Table.get? (Entry.counts ⟨step, rest⟩) key) =
          (r.shape.counts.get? key).or
            (Table.get? (Entry.counts ⟨step, (index, output) :: rest⟩) key) := by
      intro r₁ hadd key
      rw [(add_eq_ok hadd).2.2.1, Option.or_assoc, counts_cons, Table.get?_append]
    -- it decides about its own index, as the first entry of a key is the one that is found
    have hfirst : ∀ entry,
        Entry.countOf step.alignment.outputLineage (index, output) = some entry →
        Table.get? (Entry.counts ⟨step, (index, output) :: rest⟩) entry.1 = some entry.2 := by
      intro entry hentry
      rw [counts_cons, hentry, Option.toList_some, List.singleton_append, Table.get?_cons,
        if_pos rfl]
    rw [exists_addAll_cons_iff]
    constructor
    · rintro ⟨r₁, hadd, hok⟩
      obtain ⟨hfits, hcounts⟩ := ih.1 hok
      obtain ⟨hfit, hcount⟩ := exists_add_iff.1 ⟨r₁, hadd⟩
      refine ⟨List.forall_mem_cons.2 ⟨hfit, hfits⟩, fun entry hentry => ?_⟩
      rcases mem_counts_cons.1 hentry with hentry | hentry
      · rw [hfirst entry hentry]
        exact hcount entry hentry
      · rw [← hrest hadd]
        exact hcounts entry hentry
    · rintro ⟨hfits, hcounts⟩
      obtain ⟨hfit, hfits⟩ := List.forall_mem_cons.1 hfits
      have hcount : ∀ entry,
          Entry.countOf step.alignment.outputLineage (index, output) = some entry →
          (r.shape.counts.get? entry.1).or (some entry.2) = some entry.2 := by
        intro entry hentry
        have hknown := hcounts entry (mem_counts_cons.2 (Or.inl hentry))
        rwa [hfirst entry hentry] at hknown
      obtain ⟨r₁, hadd⟩ := exists_add_iff.2 ⟨hfit, hcount⟩
      refine ⟨r₁, hadd, ih.2 ⟨hfits, fun entry hentry => ?_⟩⟩
      rw [hrest hadd]
      exact hcounts entry (mem_counts_cons.2 (Or.inr hentry))

end RunState.Recording

end BatchFlow
