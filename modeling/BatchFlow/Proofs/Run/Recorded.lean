import BatchFlow.Proofs.Run.Bookkeeping

namespace BatchFlow

/-!
# The tables of a run are read off its journal

Results, structure and branches are written while the steps of a run are done. What is found in
them at any time is what the journal has, and each look-up concerns the entry of one step: a value
has the name of the step that produced it in its key, a number of children belongs to the step that
the last level is named after, and a branch leads from the step that decided to its target. This is
what makes the order of the entries irrelevant to those who read the tables. When the outputs of a
step are refused, those before the refused one stay in the tables although the step is never done;
they are found under the name of that step only, and nobody reads them.

* `Journal.output?`, `Journal.count?`, `Journal.gate?` — look-ups in a journal.
* `Shows` — the tables of a state show what its journal has.
* `Reaches.shows` — this holds in every state of a run.
* `Reaches.admits_iff`, `Reaches.exhausted_iff` — how the steps that are done restrict another.
* `Reaches.exists_record`, `Reaches.recordable_of_entry` — whether outputs can be recorded depends
  on the structure of the inputs only.
-/

namespace Journal

/-- What a step produced at an index; of several values the last. -/
def output? (j : Journal) (name : String) (index : Index) : Option Values :=
  (j.ofStep? name).bind fun e => Table.get? e.produced.reverse (name, index)

/-- The number of children to which the step of the last level of a lineage fanned out. -/
def count? (j : Journal) (l : Lineage) (index : Index) : Option Nat :=
  (l.getLast?.bind j.ofStep?).bind fun e => Table.get? e.counts (l, index)

/-- How a step that is done restricts a target. -/
def gate? (j : Journal) (edge : String × String) : Option (Nat × Option (List Index)) :=
  (j.ofStep? edge.1).bind fun e => e.gate? edge.2

variable {j : Journal} {e : Entry} {name : String}

/-- Nothing is recorded of the steps that are not done. -/
theorem ofStep?_eq_none_iff : j.ofStep? name = none ↔ name ∉ j.names := by
  rw [ofStep?, List.find?_eq_none, names, List.mem_map]
  simp

/-- An entry is found under the name of its step. -/
theorem ofStep?_of_mem (hnodup : j.names.Nodup) (he : e ∈ j) : j.ofStep? e.step.name = some e :=
  Table.find?_name hnodup he

/-- What is found under a name is an entry of that step. -/
theorem mem_of_ofStep? (h : j.ofStep? name = some e) : e ∈ j ∧ e.step.name = name :=
  ⟨List.mem_of_find?_eq_some h, by simpa using List.find?_some h⟩

/-- A step that is done later is found under its own name only. -/
theorem ofStep?_append (hnew : e.step.name ∉ j.names) (name : String) :
    ofStep? (j ++ [e]) name = if e.step.name = name then some e else j.ofStep? name := by
  rw [ofStep?, List.find?_append, List.find?_singleton]
  by_cases hname : e.step.name = name
  · have hnone : j.find? (·.step.name == name) = none :=
      ofStep?_eq_none_iff.2 (hname ▸ hnew)
    rw [hnone, Option.none_or, if_pos hname, if_pos (by simpa using hname)]
  · rw [if_neg hname, if_neg (by simpa using hname), Option.or_none]
    rfl

end Journal

/-- The tables of a state show what its journal has, on the structure of the inputs; results and
    numbers of children of a step whose outputs were refused are left open. -/
structure Shows (shape : BatchStructure) (j : Journal) (s : RunState) : Prop where
  extends_inputs : shape.Extends s.shape
  results : ∀ name index, ¬ s.Refused name → s.results.get? (name, index) = j.output? name index
  shape : ∀ l index, (∀ name, l.getLast? = some name → ¬ s.Refused name) →
    s.shape.children? l index = (shape.children? l index).or (j.count? l index)
  valid : s.branches.Valid
  gates : ∀ edge, s.branches.gate? edge = j.gate? edge

/-! ### One entry more -/

/-- A step produces values under its own name. -/
theorem Entry.key_of_mem_produced {e : Entry} {key : String × Index}
    (h : key ∈ Table.keys e.produced) : key.1 = e.step.name := by
  obtain ⟨⟨key', values⟩, hmem, rfl⟩ := List.mem_map.1 h
  obtain ⟨⟨index, output⟩, -, hmem⟩ := List.mem_flatMap.1 hmem
  cases output with
  | values values =>
    cases List.mem_singleton.1 hmem
    rfl
  | nested items =>
    obtain ⟨entry, -, he⟩ := List.mem_map.1 hmem
    cases he
    rfl
  | decision next => cases hmem

/-- A step notes numbers of children at its own level, where it returned nested outputs. -/
theorem Entry.key_of_mem_counts {e : Entry} {key : Lineage × Index}
    (h : key ∈ Table.keys e.counts) : key.1 = e.step.alignment.outputLineage ∧
      ∃ items, (key.2, .nested items) ∈ e.outputs := by
  obtain ⟨⟨key', count⟩, hmem, rfl⟩ := List.mem_map.1 h
  obtain ⟨⟨index, output⟩, houtput, he⟩ := List.mem_filterMap.1 hmem
  cases output with
  | values values => cases he
  | nested items =>
    cases he
    exact ⟨rfl, items, houtput⟩
  | decision next => cases he

/-- A step that fans out names the level to which it does. -/
theorem Entry.getLast?_of_mem_counts {e : Entry}
    (hsuits : e.step.alignment.Suits e.step.name e.step.manifest)
    (hfits : ∀ o ∈ e.outputs, o.2.Fits e.step) {key : Lineage × Index}
    (h : key ∈ Table.keys e.counts) : key.1.getLast? = some e.step.name := by
  obtain ⟨hlineage, items, hmem⟩ := e.key_of_mem_counts h
  obtain ⟨-, hincrement⟩ := hfits _ hmem
  rw [hlineage, (hsuits.increment hincrement).2]
  exact List.getLast?_concat

namespace Shows

variable {shape : BatchStructure} {j : Journal} {s : RunState} {e : Entry}

/-- As long as nothing has failed the results are those of the journal. -/
theorem get?_results (h : Shows shape j s) (hnone : s.failure = none) (name : String)
    (index : Index) : s.results.get? (name, index) = j.output? name index :=
  h.results name index (RunState.not_refused hnone name)

/-- As long as nothing has failed the numbers of children are those of the journal and the
    inputs. -/
theorem children?_eq (h : Shows shape j s) (hnone : s.failure = none) (l : Lineage)
    (index : Index) : s.shape.children? l index = (shape.children? l index).or (j.count? l index) :=
  h.shape l index fun name _ => RunState.not_refused hnone name

/-- A step that is done adds its entry to what the tables show. -/
theorem append (h : Shows shape j s) (hnone : s.failure = none) (hnew : e.step.name ∉ j.names)
    (hcounts : ∀ key ∈ Table.keys e.counts, key.1.getLast? = some e.step.name)
    {results : ResultStore} {shape' : BatchStructure} {branches : Branches}
    (hresults : results = s.results.writeAll e.produced)
    (hshape : ∀ key, shape'.counts.get? key =
      (s.shape.counts.get? key).or (Table.get? e.counts key))
    (hbranches : RunState.Opens e s.branches branches) {s' : RunState}
    (he : s'.results = results ∧ s'.shape = shape' ∧ s'.branches = branches) :
    Shows shape (j ++ [e]) s' := by
  obtain ⟨rfl, rfl, rfl⟩ := he
  have hold : j.ofStep? e.step.name = none := Journal.ofStep?_eq_none_iff.2 hnew
  obtain ⟨hvalid, hgates⟩ := hbranches h.valid
  constructor
  case results =>
    intro name index _
    rw [hresults, Table.get?_writeAll, h.get?_results hnone, Journal.output?, Journal.output?,
      Journal.ofStep?_append hnew]
    -- the new entry decides about look-ups under its own name, the older ones about all others
    by_cases hname : e.step.name = name
    · rw [if_pos hname, ← hname, hold, Option.bind_none, Option.or_none]
      rfl
    · have hnone : Table.get? e.produced.reverse (name, index) = none := by
        rw [Table.get?_eq_none_iff]
        intro hmem
        have hmem' : (name, index) ∈ Table.keys e.produced := by
          rw [Table.keys, List.map_reverse] at hmem
          exact List.mem_reverse.1 hmem
        exact hname (e.key_of_mem_produced hmem').symm
      rw [if_neg hname, hnone, Option.none_or]
  case shape =>
    intro l index _
    have hchildren : s'.shape.children? l index =
        (s.shape.children? l index).or (Table.get? e.counts (l, index)) := hshape (l, index)
    rw [hchildren, h.children?_eq hnone, Option.or_assoc]
    congr 1
    -- a step fans out to the level that has its name, so the level tells whose entry decides
    by_cases hlast : l.getLast? = some e.step.name
    · rw [Journal.count?, Journal.count?, hlast, Option.bind_some, Option.bind_some, hold,
        Journal.ofStep?_append hnew, if_pos rfl]
      rfl
    · have hnone : Table.get? e.counts (l, index) = none := by
        rw [Table.get?_eq_none_iff]
        exact fun hmem => hlast (hcounts _ hmem)
      rw [hnone, Option.or_none, Journal.count?, Journal.count?]
      cases hl : l.getLast? with
      | none => rfl
      | some owner =>
        rw [Option.bind_some, Option.bind_some, Journal.ofStep?_append hnew, if_neg]
        rintro rfl
        exact hlast hl
  case extends_inputs =>
    intro l index n hn
    have hchildren : s'.shape.children? l index =
        (s.shape.children? l index).or (Table.get? e.counts (l, index)) := hshape (l, index)
    rw [hchildren, h.extends_inputs l index n hn, Option.some_or]
  case valid => exact hvalid
  case gates =>
    intro edge
    rw [hgates, Journal.gate?, Journal.ofStep?_append hnew]
    by_cases hname : e.step.name = edge.1
    · rw [if_pos hname, if_pos hname, h.gates, Journal.gate?, ← hname, hold]
      exact Option.or_none
    · rw [if_neg hname, if_neg hname, h.gates]
      rfl

/-- At the start nothing is recorded. -/
theorem initial (plan : Plan) (shape : BatchStructure) : Shows shape [] (.initial plan shape) where
  results _ _ _ := rfl
  shape l index _ := by
    rw [Journal.count?]
    cases l.getLast? <;> exact (Option.or_none).symm
  extends_inputs := .refl shape
  valid := Branches.valid_initial
  gates _ := rfl

/-- A task that fails leaves behind what the tables show, save for its own step. -/
theorem leave {context : RunContext} {task : Task} {fault : RunFault}
    {left : RunState.Recording} (h : Shows shape j s) (hleaves : task.Leaves context s fault left)
    (hsuits : task.step.alignment.Suits task.step.name task.step.manifest) {s' : RunState}
    (he : s'.results = left.results ∧ s'.shape = left.shape ∧ s'.branches = s.branches ∧
      s'.failure = some fault) : Shows shape j s' := by
  obtain ⟨hresults, hshape, hbranches, hfailure⟩ := he
  obtain ⟨outputs, part, -, hpart, hown⟩ := hleaves.exists_addAll
  obtain ⟨hfits, hwritten, hcounts, -⟩ := RunState.Recording.addAll_eq_ok hpart
  -- the step that was refused before still is, and this one is if anything of it was recorded
  have hbefore : ∀ name, ¬ s'.Refused name → ¬ s.Refused name := by
    rintro name hnot ⟨reason, hreason⟩
    exact hnot ⟨reason, hfailure.trans (congrArg some (hleaves.eq_of_failed hreason))⟩
  have hself : ¬ s'.Refused task.step.name → part = [] := fun hnot =>
    hown.resolve_right fun ⟨reason, hreason⟩ => hnot ⟨reason, hreason ▸ hfailure⟩
  constructor
  case results =>
    intro name index hname
    have hnone : Table.get? (Entry.produced ⟨task.step, part⟩).reverse (name, index) = none := by
      rw [Table.get?_eq_none_iff]
      intro hmem
      rw [Table.keys, List.map_reverse, List.mem_reverse] at hmem
      obtain rfl : name = task.step.name := Entry.key_of_mem_produced hmem
      rw [hself hname] at hmem
      cases hmem
    rw [hresults, hwritten, Table.get?_writeAll, hnone, Option.none_or]
    exact h.results name index (hbefore name hname)
  case shape =>
    intro l index hl
    have hnone : Table.get? (Entry.counts ⟨task.step, part⟩) (l, index) = none := by
      rw [Table.get?_eq_none_iff]
      intro hmem
      have hlast := Entry.getLast?_of_mem_counts hsuits hfits hmem
      rw [hself (hl _ hlast)] at hmem
      cases hmem
    have hchildren := hcounts (l, index)
    rw [hnone, Option.or_none] at hchildren
    rw [hshape]
    exact hchildren.trans (h.shape l index fun name hname => hbefore name (hl name hname))
  case extends_inputs =>
    rw [hshape]
    exact h.extends_inputs.trans (RunState.Recording.addAll_extends hpart)
  case valid => exact hbranches ▸ h.valid
  case gates => exact hbranches ▸ h.gates

end Shows

/-! ### Every state of a run -/

section Reaches

variable {context : RunContext} {shape : BatchStructure} {j : Journal} {s : RunState}

/-- In every state of a run the tables show what the journal has. -/
theorem Reaches.shows (hplan : context.engine.plan.Coherent) (h : Reaches context shape j s) :
    Shows shape j s := by
  induction h with
  | initial => exact .initial _ _
  | @take j s step hreaches hstep hfailure ih =>
    -- a step that is passed over adds an entry without outputs; one that is started only closes
    -- branches, and they keep what was decided
    have hnew := hreaches.tracks.not_done_of_ready hplan.steps_nodup hstep
    rcases RunState.take_cases context { s with ready := s.ready.erase step } step with
      ⟨-, htaken, events, branches, hopens, he⟩ | ⟨-, htaken, events, ids, he⟩
    · rw [show s.taken context step = [⟨step, []⟩] from htaken, he]
      have hnone : Entry.counts ⟨step, []⟩ = [] := rfl
      refine ih.append hfailure hnew ?_ rfl (fun key => ?_) hopens ⟨rfl, rfl, rfl⟩
      · rw [hnone]
        exact List.forall_mem_nil _
      · rw [hnone, Table.get?_nil, Option.or_none]
        rfl
    · rw [show s.taken context step = [] from htaken, he, List.append_nil]
      refine ⟨ih.extends_inputs, ih.results, ih.shape, ih.valid.close ids, fun edge => ?_⟩
      rw [Branches.gate?_close]
      exact ih.gates edge
  | @finish j s i task hreaches htask ih =>
    have hmem := List.mem_of_getElem? htask
    have hnew := hreaches.tracks.not_done_of_task hplan.steps_nodup hmem
    -- a finished task adds what it returned; a refused one leaves what was kept before the refusal
    obtain ⟨earlier, later, hsplit⟩ := List.append_of_mem (hreaches.tracks.mem_steps_of_task hmem)
    have hsuits := (hplan.step hsplit).suits
    rcases RunState.finish_cases context { s with inFlight := s.inFlight.eraseIdx i } task with
      ⟨hnone, outputs, -, hrecord, hfinished⟩ | ⟨hfinished, ⟨fault, left, events, hleaves, he⟩, -⟩
    · obtain ⟨-, recording, hrecording, events, branches, hopens, he⟩ :=
        RunState.record_eq_ok hrecord
      obtain ⟨hfits, hresults, hcounts, -⟩ := RunState.Recording.addAll_eq_ok hrecording
      rw [hfinished, he]
      refine ih.append hnone hnew (fun key hkey => ?_) hresults hcounts hopens ⟨rfl, rfl, rfl⟩
      exact Entry.getLast?_of_mem_counts hsuits hfits hkey
    · rw [hfinished, he, List.append_nil]
      exact ih.leave (hleaves.congr rfl rfl rfl) hsuits ⟨rfl, rfl, rfl, rfl⟩

/-- The results of a step that is done are those of its entry, whatever has failed since. -/
theorem Reaches.get?_results_of_done (hplan : context.engine.plan.Coherent)
    (h : Reaches context shape j s) {name : String} (hdone : name ∈ j.names) (index : Index) :
    s.results.get? (name, index) = j.output? name index :=
  (h.shows hplan).results name index (h.tracks.not_refused_of_done hplan.steps_nodup hdone)

/-- The numbers of children at the level of a step that is done are those of its entry. -/
theorem Reaches.children?_of_done (hplan : context.engine.plan.Coherent)
    (h : Reaches context shape j s) {level : String} (hdone : level ∈ j.names) (above : Lineage)
    (index : Index) : s.shape.children? (above ++ [level]) index =
      (shape.children? (above ++ [level]) index).or (j.count? (above ++ [level]) index) := by
  refine (h.shows hplan).shape _ index fun name hname => ?_
  rw [List.getLast?_concat] at hname
  exact Option.some.inj hname ▸ h.tracks.not_refused_of_done hplan.steps_nodup hdone

/-! ### What restricts a step -/

/-- Whether a step that is done decided for a target at an index. -/
def Entry.Selects (e : Entry) (target : String) (index : Index) : Prop :=
  ∃ next, (index, .decision next) ∈ e.outputs ∧ target ∈ next

/-- The entries of the steps that decided about a target. -/
def Journal.Decides (j : Journal) (target : String) (e : Entry) : Prop :=
  e ∈ j ∧ e.step.manifest.flowControl = true ∧ target ∈ e.step.targets

/-- The mask of a target holds the indices at which it was selected. -/
theorem Entry.mem_selected_iff {e : Entry} {target : String} {index : Index} :
    index ∈ Branches.selected e.decisions target ↔ e.Selects target index := by
  rw [Branches.mem_selected]
  exact exists_congr fun next => and_congr_left fun _ => Entry.mem_decisions

/-- The gate of a target is that of a step that is done and decides about it. -/
theorem Shows.gate?_eq_some (h : Shows shape j s) (hnodup : j.names.Nodup) {name target : String}
    {depth : Nat} {mask : Option (List Index)} :
    s.branches.gate? (name, target) = some (depth, mask) ↔
      ∃ e, j.Decides target e ∧ e.step.name = name ∧ e.step.alignment.input = depth ∧
        some (Branches.selected e.decisions target) = mask := by
  rw [h.gates, Journal.gate?, Option.bind_eq_some_iff]
  constructor
  · rintro ⟨e, he, hgate⟩
    obtain ⟨hmem, hname⟩ := Journal.mem_of_ofStep? he
    rw [Entry.gate?] at hgate
    split at hgate
    · rename_i hdecides
      cases hgate
      exact ⟨e, ⟨hmem, hdecides⟩, hname, rfl, rfl⟩
    · cases hgate
  · rintro ⟨e, ⟨hmem, hdecides⟩, rfl, rfl, rfl⟩
    exact ⟨e, Journal.ofStep?_of_mem hnodup hmem, by rw [Entry.gate?, if_pos hdecides]⟩

section Restricted

variable {earlier : List Plan.Step} {step : Plan.Step}

/-- Only steps that decide about a step have decided about it. -/
theorem Reaches.decides_iff (h : Reaches context shape j s)
    (hstep : step.Coherent context.engine.plan earlier) {e : Entry} :
    (e.step.name ∈ step.governedBy ∧ j.Decides step.name e) ↔ j.Decides step.name e := by
  refine and_iff_right_of_imp fun he => hstep.mem_governedBy.2 ?_
  exact ⟨e.step, h.tracks.mem_steps_of_entry he.1, rfl, he.2.2⟩

/-- A step that decided about another lies at or above it. -/
theorem Reaches.input_le_of_decides (hplan : context.engine.plan.Coherent)
    (h : Reaches context shape j s) (hstep : step.Coherent context.engine.plan earlier) {e : Entry}
    (he : j.Decides step.name e) : e.step.alignment.input ≤ step.alignment.input := by
  have hmem := h.tracks.mem_steps_of_entry he.1
  obtain ⟨before, after, hsplit⟩ := List.append_of_mem hmem
  have hlength := (hstep.governor e.step hmem he.2.2).2.length_le
  rwa [(hplan.step hsplit).suits.length, hstep.suits.length] at hlength

/-- An element belongs to the branches of a step when every step that decided about it did so for an
    element at or above this one, unless it decides below. -/
theorem Reaches.admits_iff (hplan : context.engine.plan.Coherent) (h : Reaches context shape j s)
    (hstep : step.Coherent context.engine.plan earlier) {index : Index} :
    s.branches.admits (s.governing step) index ↔
      ∀ e, j.Decides step.name e → index.length < e.step.alignment.input ∨
        e.Selects step.name (index.take e.step.alignment.input) := by
  have hnodup := h.tracks.journal_nodup hplan.steps_nodup
  rw [RunState.governing, Branches.admits_governing_iff]
  constructor
  · intro hall e he
    have hgate := ((h.shows hplan).gate?_eq_some hnodup).2 ⟨e, he, rfl, rfl, rfl⟩
    have := hall _ ((h.decides_iff hstep).2 he).1 _ _ hgate
    rwa [Entry.mem_selected_iff] at this
  · intro hall g _ depth mask hgate
    obtain ⟨e, he, -, rfl, hmask⟩ := ((h.shows hplan).gate?_eq_some hnodup).1 hgate
    cases hmask
    rw [Entry.mem_selected_iff]
    exact hall e he

/-- One of the branches of a step is exhausted when some step decided for it nowhere. -/
theorem Reaches.exhausted_iff (hplan : context.engine.plan.Coherent) (h : Reaches context shape j s)
    (hstep : step.Coherent context.engine.plan earlier) :
    ((s.governing step).any fun id => (s.branches.get id).isExhausted) ↔
      ∃ e, j.Decides step.name e ∧ ∀ index, ¬ e.Selects step.name index := by
  have hnodup := h.tracks.journal_nodup hplan.steps_nodup
  rw [RunState.governing, Branches.any_isExhausted_iff]
  constructor
  · rintro ⟨g, -, depth, hgate⟩
    obtain ⟨e, he, -, -, hmask⟩ := ((h.shows hplan).gate?_eq_some hnodup).1 hgate
    refine ⟨e, he, fun index hselects => ?_⟩
    have hmem := Entry.mem_selected_iff.2 hselects
    rw [Option.some.inj hmask] at hmem
    cases hmem
  · rintro ⟨e, he, hnone⟩
    have hmask : Branches.selected e.decisions step.name = [] :=
      List.eq_nil_iff_forall_not_mem.2 fun index hmem => hnone index (Entry.mem_selected_iff.1 hmem)
    refine ⟨e.step.name, ((h.decides_iff hstep).2 he).1, e.step.alignment.input, ?_⟩
    exact ((h.shows hplan).gate?_eq_some hnodup).2 ⟨e, he, rfl, rfl, congrArg some hmask⟩

end Restricted

/-! ### What can be recorded -/

/-- Whether outputs are of the right sort and fan out to the numbers of children that are known. -/
def Entry.Recordable (shape : BatchStructure) (e : Entry) : Prop :=
  (∀ o ∈ e.outputs, o.2.Fits e.step) ∧ ∀ c ∈ e.counts,
    (shape.counts.get? c.1).or (Table.get? e.counts c.1) = some c.2

/-- A step that is not done has fanned out nowhere. -/
theorem Shows.children?_of_not_done (h : Shows shape j s) {e : Entry}
    (hsuits : e.step.alignment.Suits e.step.name e.step.manifest)
    (hfits : ∀ o ∈ e.outputs, o.2.Fits e.step) (hnew : e.step.name ∉ j.names)
    (hunrefused : ¬ s.Refused e.step.name) {key : Lineage × Index}
    (hkey : key ∈ Table.keys e.counts) : s.shape.counts.get? key = shape.counts.get? key := by
  have hlast := Entry.getLast?_of_mem_counts hsuits hfits hkey
  obtain ⟨l, index⟩ := key
  have hcount : j.count? l index = none := by
    rw [Journal.count?, show l.getLast? = some e.step.name from hlast, Option.bind_some,
      Journal.ofStep?_eq_none_iff.2 hnew, Option.bind_none]
  have hchildren := h.shape l index fun name hname => by
    cases (show l.getLast? = some e.step.name from hlast).symm.trans hname
    exact hunrefused
  rw [hcount, Option.or_none] at hchildren
  exact hchildren

/-- The outputs of a step that is not done can be recorded when they can be on the structure of the
    inputs. -/
theorem Shows.exists_addAll_iff (h : Shows shape j s) {step : Plan.Step}
    (hsuits : step.alignment.Suits step.name step.manifest) (hnew : step.name ∉ j.names)
    (hunrefused : ¬ s.Refused step.name) (outputs : List (Index × Output)) :
    (∃ r, RunState.Recording.addAll step { shape := s.shape, results := s.results } outputs =
        .ok r) ↔
      Entry.Recordable shape ⟨step, outputs⟩ := by
  rw [RunState.Recording.exists_addAll_iff, Entry.Recordable]
  refine and_congr_right fun hfits => forall₂_congr fun c hc => ?_
  rw [h.children?_of_not_done (e := ⟨step, outputs⟩) hsuits hfits hnew hunrefused
    (List.mem_map_of_mem hc)]

/-- What a task under way returns is recorded when it can be on the structure of the inputs. -/
theorem Reaches.exists_record (hplan : context.engine.plan.Coherent)
    (h : Reaches context shape j s) {i : Nat} {task : Task} (htask : s.inFlight[i]? = some task)
    {outputs : List Output} (hlength : outputs.length = task.elements.length)
    (hrecordable : Entry.Recordable shape ⟨task.step, (task.elements.map (·.1)).zip outputs⟩) :
    ∃ s', RunState.record { s with inFlight := s.inFlight.eraseIdx i } task outputs = .ok s' := by
  have hmem := List.mem_of_getElem? htask
  obtain ⟨earlier, later, hsplit⟩ := List.append_of_mem (h.tracks.mem_steps_of_task hmem)
  have hnew := h.tracks.not_done_of_task hplan.steps_nodup hmem
  exact RunState.exists_record hlength (((h.shows hplan).exists_addAll_iff
    (hplan.step hsplit).suits hnew (h.tracks.not_refused_of_task hplan.steps_nodup hmem) _).2
      hrecordable)

/-- The outputs of a step that is done can be recorded on the structure of the inputs. -/
theorem Reaches.recordable_of_entry (hplan : context.engine.plan.Coherent)
    (h : Reaches context shape j s) {e : Entry} (he : e ∈ j) : e.Recordable shape := by
  obtain ⟨j', s', hreaches, -, hadded⟩ := h.exists_of_entry e he
  rcases hadded with ⟨-, step, -, he⟩ | ⟨i, task, htask, he⟩
  · obtain ⟨-, rfl⟩ := RunState.of_mem_taken he
    exact ⟨List.forall_mem_nil _, List.forall_mem_nil _⟩
  · obtain ⟨outputs, -, ⟨s₁, hrecord⟩, rfl⟩ := RunState.of_mem_finished he
    have hmem := List.mem_of_getElem? htask
    obtain ⟨-, recording, hrecording, -⟩ := RunState.record_eq_ok hrecord
    obtain ⟨earlier, later, hsplit⟩ := List.append_of_mem (hreaches.tracks.mem_steps_of_task hmem)
    exact ((hreaches.shows hplan).exists_addAll_iff (hplan.step hsplit).suits
      (hreaches.tracks.not_done_of_task hplan.steps_nodup hmem)
      (hreaches.tracks.not_refused_of_task hplan.steps_nodup hmem) _).1 ⟨recording, hrecording⟩

end Reaches

end BatchFlow
