import BatchFlow.Proofs.Workflow.Reordering

namespace BatchFlow

/-!
# Lineages of a whole workflow

Alignment goes from step to step and compares all sources of a step with one of the deepest. What it
finds can be said without going anywhere: every step takes data of a longest lineage among those of
its sources (`Workflow.Traces`). Such lineages exist for every workflow, and alignment succeeds
exactly when with them the data of every step lines up: any two of its sources lie on one lineage,
and its block takes data that is as deep (`Workflow.LinesUp`).

* `Workflow.lineageAt`, `Workflow.IsLongest`, `Workflow.Traces` — the lineages of data.
* `Workflow.alignStep_eq_ok_iff` — when a step is aligned whose sources have some lineages.
* `Arranged.exists_traces` — the steps have lineages.
* `Arranged.lined_of_align` — a successful alignment is one on these lineages.
* `Arranged.exists_align_iff` — when alignment succeeds.
-/

/-- What holds of a member of a list when it holds of all members before it holds of all. -/
theorem forall_mem_of_before {α : Type} {P : α → Prop} {xs : List α}
    (h : ∀ before x after, xs = before ++ x :: after → (∀ y ∈ before, P y) → P x) :
    ∀ x ∈ xs, P x := by
  have hinitial : ∀ initial rest, xs = initial ++ rest → ∀ x ∈ initial, P x := by
    intro initial
    induction initial using List.reverseRecOn with
    | nil => exact fun _ _ => List.forall_mem_nil P
    | append_singleton before x ih =>
      intro rest hsplit
      rw [List.append_assoc, List.singleton_append] at hsplit
      have hbefore := ih (x :: rest) hsplit
      exact List.forall_mem_append.2
        ⟨hbefore, List.forall_mem_singleton.2 (h before x rest hsplit hbefore)⟩
  exact hinitial xs [] (List.append_nil xs).symm

namespace Workflow

variable {w : Workflow} {aligned : Table String Alignment} {taken : String → Lineage}
  {order names : List String} {step : Step}

/-! ### Lineages of data -/

/-- The lineage of what a step produces from data of some lineage. -/
def Step.produced (step : Step) (lineage : Lineage) : Lineage :=
  match step.manifest.transform with
  | .identity => lineage
  | .increment => lineage ++ [step.name]
  | .decrement => lineage.dropLast

/-- The alignment of a step that takes data of some lineage. -/
def Step.alignmentOn (step : Step) (lineage : Lineage) : Alignment :=
  ⟨lineage.length, (step.produced lineage).length, lineage, step.produced lineage⟩

/-- The lineage of the data at which a selector points when the steps take data of some lineages. -/
def lineageAt (w : Workflow) (taken : String → Lineage) : Selector → Lineage
  | .input name => (w.input? name).elim [] fun input => .ofInput input.depth
  | .output owner _ | .allOutputs owner | .step owner =>
    (w.step? owner).elim [] fun step => step.produced (taken owner)

/-- Whether a step looks for data of a property where a selector points. -/
def Step.Feeds (step : Step) (property : String) (s : Selector) : Prop :=
  ∃ a, (property, a) ∈ step.arguments ∧ a.isTargets = false ∧ s ∈ a.selectors

/-- Whether a lineage is a longest one among those of the sources of a step. It is empty if there
    are none. -/
structure IsLongest (lineages : Selector → Lineage) (step : Step) (lineage : Lineage) : Prop where
  bound : ∀ s, step.HasSource s → (lineages s).length ≤ lineage.length
  reached : (∃ s, step.HasSource s ∧ lineages s = lineage) ∨
    (∀ s, ¬step.HasSource s) ∧ lineage = []

/-- Whether every step takes data of a longest lineage among those of its sources. -/
def Traces (w : Workflow) (taken : String → Lineage) : Prop :=
  ∀ step ∈ w.steps, IsLongest (w.lineageAt taken) step (taken step.name)

/-- Whether the data of a step lines up. -/
structure LinesUp (lineages : Selector → Lineage) (step : Step) : Prop where
  /-- Data of a batch goes into properties that take it. -/
  accepts : ∀ property s, step.Feeds property s → 0 < (lineages s).length →
    acceptsBatch step property = true
  /-- Any two sources lie on one lineage. -/
  comparable : ∀ s s', step.HasSource s → step.HasSource s' →
    lineages s <+: lineages s' ∨ lineages s' <+: lineages s
  /-- A block that decides about steps without taking batches has no source in a batch. -/
  decides : step.manifest.flowControl = true → step.manifest.acceptsBatchInput = false →
    ∀ s, step.HasSource s → (lineages s).length = 0
  /-- A block that folds batches has a source in one. -/
  collapses : step.manifest.transform = .decrement →
    ∃ s, step.HasSource s ∧ 0 < (lineages s).length

/-- Whether a step lies on the lineage of all steps about which it decides. -/
def GovernsAlong (taken : String → Lineage) (step : Step) : Prop :=
  ∀ target ∈ step.targets, taken step.name <+: taken target

/-! ### One step -/

section Step

variable {lineages : Selector → Lineage} {lineage : Lineage} {a : Alignment}

/-- All sources lie on a lineage that is that of one of them. -/
structure Joins (lineages : Selector → Lineage) (step : Step) (lineage : Lineage) : Prop where
  isPrefix : ∀ s, step.HasSource s → lineages s <+: lineage
  reached : (∃ s, step.HasSource s ∧ lineages s = lineage) ∨ (∀ s, ¬step.HasSource s) ∧ lineage = []

/-- The lineage on which a step joins its sources is the longest of theirs. -/
theorem Joins.isLongest (h : Joins lineages step lineage) : IsLongest lineages step lineage :=
  ⟨fun s hs => (h.isPrefix s hs).length_le, h.reached⟩

/-- The longest of lineages that can be compared extends all others. -/
theorem IsLongest.joins (h : IsLongest lineages step lineage)
    (hcomparable : ∀ s s', step.HasSource s → step.HasSource s' →
      lineages s <+: lineages s' ∨ lineages s' <+: lineages s) :
    Joins lineages step lineage := by
  refine ⟨fun s hs => ?_, h.reached⟩
  rcases h.reached with ⟨longest, hlongest, rfl⟩ | ⟨hnone, -⟩
  · rcases hcomparable s longest hs hlongest with hle | hle
    · exact hle
    · exact (hle.eq_of_length_le (h.bound s hs)) ▸ List.prefix_rfl
  · exact absurd hs (hnone s)

/-- There is one longest lineage when all lineages lie on it. -/
theorem Joins.eq_of_isLongest (h : Joins lineages step lineage) {other : Lineage}
    (hother : IsLongest lineages step other) : other = lineage := by
  rcases hother.reached with ⟨s, hs, rfl⟩ | ⟨hnone, rfl⟩
  · rcases h.reached with ⟨longest, hlongest, rfl⟩ | ⟨hnone, -⟩
    · exact (h.isPrefix s hs).eq_of_length_le (hother.bound longest hlongest)
    · exact absurd hs (hnone s)
  · rcases h.reached with ⟨s, hs, -⟩ | ⟨-, rfl⟩
    · exact absurd hs (hnone s)
    · rfl

/-- Of two sources of a step one extends the other. -/
theorem Joins.comparable (h : Joins lineages step lineage) (s s' : Selector) (hs : step.HasSource s)
    (hs' : step.HasSource s') : lineages s <+: lineages s' ∨ lineages s' <+: lineages s :=
  List.prefix_or_prefix_of_prefix (h.isPrefix s hs) (h.isPrefix s' hs')

/-- What is known of a source when its lineage is. -/
def sourceOn (s : Selector) (lineage : Lineage) : Source := ⟨s.text, lineage.length, lineage⟩

/-- The sources of a step are found unless data of a batch goes into a property that does not take
    it. -/
theorem exists_sourcesOf_iff
    (hsource : ∀ s, step.HasSource s → sourceOf w aligned s = .ok (sourceOn s (lineages s))) :
    (∃ sources, sourcesOf w aligned step = .ok sources) ↔
      ∀ property s, step.Feeds property s → 0 < (lineages s).length →
        acceptsBatch step property = true := by
  -- one source is refused only when it has a lineage and its property takes no batches
  have hchecked : ∀ {property s}, step.Feeds property s →
      ((∃ source, checkedSource w aligned step property s = .ok source) ↔
        (0 < (lineages s).length → acceptsBatch step property = true)) := by
    intro property s hfeeds
    rw [checkedSource, hsource s ⟨property, hfeeds⟩]
    show (∃ source, (if 0 < (lineages s).length && !acceptsBatch step property then
      .error _ else .ok (sourceOn s (lineages s)) : Except Rejection Source) = .ok source) ↔ _
    cases acceptsBatch step property <;> by_cases hpos : 0 < (lineages s).length <;> simp [hpos]
  constructor
  · rintro ⟨sources, hsources⟩ property s ⟨a, ha, hkind, hs⟩
    obtain ⟨perArgument, hlists, -⟩ := bind_eq_ok.1 hsources
    have hfilter : (property, a) ∈ step.arguments.filter fun entry => !entry.2.isTargets :=
      List.mem_filter.2 ⟨ha, by simp [hkind]⟩
    obtain ⟨list, -, hfound⟩ := exists_mem_of_mapM hlists hfilter
    obtain ⟨source, -, hsource⟩ := exists_mem_of_mapM hfound hs
    exact (hchecked ⟨a, ha, hkind, hs⟩).1 ⟨source, hsource⟩
  · intro haccepts
    have hlists : ∃ perArgument, ((step.arguments.filter fun entry => !entry.2.isTargets).mapM
        fun entry => entry.2.selectors.mapM (checkedSource w aligned step entry.1)) =
          .ok perArgument := by
      refine exists_mapM_iff.2 fun entry hentry => exists_mapM_iff.2 fun s hs => ?_
      obtain ⟨hmem, hkind⟩ := List.mem_filter.1 hentry
      have hfeeds : step.Feeds entry.1 s := ⟨entry.2, hmem, by simpa using hkind, hs⟩
      exact (hchecked hfeeds).2 (haccepts entry.1 s hfeeds)
    obtain ⟨perArgument, hlists⟩ := hlists
    exact ⟨_, bind_eq_ok.2 ⟨perArgument, hlists, rfl⟩⟩

/-- The sources that are found are known by their lineages. -/
theorem mem_sourcesOf_iff
    (hsource : ∀ s, step.HasSource s → sourceOf w aligned s = .ok (sourceOn s (lineages s)))
    {sources : List Source} (h : sourcesOf w aligned step = .ok sources) (source : Source) :
    source ∈ sources ↔ ∃ s, step.HasSource s ∧ source = sourceOn s (lineages s) := by
  obtain ⟨hfrom, hto⟩ := sourcesOf_eq_ok h
  constructor
  · intro hmem
    obtain ⟨s, hs, hfound⟩ := hfrom source hmem
    exact ⟨s, hs, Except.ok.inj (hfound.symm.trans (hsource s hs))⟩
  · rintro ⟨s, hs, rfl⟩
    obtain ⟨source, hmem, hfound⟩ := hto s hs
    exact Except.ok.inj (hfound.symm.trans (hsource s hs)) ▸ hmem

/-- The deepest source sets the lineage exactly when all sources lie on it. -/
theorem commonLineage_eq_ok_iff {sources : List Source}
    (hsources : ∀ source, source ∈ sources ↔
      ∃ s, step.HasSource s ∧ source = sourceOn s (lineages s)) :
    commonLineage step sources = .ok lineage ↔ Joins lineages step lineage := by
  have hmem : ∀ {s}, step.HasSource s → sourceOn s (lineages s) ∈ sources := fun {s} hs =>
    (hsources _).2 ⟨s, hs, rfl⟩
  constructor
  · intro h
    rcases commonLineage_eq_ok h with ⟨rfl, rfl⟩ | ⟨d, hd, rfl, hall⟩
    · have hnone : ∀ s, ¬step.HasSource s := fun s hs => List.not_mem_nil (hmem hs)
      exact ⟨fun s hs => absurd hs (hnone s), Or.inr ⟨hnone, rfl⟩⟩
    · obtain ⟨s, hs, rfl⟩ := (hsources d).1 (deepest?_eq_some hd).1
      exact ⟨fun s' hs' => hall _ (hmem hs'), Or.inl ⟨s, hs, rfl⟩⟩
  · intro h
    cases hd : deepest? sources with
    | none =>
      obtain rfl := deepest?_eq_none hd
      rcases h.reached with ⟨s, hs, -⟩ | ⟨-, rfl⟩
      · exact absurd (hmem hs) List.not_mem_nil
      · rfl
    | some d =>
      obtain ⟨hd', hdeepest⟩ := deepest?_eq_some hd
      obtain ⟨s, hs, rfl⟩ := (hsources d).1 hd'
      -- the deepest source has the longest lineage, and of the lineages that line up only one is
      -- as long
      have hlongest : IsLongest lineages step (lineages s) :=
        ⟨fun s' hs' => hdeepest _ (hmem hs'), Or.inl ⟨s, hs, rfl⟩⟩
      obtain rfl := h.eq_of_isLongest hlongest
      have hnone : sources.find? (fun source => !(lineages s).extendsTo source.lineage) = none := by
        refine List.find?_eq_none.2 fun source hsource => ?_
        obtain ⟨s', hs', rfl⟩ := (hsources source).1 hsource
        simpa [sourceOn] using Lineage.extendsTo_iff.2 (h.isPrefix s' hs')
      simp only [commonLineage, hd, sourceOn, hnone]

/-- The lineage on which the sources lie is as deep as the deepest of them. -/
theorem depth_of_commonLineage {sources : List Source}
    (hsources : ∀ source, source ∈ sources ↔
      ∃ s, step.HasSource s ∧ source = sourceOn s (lineages s))
    (h : commonLineage step sources = .ok lineage) :
    ((deepest? sources).map (·.depth)).getD 0 = lineage.length := by
  rcases commonLineage_eq_ok h with ⟨rfl, rfl⟩ | ⟨d, hd, rfl, -⟩
  · rfl
  · obtain ⟨s, -, rfl⟩ := (hsources d).1 (deepest?_eq_some hd).1
    rw [hd]
    rfl

/-- A step can be aligned on a lineage unless it decides below the root without accepting batches,
    or folds a level that is not there. -/
theorem alignOn_eq_ok_iff : alignOn step lineage.length lineage = .ok a ↔
    (step.manifest.flowControl = true → step.manifest.acceptsBatchInput = false →
      lineage.length = 0) ∧
    (step.manifest.transform = .decrement → 0 < lineage.length) ∧ a = step.alignmentOn lineage := by
  have hrefused : (step.manifest.flowControl && !step.manifest.acceptsBatchInput &&
      decide (0 < lineage.length)) = true ↔ ¬(step.manifest.flowControl = true →
        step.manifest.acceptsBatchInput = false → lineage.length = 0) := by
    simp [and_assoc, List.length_pos_iff]
  unfold alignOn Step.alignmentOn Step.produced
  split
  · rename_i hdecides
    exact ⟨nofun, fun h => absurd h.1 (hrefused.1 hdecides)⟩
  · rename_i hdecides
    rw [and_iff_right (not_not.1 (hrefused.not.1 hdecides))]
    cases step.manifest.transform with
    | identity => simp [eq_comm]
    | increment => simp [eq_comm]
    | decrement =>
      by_cases hzero : lineage.length = 0
      · simp [hzero]
      · simp [hzero, Nat.pos_of_ne_zero hzero, List.dropLast_eq_take, eq_comm]

/-- A step is aligned exactly when its data lines up, and then on the longest lineage. -/
theorem alignStep_eq_ok_iff
    (hsource : ∀ s, step.HasSource s → sourceOf w aligned s = .ok (sourceOn s (lineages s))) :
    alignStep w aligned step = .ok a ↔ LinesUp lineages step ∧
      ∃ lineage, IsLongest lineages step lineage ∧ a = step.alignmentOn lineage := by
  constructor
  · intro h
    obtain ⟨sources, hsources, h⟩ := bind_eq_ok.1 h
    obtain ⟨lineage, hlineage, h⟩ := bind_eq_ok.1 h
    have hmem := mem_sourcesOf_iff hsource hsources
    rw [depth_of_commonLineage hmem hlineage] at h
    obtain ⟨hdecides, hcollapses, rfl⟩ := alignOn_eq_ok_iff.1 h
    have hjoins := (commonLineage_eq_ok_iff hmem).1 hlineage
    refine ⟨?_, lineage, hjoins.isLongest, rfl⟩
    constructor
    case accepts => exact (exists_sourcesOf_iff hsource).1 ⟨sources, hsources⟩
    case comparable => exact hjoins.comparable
    case decides =>
      intro hflow hbatch s hs
      exact Nat.le_zero.1 (hdecides hflow hbatch ▸ (hjoins.isPrefix s hs).length_le)
    case collapses =>
      intro htransform
      have hpos := hcollapses htransform
      -- the longest lineage is that of a source, unless there is none
      rcases hjoins.reached with ⟨s, hs, rfl⟩ | ⟨-, rfl⟩
      · exact ⟨s, hs, hpos⟩
      · exact absurd hpos (Nat.lt_irrefl 0)
  · rintro ⟨hlines, lineage, hlongest, rfl⟩
    obtain ⟨sources, hsources⟩ := (exists_sourcesOf_iff hsource).2 hlines.accepts
    have hmem := mem_sourcesOf_iff hsource hsources
    -- conversely, comparable sources have a lineage on which they are joined
    have hlineage := (commonLineage_eq_ok_iff hmem).2 (hlongest.joins hlines.comparable)
    refine bind_eq_ok.2 ⟨sources, hsources, bind_eq_ok.2 ⟨lineage, hlineage, ?_⟩⟩
    rw [depth_of_commonLineage hmem hlineage]
    refine alignOn_eq_ok_iff.2 ⟨fun hflow hbatch => ?_, fun htransform => ?_, rfl⟩
    · rcases hlongest.reached with ⟨s, hs, rfl⟩ | ⟨-, rfl⟩
      · exact hlines.decides hflow hbatch s hs
      · rfl
    · obtain ⟨s, hs, hpos⟩ := hlines.collapses htransform
      exact Nat.lt_of_lt_of_le hpos (hlongest.bound s hs)

end Step

/-! ### One step after another -/

/-- Whether some steps are aligned on the lineages of the data that they take. -/
def Lined (w : Workflow) (taken : String → Lineage) (aligned : Table String Alignment)
    (names : List String) : Prop :=
  ∀ name ∈ names, ∃ step, w.step? name = some step ∧
    aligned.get? name = some (step.alignmentOn (taken name))

/-- Selectors point at data of these lineages. -/
theorem Lined.sourceOf_eq (h : w.Lined taken aligned names) {s : Selector}
    (hs : s.PointsInto w names) :
    sourceOf w aligned s = .ok (sourceOn s (w.lineageAt taken s)) := by
  cases s with
  | input name =>
    obtain ⟨input, hinput⟩ := hs
    simp [sourceOf, sourceOn, lineageAt, hinput]
  | output owner property =>
    obtain ⟨step, hstep, ha⟩ := h owner hs
    simp [sourceOf, sourceOn, lineageAt, hstep, ha, Step.alignmentOn]
  | allOutputs owner =>
    obtain ⟨step, hstep, ha⟩ := h owner hs
    simp [sourceOf, sourceOn, lineageAt, hstep, ha, Step.alignmentOn]
  | step owner => exact hs.elim

/-- The sources of a step have the lineages that they have by the steps before. -/
theorem lineageAt_congr {taken' : String → Lineage} {s : Selector} (hs : s.PointsInto w names)
    (h : ∀ name ∈ names, taken' name = taken name) :
    w.lineageAt taken' s = w.lineageAt taken s := by
  cases s with
  | input name => rfl
  | output owner property => simp only [lineageAt, h owner hs]
  | allOutputs owner => simp only [lineageAt, h owner hs]
  | step owner => exact hs.elim

/-- Which lineage is the longest depends on the sources of the step only. -/
theorem isLongest_congr {lineages lineages' : Selector → Lineage} {lineage : Lineage}
    (h : ∀ s, step.HasSource s → lineages' s = lineages s)
    (hlongest : IsLongest lineages step lineage) : IsLongest lineages' step lineage := by
  refine ⟨fun s hs => h s hs ▸ hlongest.bound s hs, hlongest.reached.imp_left ?_⟩
  rintro ⟨s, hs, rfl⟩
  exact ⟨s, hs, h s hs⟩

/-- The sources of a step can be listed. -/
theorem Step.exists_selectors (step : Step) :
    ∃ selectors : List Selector, ∀ s, s ∈ selectors ↔ step.HasSource s := by
  refine ⟨(step.arguments.filter fun entry => !entry.2.isTargets).flatMap (·.2.selectors),
    fun s => List.mem_flatMap.trans ?_⟩
  constructor
  · rintro ⟨⟨property, a⟩, ha, hs⟩
    obtain ⟨ha, hkind⟩ := List.mem_filter.1 ha
    exact ⟨property, a, ha, by simpa using hkind, hs⟩
  · rintro ⟨property, a, ha, hkind, hs⟩
    exact ⟨(property, a), List.mem_filter.2 ⟨ha, by simp [hkind]⟩, hs⟩

/-- Among the lineages of the sources of a step there is a longest one. -/
theorem exists_isLongest (lineages : Selector → Lineage) (step : Step) :
    ∃ lineage, IsLongest lineages step lineage := by
  obtain ⟨selectors, hselectors⟩ := step.exists_selectors
  cases hd : deepest? (selectors.map fun s => sourceOn s (lineages s)) with
  | none =>
    have hnone : ∀ s, ¬step.HasSource s := by
      obtain rfl := List.map_eq_nil_iff.1 (deepest?_eq_none hd)
      exact fun s hs => List.not_mem_nil ((hselectors s).2 hs)
    exact ⟨[], fun s hs => absurd hs (hnone s), Or.inr ⟨hnone, rfl⟩⟩
  | some d =>
    obtain ⟨hmem, hdeepest⟩ := deepest?_eq_some hd
    obtain ⟨s, hs, rfl⟩ := List.mem_map.1 hmem
    refine ⟨lineages s, fun s' hs' => ?_, Or.inl ⟨s, (hselectors s).1 hs, rfl⟩⟩
    exact hdeepest _ (List.mem_map_of_mem ((hselectors s').2 hs'))

namespace Arranged

/-- A step is found under its name. -/
theorem step?_eq_some (harranged : w.Arranged order) (hstep : step ∈ w.steps) :
    w.step? step.name = some step :=
  Table.find?_name (harranged.perm.nodup_iff.1 harranged.nodup) hstep

/-- A step has a place in the order. -/
theorem name_mem (harranged : w.Arranged order) (hstep : step ∈ w.steps) : step.name ∈ order :=
  harranged.perm.mem_iff.2 (List.mem_map_of_mem hstep)

/-- A step takes data from the first steps of an order when it is among them. -/
theorem pointsInto (harranged : w.Arranged order) {before after : List String}
    (hsplit : order = before ++ after) (hstep : step ∈ w.steps) (hname : step.name ∈ before)
    {s : Selector} (hs : step.HasSource s) : s.PointsInto w before := by
  obtain ⟨first, last, rfl⟩ := List.append_of_mem hname
  have hsplit' : order = first ++ step.name :: (last ++ after) := by simp [hsplit]
  have hfirst := harranged.source hsplit' (harranged.step?_eq_some hstep) hs
  exact hfirst.mono fun _ => List.mem_append_left _

/-- Every workflow whose steps can be arranged has lineages. -/
theorem exists_traces (harranged : w.Arranged order) : ∃ taken, w.Traces taken := by
  have hinitial : ∀ before after, order = before ++ after →
      ∃ taken : String → Lineage, ∀ step ∈ w.steps, step.name ∈ before →
        IsLongest (w.lineageAt taken) step (taken step.name) := by
    intro before
    induction before using List.reverseRecOn with
    | nil => exact fun _ _ => ⟨fun _ => [], fun _ _ hname => absurd hname List.not_mem_nil⟩
    | append_singleton before name ih =>
      intro after hsplit
      rw [List.append_assoc, List.singleton_append] at hsplit
      obtain ⟨taken, htaken⟩ := ih (name :: after) hsplit
      obtain ⟨next, hnext⟩ := harranged.found name (by simp [hsplit])
      obtain ⟨lineage, hlongest⟩ := exists_isLongest (w.lineageAt taken) next
      have hnew : name ∉ before := fun hmem =>
        (List.nodup_append.1 (hsplit ▸ harranged.nodup)).2.2 name hmem name List.mem_cons_self rfl
      -- a further lineage changes nothing for the steps before, nor for what the next one takes
      have hkept : ∀ n ∈ before, Function.update taken name lineage n = taken n := fun n hn =>
        Function.update_of_ne (fun he : n = name => hnew (he ▸ hn)) _ _
      refine ⟨Function.update taken name lineage, fun step hstep hname => ?_⟩
      rcases List.mem_append.1 hname with hname | hname
      · rw [hkept _ hname]
        refine isLongest_congr (fun s hs => ?_) (htaken step hstep hname)
        exact lineageAt_congr (harranged.pointsInto hsplit hstep hname hs) hkept
      · obtain rfl := List.mem_singleton.1 hname
        have hfound := harranged.step?_eq_some hstep
        obtain rfl : step = next := Option.some.inj (hfound.symm.trans hnext)
        rw [Function.update_self]
        refine isLongest_congr (fun s hs => ?_) hlongest
        exact lineageAt_congr (harranged.source hsplit hfound hs) hkept
  obtain ⟨taken, htaken⟩ := hinitial order [] (List.append_nil order).symm
  exact ⟨taken, fun step hstep => htaken step hstep (harranged.name_mem hstep)⟩

/-- Alignments that fit together are those on the lineages of the data, and the data lines up. -/
theorem lined_of_solves (harranged : w.Arranged order) (htraces : w.Traces taken)
    (hsolves : w.Solves aligned) :
    w.Lined taken aligned order ∧ ∀ step ∈ w.steps, LinesUp (w.lineageAt taken) step := by
  -- what a step takes is settled by the alignments of the steps before
  have hstep : ∀ {before}, w.Lined taken aligned before → ∀ {step}, step ∈ w.steps →
      (∀ s, step.HasSource s → s.PointsInto w before) →
        aligned.get? step.name = some (step.alignmentOn (taken step.name)) ∧
          LinesUp (w.lineageAt taken) step := by
    intro before hlined step hstep hpoints
    obtain ⟨a, ha, hget⟩ := hsolves step hstep
    obtain ⟨hlines, lineage, hlongest, rfl⟩ :=
      (alignStep_eq_ok_iff fun s hs => hlined.sourceOf_eq (hpoints s hs)).1 ha
    have hjoins := hlongest.joins hlines.comparable
    rw [hjoins.eq_of_isLongest (htraces step hstep)]
    exact ⟨hget, hlines⟩
  have hlined : w.Lined taken aligned order := by
    refine forall_mem_of_before fun before name after hsplit hbefore => ?_
    obtain ⟨step, hfound⟩ := harranged.found name (by simp [hsplit])
    obtain ⟨rfl, hmem⟩ := name_of_step? hfound
    exact ⟨step, hfound, (hstep hbefore hmem fun s hs => harranged.source hsplit hfound hs).1⟩
  refine ⟨hlined, fun step hmem => (hstep hlined hmem fun s hs => ?_).2⟩
  exact harranged.pointsInto (List.append_nil order).symm hmem (harranged.name_mem hmem) hs

/-- When the data lines up, the alignments on its lineages fit together. -/
theorem solves_of_linesUp (harranged : w.Arranged order) (htraces : w.Traces taken)
    (hlines : ∀ step ∈ w.steps, LinesUp (w.lineageAt taken) step)
    (hlined : w.Lined taken aligned order) : w.Solves aligned := by
  intro step hstep
  have hname := harranged.name_mem hstep
  obtain ⟨step', hfound, hget⟩ := hlined step.name hname
  obtain rfl : step' = step := Option.some.inj (hfound.symm.trans (harranged.step?_eq_some hstep))
  refine ⟨_, (alignStep_eq_ok_iff fun s hs => hlined.sourceOf_eq ?_).2
    ⟨hlines _ hstep, _, htraces _ hstep, rfl⟩, hget⟩
  exact harranged.pointsInto (List.append_nil order).symm hstep hname hs

/-- A successful alignment is one on the lineages of the data, and has no steps but those of the
    workflow. -/
theorem lined_of_align (harranged : w.Arranged order) (htraces : w.Traces taken)
    (h : w.align order = .ok aligned) :
    w.Lined taken aligned order ∧ ∀ name, name ∉ order → aligned.get? name = none := by
  obtain ⟨hall, -⟩ := align_eq_ok h
  have hsolves := harranged.solves_of_align hall (harranged.perm.nodup_iff.1 harranged.nodup)
  have hnone : ∀ n b, Table.get? ([] : Table String Alignment) n = some b →
      b.outputLineage.length = b.output := fun n b hb => by cases hb
  exact ⟨(harranged.lined_of_solves htraces hsolves).1,
    (alignAll_eq_ok hall harranged.nodup (fun _ _ => rfl) hnone).1⟩

end Arranged

/-- A step governs another on these lineages when its own begins that of the other. -/
theorem governs_alignmentOn (governor governed : Step) {lineage lineage' : Lineage} :
    governs (governor.alignmentOn lineage) (governed.alignmentOn lineage') = true ↔
      lineage <+: lineage' := by
  rw [governs, Bool.and_eq_true, decide_eq_true_eq, Lineage.extendsTo_iff]
  exact and_iff_right_of_imp List.IsPrefix.length_le

/-- A decision is accepted when its targets extend the lineage of the step that decides. -/
theorem Lined.checkGovernance_eq_ok_iff (h : w.Lined taken aligned order)
    (hname : step.name ∈ order) (htargets : ∀ target ∈ step.targets, target ∈ order) :
    checkGovernance aligned step = .ok () ↔ GovernsAlong taken step := by
  obtain ⟨governor, -, hgovernor⟩ := h step.name hname
  simp only [checkGovernance, hgovernor, forM_eq_ok]
  refine forall₂_congr fun target htarget => ?_
  obtain ⟨governed, -, hgoverned⟩ := h target (htargets target htarget)
  simp only [hgoverned]
  rw [← governs_alignmentOn governor governed]
  split <;> simp [*]

/-- In every order in which the steps can be arranged, alignment succeeds exactly when the data of
    every step lines up and every step lies on the lineages of those about which it decides. -/
theorem Arranged.exists_align_iff (harranged : w.Arranged order)
    (htargets : ∀ step ∈ w.steps, ∀ target ∈ step.targets, target ∈ order)
    (htraces : w.Traces taken) : (∃ aligned, w.align order = .ok aligned) ↔
      ∀ step ∈ w.steps, LinesUp (w.lineageAt taken) step ∧ GovernsAlong taken step := by
  constructor
  · rintro ⟨aligned, h⟩ step hstep
    obtain ⟨hall, hgoverns⟩ := align_eq_ok h
    have hsolves := harranged.solves_of_align hall (harranged.perm.nodup_iff.1 harranged.nodup)
    obtain ⟨hlined, hlines⟩ := harranged.lined_of_solves htraces hsolves
    exact ⟨hlines step hstep, (hlined.checkGovernance_eq_ok_iff (harranged.name_mem hstep)
      (htargets step hstep)).1 (hgoverns step hstep)⟩
  · intro h
    -- the table of all alignments on these lineages fits together, so it is found
    have htable : w.Lined taken (w.steps.map fun step =>
        (step.name, step.alignmentOn (taken step.name))) order := by
      intro name hname
      obtain ⟨step, hfound⟩ := harranged.found name hname
      obtain ⟨rfl, hstep⟩ := name_of_step? hfound
      exact ⟨step, hfound,
        Table.get?_map_name (harranged.perm.nodup_iff.1 harranged.nodup) hstep⟩
    have hsolves := harranged.solves_of_linesUp htraces (fun step hstep => (h step hstep).1) htable
    obtain ⟨aligned, hall, haligned⟩ :=
      harranged.exists_alignAll hsolves (List.nil_append order).symm (List.forall_mem_nil _)
    have hlined : w.Lined taken aligned order := fun name hname =>
      (htable name hname).imp fun _ hstep => ⟨hstep.1, (haligned name hname).trans hstep.2⟩
    refine ⟨aligned, bind_eq_ok.2 ⟨aligned, hall, bind_eq_ok.2 ⟨(), ?_, rfl⟩⟩⟩
    exact forM_eq_ok.2 fun step hstep =>
      (hlined.checkGovernance_eq_ok_iff (harranged.name_mem hstep) (htargets step hstep)).2
        (h step hstep).2

end Workflow

end BatchFlow
