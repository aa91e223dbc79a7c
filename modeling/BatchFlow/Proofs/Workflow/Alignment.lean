import BatchFlow.Proofs.Workflow.Edges
import BatchFlow.Workflow.Alignment

namespace BatchFlow.Workflow

/-!
# What alignment has established

* `Alignment.Suits` — the depths and lineages of a step go together and follow its manifest.
* `Aligns` — an alignment goes with the sources of a step.
* `alignAll_eq_ok` — every step is aligned with the sources before it.
* `governs_of_checkGovernance` — a step that decides about another lies on the lineage of that one.
-/

/-- The depths and lineages go together and are changed as a manifest says. -/
structure Alignment.Suits (name : String) (m : Manifest) (a : Alignment) : Prop where
  length : a.lineage.length = a.input
  identity : m.transform = .identity → a.output = a.input ∧ a.outputLineage = a.lineage
  increment : m.transform = .increment →
    a.output = a.input + 1 ∧ a.outputLineage = a.lineage ++ [name]
  decrement : m.transform = .decrement →
    0 < a.input ∧ a.output = a.input - 1 ∧ a.outputLineage = a.lineage.take (a.input - 1)
  decides : m.flowControl = true → m.acceptsBatchInput = false → a.input = 0

/-- The output's lineage has a name for each of its levels. -/
theorem Alignment.Suits.output_length {name : String} {m : Manifest} {a : Alignment}
    (h : a.Suits name m) : a.outputLineage.length = a.output := by
  have hlength := h.length
  cases ht : m.transform with
  | identity =>
    obtain ⟨ho, hl⟩ := h.identity ht
    rw [ho, hl, hlength]
  | increment =>
    obtain ⟨ho, hl⟩ := h.increment ht
    rw [ho, hl, List.length_append, hlength, List.length_singleton]
  | decrement =>
    obtain ⟨hpos, ho, hl⟩ := h.decrement ht
    rw [ho, hl, List.length_take, hlength]
    omega

/-- The level that a folding step folds stands below the levels of its parents. -/
theorem Alignment.Suits.exists_folded {name : String} {m : Manifest} {a : Alignment}
    (h : a.Suits name m) (ht : m.transform = .decrement) :
    ∃ level, a.lineage.take (a.input - 1) ++ [level] = a.lineage := by
  obtain ⟨hpos, -⟩ := h.decrement ht
  have hne : a.lineage ≠ [] := List.ne_nil_of_length_pos (h.length ▸ hpos)
  refine ⟨a.lineage.getLast hne, ?_⟩
  rw [← h.length, ← List.dropLast_eq_take, List.dropLast_append_getLast]

/-! ### One step -/

/-- The deepest source is one of the sources, and none is deeper. -/
theorem deepest?_eq_some {sources : List Source} {d : Source} (h : deepest? sources = some d) :
    d ∈ sources ∧ ∀ s ∈ sources, s.depth ≤ d.depth := by
  cases sources with
  | nil => cases h
  | cons first rest =>
    -- the fold keeps the best source so far, so the induction is on all starting points
    have hfold : ∀ (best : Source),
        let d := rest.foldl (fun best s => if s.depth ≤ best.depth then best else s) best
        (d = best ∨ d ∈ rest) ∧ best.depth ≤ d.depth ∧ ∀ s ∈ rest, s.depth ≤ d.depth := by
      clear h
      induction rest with
      | nil => intro best; exact ⟨Or.inl rfl, Nat.le_refl _, fun _ hs => by cases hs⟩
      | cons s rest ih =>
        intro best
        rw [List.foldl_cons]
        by_cases hle : s.depth ≤ best.depth
        · rw [if_pos hle]
          obtain ⟨hmem, hbest, hrest⟩ := ih best
          refine ⟨hmem.imp_right (List.mem_cons_of_mem _), hbest, ?_⟩
          exact List.forall_mem_cons.2 ⟨Nat.le_trans hle hbest, hrest⟩
        · rw [if_neg hle]
          obtain ⟨hmem, hs, hrest⟩ := ih s
          refine ⟨Or.inr ?_, Nat.le_trans (by omega) hs, List.forall_mem_cons.2 ⟨hs, hrest⟩⟩
          rcases hmem with he | hmem
          · exact List.mem_cons.2 (Or.inl he)
          · exact List.mem_cons_of_mem _ hmem
    cases h
    obtain ⟨hmem, hfirst, hrest⟩ := hfold first
    exact ⟨List.mem_cons.2 hmem, List.forall_mem_cons.2 ⟨hfirst, hrest⟩⟩

/-- There is a deepest source unless there is none at all. -/
theorem deepest?_eq_none {sources : List Source} (h : deepest? sources = none) : sources = [] := by
  cases sources with
  | nil => rfl
  | cons first rest => cases h

/-- The deepest source sets the lineage, and all others lie on it. -/
theorem commonLineage_eq_ok {step : Step} {sources : List Source} {lineage : Lineage}
    (h : commonLineage step sources = .ok lineage) :
    (sources = [] ∧ lineage = []) ∨ ∃ d, deepest? sources = some d ∧ lineage = d.lineage ∧
      ∀ s ∈ sources, s.lineage <+: d.lineage := by
  unfold commonLineage at h
  split at h
  · rename_i hnone
    cases h
    exact Or.inl ⟨deepest?_eq_none hnone, rfl⟩
  · rename_i d hsome
    split at h
    · cases h
    · rename_i hall
      cases h
      refine Or.inr ⟨d, hsome, rfl, fun s hs => Lineage.extendsTo_iff.1 ?_⟩
      simpa using List.find?_eq_none.1 hall s hs

/-- A step that is aligned on a lineage has depths and lineages that suit its manifest. -/
theorem alignOn_eq_ok {step : Step} {depth : Nat} {lineage : Lineage} {a : Alignment}
    (h : alignOn step depth lineage = .ok a) (hlength : lineage.length = depth) :
    a.input = depth ∧ a.lineage = lineage ∧ a.Suits step.name step.manifest := by
  unfold alignOn at h
  split at h
  · cases h
  · rename_i hdecides
    -- the check on decisions is what the rest relies on, whatever the transform
    have hzero : step.manifest.flowControl = true → step.manifest.acceptsBatchInput = false →
        depth = 0 := by
      intro hf hb
      simp only [hf, hb, Bool.not_false, Bool.and_self, Bool.true_and,
        decide_eq_true_eq] at hdecides
      omega
    split at h
    · rename_i ht
      cases h
      exact ⟨rfl, rfl, hlength, fun _ => ⟨rfl, rfl⟩, fun h' => (by rw [ht] at h'; cases h'),
        fun h' => (by rw [ht] at h'; cases h'), hzero⟩
    · rename_i ht
      cases h
      exact ⟨rfl, rfl, hlength, fun h' => (by rw [ht] at h'; cases h'), fun _ => ⟨rfl, rfl⟩,
        fun h' => (by rw [ht] at h'; cases h'), hzero⟩
    · rename_i ht
      split at h
      · cases h
      · rename_i hpos
        cases h
        exact ⟨rfl, rfl, hlength, fun h' => (by rw [ht] at h'; cases h'),
          fun h' => (by rw [ht] at h'; cases h'), fun _ => ⟨Nat.pos_of_ne_zero hpos, rfl, rfl⟩,
          hzero⟩

/-- The check for batches leaves the source as it is. -/
theorem checkedSource_eq_ok {w : Workflow} {aligned : Table String Alignment} {step : Step}
    {property : String} {s : Selector} {source : Source}
    (h : checkedSource w aligned step property s = .ok source) :
    sourceOf w aligned s = .ok source := by
  unfold checkedSource at h
  obtain ⟨source', hsource, h⟩ := bind_eq_ok.1 h
  split at h
  · cases h
  · cases pure_eq_ok.1 h
    exact hsource

/-- The sources of a step are those at which its selectors point. -/
theorem sourcesOf_eq_ok {w : Workflow} {aligned : Table String Alignment} {step : Step}
    {sources : List Source} (h : sourcesOf w aligned step = .ok sources) :
    (∀ source ∈ sources, ∃ s, step.HasSource s ∧ sourceOf w aligned s = .ok source) ∧
      ∀ s, step.HasSource s → ∃ source ∈ sources, sourceOf w aligned s = .ok source := by
  unfold sourcesOf at h
  obtain ⟨lists, hlists, h⟩ := bind_eq_ok.1 h
  cases pure_eq_ok.1 h
  constructor
  · intro source hsource
    obtain ⟨list, hlist, hmem⟩ := List.mem_flatten.1 hsource
    obtain ⟨⟨property, a⟩, ha, hfound⟩ := exists_of_mem_mapM hlists hlist
    obtain ⟨s, hs, hchecked⟩ := exists_of_mem_mapM hfound hmem
    obtain ⟨harg, hkind⟩ := List.mem_filter.1 ha
    exact ⟨s, ⟨property, a, harg, by simpa using hkind, hs⟩, checkedSource_eq_ok hchecked⟩
  · rintro s ⟨property, a, ha, hkind, hs⟩
    have hfilter : (property, a) ∈ step.arguments.filter fun entry => !entry.2.isTargets :=
      List.mem_filter.2 ⟨ha, by simp [hkind]⟩
    obtain ⟨list, hlist, hfound⟩ := exists_mem_of_mapM hlists hfilter
    obtain ⟨source, hmem, hchecked⟩ := exists_mem_of_mapM hfound hs
    exact ⟨source, List.mem_flatten.2 ⟨list, hlist, hmem⟩, checkedSource_eq_ok hchecked⟩

/-- An alignment goes with the sources of a step, given the alignments of the steps before it. -/
structure Aligns (w : Workflow) (aligned : Table String Alignment) (step : Step) (a : Alignment) :
    Prop where
  aligned_eq : alignStep w aligned step = .ok a
  suits : a.Suits step.name step.manifest
  source : ∀ s, step.HasSource s → ∃ source, sourceOf w aligned s = .ok source ∧
    source.lineage.length = source.depth ∧ source.lineage <+: a.lineage
  deepest : 0 < a.input → ∃ s source, step.HasSource s ∧ sourceOf w aligned s = .ok source ∧
    source.depth = a.input

/-- A source has one level per unit of its depth. -/
theorem sourceOf_length {w : Workflow} {aligned : Table String Alignment}
    (hlength : ∀ name a, aligned.get? name = some a → a.outputLineage.length = a.output)
    {s : Selector} {source : Source} (h : sourceOf w aligned s = .ok source) :
    source.lineage.length = source.depth := by
  unfold sourceOf at h
  split at h
  · split at h
    · cases h
      exact Lineage.length_ofInput _
    · cases h
  all_goals
    split at h
    · rename_i hget
      cases h
      exact hlength _ _ hget
    · cases h

/-- A step that could be aligned is aligned on its sources. -/
theorem aligns_of_alignStep {w : Workflow} {aligned : Table String Alignment}
    (hlength : ∀ name a, aligned.get? name = some a → a.outputLineage.length = a.output)
    {step : Step} {a : Alignment} (h : alignStep w aligned step = .ok a) :
    Aligns w aligned step a := by
  have haligned := h
  unfold alignStep at h
  obtain ⟨sources, hsources, h⟩ := bind_eq_ok.1 h
  obtain ⟨lineage, hlineage, h⟩ := bind_eq_ok.1 h
  obtain ⟨hfrom, hto⟩ := sourcesOf_eq_ok hsources
  rcases commonLineage_eq_ok hlineage with ⟨rfl, rfl⟩ | ⟨d, hd, rfl, hall⟩
  · obtain ⟨hinput, -, hsuits⟩ := alignOn_eq_ok h rfl
    refine ⟨haligned, hsuits, fun s hs => ?_, fun hpos => ?_⟩
    · obtain ⟨source, hmem, -⟩ := hto s hs
      cases hmem
    · rw [hinput] at hpos
      exact absurd hpos (Nat.lt_irrefl 0)
  · rw [hd] at h
    obtain ⟨sd, hsd, hds⟩ := hfrom d (deepest?_eq_some hd).1
    obtain ⟨hinput, hlin, hsuits⟩ := alignOn_eq_ok h (sourceOf_length hlength hds)
    refine ⟨haligned, hsuits, fun s hs => ?_, fun _ => ⟨sd, d, hsd, hds, hinput.symm⟩⟩
    obtain ⟨source, hmem, hsource⟩ := hto s hs
    exact ⟨source, hsource, sourceOf_length hlength hsource, hlin ▸ hall source hmem⟩

/-! ### All steps -/

/-- A step is found under its name, among the steps. -/
theorem name_of_step? {w : Workflow} {name : String} {step : Step} (h : w.step? name = some step) :
    step.name = name ∧ step ∈ w.steps := by
  have hname := List.find?_some h
  exact ⟨by simpa using hname, List.mem_of_find?_eq_some h⟩

/-- Every step is aligned with the sources before it, and no alignment is changed later on. -/
theorem alignAll_eq_ok {w : Workflow} {aligned final : Table String Alignment}
    {names : List String} (h : alignAll w aligned names = .ok final) (hnodup : names.Nodup)
    (hnew : ∀ name ∈ names, aligned.get? name = none)
    (hlength : ∀ name a, aligned.get? name = some a → a.outputLineage.length = a.output) :
    (∀ name, name ∉ names → final.get? name = aligned.get? name) ∧
      ∀ before name after, names = before ++ name :: after →
        ∃ step a earlier, w.step? name = some step ∧ final.get? name = some a ∧
          Aligns w earlier step a ∧
          ∀ n, earlier.get? n = if n ∈ before then final.get? n else aligned.get? n := by
  induction names generalizing aligned with
  | nil =>
    cases h
    exact ⟨fun _ _ => rfl, fun before _ _ he => by simp at he⟩
  | cons name rest ih =>
    unfold alignAll at h
    split at h
    · cases h
    · rename_i step hstep
      obtain ⟨a, ha, h⟩ := bind_eq_ok.1 h
      rw [List.nodup_cons] at hnodup
      -- a name is aligned once: the later steps look at it in the table and do not change it
      have haligns := aligns_of_alignStep hlength ha
      have hnew' : ∀ n ∈ rest, (aligned.put name a).get? n = none := by
        intro n hn
        rw [Table.get?_put, if_neg (fun he : name = n => hnodup.1 (he ▸ hn))]
        exact hnew n (List.mem_cons_of_mem _ hn)
      have hlength' : ∀ n b, (aligned.put name a).get? n = some b →
          b.outputLineage.length = b.output := by
        intro n b hb
        rw [Table.get?_put] at hb
        split at hb
        · cases hb
          exact haligns.suits.output_length
        · exact hlength n b hb
      obtain ⟨hold, hrest⟩ := ih h hnodup.2 hnew' hlength'
      have hget : final.get? name = some a := by
        rw [hold name hnodup.1, Table.get?_put, if_pos rfl]
      refine ⟨fun n hn => ?_, fun before n after he => ?_⟩
      · rw [List.mem_cons, not_or] at hn
        rw [hold n hn.2, Table.get?_put, if_neg (Ne.symm hn.1)]
      · cases before with
        | nil =>
          obtain ⟨rfl, -⟩ : name = n ∧ rest = after := by simpa using he
          exact ⟨step, a, aligned, hstep, hget, haligns, fun m => by simp⟩
        | cons first before =>
          obtain ⟨rfl, hsplit⟩ : name = first ∧ rest = before ++ n :: after := by simpa using he
          obtain ⟨step', a', earlier, hstep', hget', haligns', hearlier⟩ := hrest _ _ _ hsplit
          refine ⟨step', a', earlier, hstep', hget', haligns', fun m => ?_⟩
          rw [hearlier m, Table.get?_put]
          by_cases hm : m ∈ before
          · rw [if_pos hm, if_pos (List.mem_cons_of_mem _ hm)]
          · rw [if_neg hm]
            by_cases hname : name = m
            · subst hname
              rw [if_pos rfl, if_pos List.mem_cons_self, hget]
            · rw [if_neg hname, if_neg (by simp [hm, Ne.symm hname])]

/-- A step that decides about another lies on the lineage of that one. -/
theorem governs_of_checkGovernance {aligned : Table String Alignment} {step : Step}
    (h : checkGovernance aligned step = .ok ()) {governor governed : Alignment} {target : String}
    (hgovernor : aligned.get? step.name = some governor) (ht : target ∈ step.targets)
    (hgoverned : aligned.get? target = some governed) :
    governor.input ≤ governed.input ∧ governor.lineage <+: governed.lineage := by
  simp only [checkGovernance, hgovernor] at h
  have htarget := forM_eq_ok.1 h target ht
  simp only [hgoverned] at htarget
  split at htarget
  · rename_i hgoverns
    rw [governs, Bool.and_eq_true, decide_eq_true_eq] at hgoverns
    exact ⟨hgoverns.1, Lineage.extendsTo_iff.1 hgoverns.2⟩
  · cases htarget

/-- All steps are aligned in order, and all decisions line up. -/
theorem align_eq_ok {w : Workflow} {order : List String} {aligned : Table String Alignment}
    (h : w.align order = .ok aligned) :
    alignAll w [] order = .ok aligned ∧
      ∀ step ∈ w.steps, checkGovernance aligned step = .ok () := by
  unfold align at h
  obtain ⟨aligned', hall, h⟩ := bind_eq_ok.1 h
  obtain ⟨⟨⟩, hgovern, h⟩ := bind_eq_ok.1 h
  cases pure_eq_ok.1 h
  exact ⟨hall, forM_eq_ok.1 hgovern⟩

end BatchFlow.Workflow
