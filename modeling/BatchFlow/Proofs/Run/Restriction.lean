import BatchFlow.Proofs.Run.Recorded
import BatchFlow.Proofs.Run.Picking

namespace BatchFlow

/-!
# One element of a journal

What the steps of a run return is cut down to one element of the batch: the outputs below its
position remain and move to the position zero. Steps whose data is not nested in the batch keep all.

* `Lineage.inBatch` — whether data is nested in the batch of the workflow inputs.
* `Entry.pick`, `Journal.pick` — what remains of a step and of all steps.
* `Entry.produced_pick`, `Entry.get?_counts_pick`, `Entry.selects_pick` — what a step produced,
  where it fanned out and what it selected below the position.
* `Plan.Local` — no step mixes the elements of the batch.
-/

/-- Whether data is nested in the batch of the workflow inputs. -/
def Lineage.inBatch (l : Lineage) : Bool := l.head? == some inputLevel

namespace Index

/-- Whether an index lies at a position of the batch or below. -/
def isBelow (position : Nat) (index : Index) : Bool := index.head? == some position

/-- The index moved to the position zero. -/
def toFirst (index : Index) : Index := 0 :: index.tail

/-- An index lies at the position with which it begins. -/
@[simp] theorem isBelow_cons (position k : Nat) (rest : Index) :
    isBelow position (k :: rest) = (k == position) := by
  simp [isBelow]

/-- The rest of an index stays. -/
@[simp] theorem toFirst_cons (k : Nat) (rest : Index) : toFirst (k :: rest) = 0 :: rest := rfl

/-- An index at a position begins with it. -/
theorem eq_cons_of_isBelow {position : Nat} {index : Index} (h : isBelow position index) :
    index = position :: index.tail := by
  cases index with
  | nil => cases h
  | cons k rest =>
    rw [isBelow_cons, beq_iff_eq] at h
    rw [h, List.tail_cons]

end Index

/-! ### Tables by index -/

section Restrict

variable {κ ν : Type} (position : Nat)

/-- The entries below a position, moved to the position zero. -/
def restrict (t : List ((κ × Index) × ν)) : List ((κ × Index) × ν) :=
  (t.filter fun x => Index.isBelow position x.1.2).map fun x => ((x.1.1, Index.toFirst x.1.2), x.2)

/-- Tables may be restricted one after another. -/
theorem restrict_append (t t' : List ((κ × Index) × ν)) :
    restrict position (t ++ t') = restrict position t ++ restrict position t' := by
  rw [restrict, List.filter_append, List.map_append]
  rfl

/-- Restricting keeps the order of entries. -/
theorem restrict_reverse (t : List ((κ × Index) × ν)) :
    restrict position t.reverse = (restrict position t).reverse := by
  rw [restrict, List.filter_reverse, List.map_reverse]
  rfl

/-- What is found below zero is what was found below the position. -/
theorem get?_restrict [DecidableEq κ] (t : Table (κ × Index) ν) (a : κ) (rest : Index) :
    Table.get? (restrict position t) (a, 0 :: rest) = t.get? (a, position :: rest) := by
  let rename (key : κ × Index) : κ × Index := (key.1, Index.toFirst key.2)
  let keep (key : κ × Index) : Bool := Index.isBelow position key.2
  have hkeep : keep (a, position :: rest) := by simp [keep]
  have hmap : Table.get? ((t.filter fun x => keep x.1).map fun x => (rename x.1, x.2))
      (rename (a, position :: rest)) =
        Table.get? (t.filter fun x => keep x.1) (a, position :: rest) := by
    -- moving the indices below one position is injective
    refine Table.get?_map _ rename fun key hkey he => ?_
    obtain ⟨x, hx, rfl⟩ := List.mem_map.1 hkey
    obtain ⟨-, hbelow⟩ := List.mem_filter.1 hx
    obtain ⟨hname, hindex⟩ := Prod.mk.inj he
    refine Prod.ext hname ((Index.eq_cons_of_isBelow hbelow).trans ?_)
    exact congrArg (position :: ·) (List.cons.inj hindex).2
  exact hmap.trans (Table.get?_filter t keep hkeep)

end Restrict

/-! ### What a step returned for one element -/

/-- What a step returned below a position, moved to the position zero; all if its data is not nested
    in the batch. -/
def Entry.pick (position : Nat) (e : Entry) : Entry where
  step := e.step
  outputs :=
    if e.step.alignment.lineage.inBatch then
      (e.outputs.filter fun o => Index.isBelow position o.1).map fun o => (Index.toFirst o.1, o.2)
    else e.outputs

namespace Entry

variable {e : Entry} {position : Nat}

/-- Outside the batch nothing is left out. -/
theorem pick_of_not_inBatch (h : e.step.alignment.lineage.inBatch = false) :
    e.pick position = e := by
  rw [pick, h]
  rfl

/-- Inside the batch the outputs below the position are kept. -/
theorem pick_outputs (h : e.step.alignment.lineage.inBatch) : (e.pick position).outputs =
    (e.outputs.filter fun o => Index.isBelow position o.1).map fun o =>
      (Index.toFirst o.1, o.2) := if_pos h

/-- An output below zero is one below the position. -/
theorem mem_pick_outputs (h : e.step.alignment.lineage.inBatch) {rest : Index} {output : Output} :
    (0 :: rest, output) ∈ (e.pick position).outputs ↔ (position :: rest, output) ∈ e.outputs := by
  rw [pick_outputs h, List.mem_map]
  constructor
  · rintro ⟨⟨index, output'⟩, hmem, he⟩
    obtain ⟨hmem, hbelow⟩ := List.mem_filter.1 hmem
    obtain ⟨hindex, rfl⟩ := Prod.mk.inj he
    have hbegin : index = position :: index.tail := Index.eq_cons_of_isBelow hbelow
    have htail : index.tail = rest := (List.cons.inj hindex).2
    rwa [hbegin, htail] at hmem
  · intro hmem
    exact ⟨_, List.mem_filter.2 ⟨hmem, by simp⟩, rfl⟩

/-- A target is selected below zero where it was selected below the position. -/
theorem selects_pick (h : e.step.alignment.lineage.inBatch) {target : String} {rest : Index} :
    (e.pick position).Selects target (0 :: rest) ↔ e.Selects target (position :: rest) :=
  exists_congr fun _ => and_congr_left fun _ => mem_pick_outputs h

/-- The values of an output at an index lie at that index or below. -/
theorem restrict_valuesOf (name : String) (k : Nat) (rest : Index) (output : Output) :
    restrict position (valuesOf name (k :: rest, output)) =
      if k = position then valuesOf name (0 :: rest, output) else [] := by
  cases output with
  | values values => by_cases hk : k = position <;> simp [restrict, valuesOf, hk]
  | decision next => by_cases hk : k = position <;> simp [restrict, valuesOf]
  | nested items =>
    by_cases hk : k = position
    · simp [restrict, valuesOf, hk, List.filter_map, Function.comp_def]
    · simp [restrict, valuesOf, hk, List.filter_map, Function.comp_def]

/-- Values are kept below the position. -/
theorem produced_pick (h : e.step.alignment.lineage.inBatch) (hindex : ∀ o ∈ e.outputs, o.1 ≠ []) :
    (e.pick position).produced = restrict position e.produced := by
  rw [produced, produced, pick_outputs h]
  show List.flatMap (valuesOf e.step.name) _ = _
  generalize e.outputs = outputs at hindex
  induction outputs with
  | nil => rfl
  | cons o outputs ih =>
    obtain ⟨index, output⟩ := o
    obtain ⟨hne, hrest⟩ := List.forall_mem_cons.1 hindex
    obtain ⟨k, rest, rfl⟩ := List.exists_cons_of_ne_nil hne
    rw [List.flatMap_cons, restrict_append, restrict_valuesOf, ← ih hrest]
    by_cases hk : k = position <;> simp [hk]

/-- Numbers of children are kept below the position. -/
theorem counts_pick (h : e.step.alignment.lineage.inBatch) :
    (e.pick position).counts = restrict position e.counts := by
  rw [counts, counts, pick_outputs h]
  show List.filterMap (countOf e.step.alignment.outputLineage) _ = _
  generalize e.outputs = outputs
  induction outputs with
  | nil => rfl
  | cons o outputs ih =>
    obtain ⟨index, output⟩ := o
    -- an output fans out at its own index
    have hcount : ∀ index, countOf e.step.alignment.outputLineage (index, output) =
        (countOf e.step.alignment.outputLineage ([], output)).map
          fun c => ((c.1.1, index), c.2) := by
      intro index
      cases output <;> rfl
    rw [List.filterMap_cons, List.filter_cons, hcount index]
    by_cases hbelow : Index.isBelow position index
    · rw [if_pos hbelow, List.map_cons, List.filterMap_cons, hcount (Index.toFirst index), ih]
      cases countOf e.step.alignment.outputLineage ([], output) with
      | none => rfl
      | some c => simp [restrict, hbelow]
    · rw [if_neg hbelow, ih]
      cases countOf e.step.alignment.outputLineage ([], output) with
      | none => rfl
      | some c => simp [restrict, hbelow]

/-- A step fans out nowhere but below its own lineage. -/
theorem get?_counts_eq_none {l : Lineage} (hl : l ≠ e.step.alignment.outputLineage)
    (index : Index) : Table.get? e.counts (l, index) = none := by
  rw [Table.get?_eq_none_iff]
  exact fun hkey => hl (e.key_of_mem_counts hkey).1

section Counts

-- the outputs of the step are nested in the batch exactly when its inputs are
variable {l : Lineage}
  (hbatch : e.step.alignment.outputLineage.inBatch = e.step.alignment.lineage.inBatch)
include hbatch

/-- In the batch a step fans out under the position zero as it did under the position. -/
theorem get?_counts_pick (hin : l.inBatch) (rest : Index) :
    Table.get? (e.pick position).counts (l, 0 :: rest) =
      Table.get? e.counts (l, position :: rest) := by
  cases h : e.step.alignment.lineage.inBatch with
  | true =>
    rw [counts_pick h]
    exact get?_restrict position _ _ _
  | false =>
    have hl : l ≠ e.step.alignment.outputLineage := by
      rintro rfl
      rw [hbatch, h] at hin
      cases hin
    rw [pick_of_not_inBatch h, get?_counts_eq_none hl, get?_counts_eq_none hl]

/-- Numbers of children outside the batch are kept. -/
theorem get?_counts_pick_of_not_inBatch (hout : l.inBatch = false) (index : Index) :
    Table.get? (e.pick position).counts (l, index) = Table.get? e.counts (l, index) := by
  cases h : e.step.alignment.lineage.inBatch with
  | false => rw [pick_of_not_inBatch h]
  | true =>
    have hl : l ≠ e.step.alignment.outputLineage := by
      rintro rfl
      rw [hbatch, h] at hout
      cases hout
    have hl' : l ≠ (e.pick position).step.alignment.outputLineage := hl
    rw [get?_counts_eq_none hl, get?_counts_eq_none hl']

end Counts

end Entry

/-! ### What all steps left for one element -/

/-- What all steps returned for one element of the batch. -/
def Journal.pick (position : Nat) (j : Journal) : Journal := j.map (Entry.pick position)

namespace Journal

variable {j : Journal} {position : Nat}

/-- Entries are picked one by one. -/
theorem ofStep?_pick (name : String) :
    (j.pick position).ofStep? name = (j.ofStep? name).map (Entry.pick position) :=
  List.find?_map

/-- Outputs are found as before when they are in each entry. -/
theorem output?_pick {name : String} {index index' : Index}
    (h : ∀ e, j.ofStep? name = some e →
      Table.get? (e.pick position).produced.reverse (name, index') =
        Table.get? e.produced.reverse (name, index)) :
    (j.pick position).output? name index' = j.output? name index := by
  rw [output?, output?, ofStep?_pick]
  cases he : j.ofStep? name with
  | none => rfl
  | some e => exact h e he

/-- Numbers of children are found as before when they are in each entry. -/
theorem count?_pick {l : Lineage} {index index' : Index}
    (h : ∀ e ∈ j,
      Table.get? (e.pick position).counts (l, index') = Table.get? e.counts (l, index)) :
    (j.pick position).count? l index' = j.count? l index := by
  rw [count?, count?]
  cases l.getLast? with
  | none => rfl
  | some owner =>
    rw [Option.bind_some, Option.bind_some, ofStep?_pick]
    cases he : j.ofStep? owner with
    | none => rfl
    | some e => exact h e (mem_of_ofStep? he).1

/-- The same steps decide. -/
theorem decides_pick {target : String} {e' : Entry} :
    (j.pick position).Decides target e' ↔ ∃ e, j.Decides target e ∧ e.pick position = e' := by
  constructor
  · rintro ⟨hmem, hdecides⟩
    obtain ⟨e, he, rfl⟩ := List.mem_map.1 hmem
    exact ⟨e, ⟨he, hdecides⟩, rfl⟩
  · rintro ⟨e, ⟨he, hdecides⟩, rfl⟩
    exact ⟨List.mem_map_of_mem he, hdecides⟩

end Journal

/-! ### Plans that keep the elements of a batch apart -/

/-- No step mixes the elements of the batch: no level of a step is taken for that of the inputs, no
    step folds the whole batch, and none decides about a folding step at the level that it folds. -/
structure Plan.Local (plan : Plan) : Prop where
  named : ∀ step ∈ plan.steps, step.name ≠ Lineage.inputLevel
  folds : ∀ step ∈ plan.steps, step.manifest.transform = .decrement →
    step.alignment.lineage ≠ [Lineage.inputLevel]
  decides : ∀ step ∈ plan.steps, step.manifest.transform = .decrement → ∀ g ∈ plan.steps,
    g.manifest.flowControl = true → step.name ∈ g.targets →
      g.alignment.input ≠ step.alignment.input

instance (plan : Plan) : Decidable plan.Local :=
  decidable_of_iff ((∀ step ∈ plan.steps, step.name ≠ Lineage.inputLevel) ∧
      (∀ step ∈ plan.steps, step.manifest.transform = .decrement →
        step.alignment.lineage ≠ [Lineage.inputLevel]) ∧
      ∀ step ∈ plan.steps, step.manifest.transform = .decrement → ∀ g ∈ plan.steps,
        g.manifest.flowControl = true → step.name ∈ g.targets →
          g.alignment.input ≠ step.alignment.input)
    ⟨fun ⟨named, folds, decides⟩ => ⟨named, folds, decides⟩,
      fun h => ⟨h.named, h.folds, h.decides⟩⟩

namespace Plan.Local

variable {plan : Plan} {step : Plan.Step}

/-- The outputs of a step are nested in the batch exactly when its inputs are. -/
theorem inBatch_output (h : plan.Local) (hplan : plan.Coherent) (hstep : step ∈ plan.steps) :
    step.alignment.outputLineage.inBatch = step.alignment.lineage.inBatch := by
  obtain ⟨earlier, later, hsplit⟩ := List.append_of_mem hstep
  have hsuits := (hplan.step hsplit).suits
  cases ht : step.manifest.transform with
  | identity => rw [(hsuits.identity ht).2]
  | increment =>
    rw [(hsuits.increment ht).2]
    cases hl : step.alignment.lineage with
    | nil => simpa [Lineage.inBatch] using h.named step hstep
    | cons root rest => rfl
  | decrement =>
    obtain ⟨hpos, -, hlineage⟩ := hsuits.decrement ht
    have hne := h.folds step hstep ht
    have hlength := hsuits.length
    rw [hlineage]
    rw [← hlength]
    -- folding takes the last level away, which is the batch only when no other is there
    cases hl : step.alignment.lineage with
    | nil => rfl
    | cons root rest =>
      cases rest with
      | nil =>
        rw [hl] at hne
        have hroot : root ≠ Lineage.inputLevel := fun he => hne (he ▸ rfl)
        simp [Lineage.inBatch, hroot]
      | cons level rest => rfl

end Plan.Local

end BatchFlow
