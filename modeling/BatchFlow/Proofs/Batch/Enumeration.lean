import BatchFlow.Proofs.Batch.Indices
import BatchFlow.Proofs.Outcome
import Mathlib.Data.List.Lex

namespace BatchFlow.BatchStructure

/-!
# The enumeration of indices

The indices of a lineage are found level by level: each parent is followed by its children. So they
come in lexicographic order, and which of them there are can be read off the numbers of children
alone.

* `lex_append` — of two indices of one length, the smaller one stays smaller with more levels.
* `lex_indices` — the indices of a lineage increase.
* `mem_indices_iff` — an index is listed when each of its positions is below a number of children.
* `Registration`, `registerAll` — numbers of children that are noted one after another.
* `children?_registerAll` — what is found is what was noted.
* `indices_enumerated` — the enumeration after any sequence of such notes.
-/

variable {s s' : BatchStructure}

/-! ### The order -/

/-- Of two indices of one length, the smaller one stays smaller with more levels. -/
theorem lex_append {index other : Index} (hlength : index.length = other.length)
    (h : List.Lex (· < ·) index other) (below below' : Index) :
    List.Lex (· < ·) (index ++ below) (other ++ below') := by
  induction h with
  | nil => cases hlength
  | rel hlt => exact .rel hlt
  | cons _ ih => exact .cons (ih (Nat.succ.inj hlength))

/-- The children of one parent increase. -/
theorem lex_children (parent : Index) (count : Nat) :
    ((List.range count).map fun position => parent ++ [position]).Pairwise
      (List.Lex (· < ·)) := by
  rw [List.pairwise_map]
  exact List.pairwise_lt_range.imp fun hlt => List.Lex.append_left _ (.rel hlt) parent

/-- The indices of a lineage increase. -/
theorem lex_indices (l : Lineage) : (s.indices l).Pairwise (List.Lex (· < ·)) := by
  induction l using List.reverseRecOn with
  | nil => exact List.pairwise_singleton _ _
  | append_singleton l level ih =>
    rw [indices_snoc, expand, List.pairwise_flatMap]
    refine ⟨fun parent _ => lex_children parent _, ih.imp_of_mem ?_⟩
    -- the children of a smaller parent come before those of a greater one
    intro parent parent' hparent hparent' hlt index hindex index' hindex'
    obtain ⟨k, -, rfl⟩ := List.mem_map.1 hindex
    obtain ⟨k', -, rfl⟩ := List.mem_map.1 hindex'
    have hlength : parent.length = parent'.length :=
      (length_of_mem_indices hparent).trans (length_of_mem_indices hparent').symm
    exact lex_append hlength hlt [k] [k']

/-! ### The members -/

/-- An index has its positions below numbers of children when it has so above its last level, and at
    its last level. -/
theorem positions_concat_iff {l : Lineage} {level : String} {parent : Index} {k : Nat}
    (hlength : parent.length = l.length) :
    (∀ d (hd : d < (parent ++ [k]).length), (parent ++ [k])[d] <
        (s.children? ((l ++ [level]).take (d + 1)) ((parent ++ [k]).take d)).getD 0) ↔
      (∀ d (hd : d < parent.length),
        parent[d] < (s.children? (l.take (d + 1)) (parent.take d)).getD 0) ∧
      k < (s.children? (l ++ [level]) parent).getD 0 := by
  -- above the last level nothing changes, and at the last level the whole lineage counts
  have habove : ∀ d (hd : d < parent.length) (hconcat : d < (parent ++ [k]).length),
      (parent ++ [k])[d] = parent[d] ∧ (l ++ [level]).take (d + 1) = l.take (d + 1) ∧
        (parent ++ [k]).take d = parent.take d := fun d hd _ =>
    ⟨List.getElem_append_left hd, List.take_append_of_le_length (by omega),
      List.take_append_of_le_length (by omega)⟩
  have hlast : ∀ hconcat : parent.length < (parent ++ [k]).length,
      (parent ++ [k])[parent.length] = k ∧
        (l ++ [level]).take (parent.length + 1) = l ++ [level] ∧
        (parent ++ [k]).take parent.length = parent := fun _ =>
    ⟨List.getElem_concat_length rfl _, List.take_of_length_le (by simp [hlength]),
      List.take_left⟩
  constructor
  · intro h
    constructor
    · intro d hd
      have hconcat : d < (parent ++ [k]).length := by rw [List.length_append]; omega
      obtain ⟨hposition, hlevel, hprefix⟩ := habove d hd hconcat
      have hbelow := h d hconcat
      rwa [hposition, hlevel, hprefix] at hbelow
    · have hconcat : parent.length < (parent ++ [k]).length := by simp
      obtain ⟨hposition, hlevel, hprefix⟩ := hlast hconcat
      have hbelow := h parent.length hconcat
      rwa [hposition, hlevel, hprefix] at hbelow
  · rintro ⟨hparent, hk⟩ d hd
    rcases Nat.lt_or_eq_of_le (Nat.le_of_lt_succ (by simpa using hd)) with hbefore | rfl
    · obtain ⟨hposition, hlevel, hprefix⟩ := habove d hbefore hd
      rw [hposition, hlevel, hprefix]
      exact hparent d hbefore
    · obtain ⟨hposition, hlevel, hprefix⟩ := hlast hd
      rwa [hposition, hlevel, hprefix]

/-- An index is listed when it has a position for each level, which is below the number of children
    that its parent there has. -/
theorem mem_indices_iff {l : Lineage} {index : Index} :
    index ∈ s.indices l ↔ index.length = l.length ∧ ∀ d (hd : d < index.length),
      index[d] < (s.children? (l.take (d + 1)) (index.take d)).getD 0 := by
  -- a further level adds a last position, so the levels are taken off from below
  induction l using List.reverseRecOn generalizing index with
  | nil =>
    rw [indices_nil, List.mem_singleton, List.length_nil, List.length_eq_zero_iff]
    constructor
    · rintro rfl
      exact ⟨rfl, nofun⟩
    · exact And.left
  | append_singleton l level ih =>
    rw [List.length_append, List.length_singleton]
    constructor
    · intro h
      obtain ⟨parent, hparent, k, hk, rfl⟩ := mem_indices_snoc.1 h
      obtain ⟨hlength, hpositions⟩ := ih.1 hparent
      exact ⟨by rw [List.length_append, hlength, List.length_singleton],
        (positions_concat_iff hlength).2 ⟨hpositions, hk⟩⟩
    · rintro ⟨hlength, hpositions⟩
      obtain ⟨parent, k, rfl⟩ := (List.eq_nil_or_concat' index).resolve_left
        (fun hnil => by rw [hnil] at hlength; cases hlength)
      have hparent : parent.length = l.length := by simpa using hlength
      obtain ⟨habove, hk⟩ := (positions_concat_iff hparent).1 hpositions
      exact concat_mem_indices_iff.2 ⟨ih.2 ⟨hparent, habove⟩, hk⟩

/-! ### Notes one after another -/

/-- A number of children to be noted. -/
structure Registration where
  lineage : Lineage
  parent : Index
  count : Nat
deriving DecidableEq, Repr

/-- Notes numbers of children one after another. -/
def registerAll (s : BatchStructure) (registrations : List Registration) :
    Except CountConflict BatchStructure :=
  registrations.foldlM (fun s r => s.register r.lineage r.parent r.count) s

/-- A number of children that has been noted is found. -/
theorem children?_register_self {l : Lineage} {parent : Index} {count : Nat}
    (h : s.register l parent count = .ok s') : s'.children? l parent = some count := by
  have hallowed := register_eq_ok_iff.1 ⟨s', h⟩
  rw [children?, get?_register h, Table.get?_cons, if_pos rfl]
  cases hexisting : s.counts.get? (l, parent) with
  | none => rfl
  | some existing => rw [Option.some_or, hallowed existing hexisting]

/-- What was found before is found afterwards. -/
theorem children?_register_of_some {l l' : Lineage} {parent parent' : Index} {count n : Nat}
    (h : s.register l parent count = .ok s') (hn : s.children? l' parent' = some n) :
    s'.children? l' parent' = some n := by
  rw [children?, get?_register h, show s.counts.get? (l', parent') = some n from hn,
    Option.some_or]

/-- What is found after a note was found before or has just been noted. -/
theorem children?_register_cases {l l' : Lineage} {parent parent' : Index} {count n : Nat}
    (h : s.register l parent count = .ok s') (hn : s'.children? l' parent' = some n) :
    s.children? l' parent' = some n ∨ (l', parent', n) = (l, parent, count) := by
  rw [children?, get?_register h, Option.or_eq_some_iff, Table.get?_cons, Table.get?_nil] at hn
  rcases hn with hn | ⟨-, hn⟩
  · exact Or.inl hn
  · obtain ⟨hkey, hcount⟩ := Option.ite_none_right_eq_some.1 hn
    cases hkey
    cases hcount
    exact Or.inr rfl

/-- After any sequence of notes, the number of children of a parent is the one that was noted, and
    there is none where none was. -/
theorem children?_registerAll {registrations : List Registration}
    (h : registerAll {} registrations = .ok s) (l : Lineage) (parent : Index) (count : Nat) :
    s.children? l parent = some count ↔ ⟨l, parent, count⟩ ∈ registrations := by
  constructor
  · -- every number comes from a note
    refine foldlM_invariant
      (fun s => ∀ l parent count, s.children? l parent = some count →
        (⟨l, parent, count⟩ : Registration) ∈ registrations) h (fun _ _ _ hnone => nomatch hnone)
      ?_ l parent count
    intro r hr s s' hregister hs l parent count hcount
    rcases children?_register_cases hregister hcount with hcount | he
    · exact hs l parent count hcount
    · cases he
      exact hr
  · -- and every note brings its number about, which the later ones keep
    intro hmem
    exact forall_of_foldlM
      (fun (r : Registration) s => s.children? r.lineage r.parent = some r.count) h
      (fun r _ _ _ hregister => children?_register_self hregister)
      (fun _ _ _ _ hregister _ hcount => children?_register_of_some hregister hcount) _ hmem

/-- After any sequence of notes of numbers of children, the indices of a lineage come in strictly
    increasing lexicographic order, so none is listed twice. An index is listed exactly when it has
    a position for each level and each of them is below the number of children that was noted for
    the index above it, where no note counts as zero. What stands above an index of a lineage is an
    index of the levels above. -/
theorem indices_enumerated {registrations : List Registration}
    (h : registerAll {} registrations = .ok s) (l : Lineage) :
    (s.indices l).Pairwise (List.Lex (· < ·)) ∧ (s.indices l).Nodup ∧
    (∀ index, index ∈ s.indices l ↔ index.length = l.length ∧ ∀ d (hd : d < index.length),
      ∃ count, ⟨l.take (d + 1), index.take d, count⟩ ∈ registrations ∧ index[d] < count) ∧
    ∀ index ∈ s.indices l, ∀ n, index.take n ∈ s.indices (l.take n) := by
  refine ⟨lex_indices l, nodup_indices l, fun index => ?_, fun index => take_mem_indices⟩
  rw [mem_indices_iff]
  refine and_congr_right fun _ => forall₂_congr fun d hd => ?_
  simp only [← children?_registerAll h]
  cases s.children? (l.take (d + 1)) (index.take d) <;> simp

/-- Three elements, of which the last one has no number of children, and a number that was noted for
    an element that is not there. -/
theorem indices_enumerated_ragged :
    let registrations : List Registration :=
      [⟨["in", "crop"], [1], 2⟩, ⟨["in"], [], 3⟩, ⟨["in", "crop"], [0], 1⟩, ⟨["in"], [], 3⟩,
        ⟨["in", "crop"], [5], 4⟩]
    ∃ s, registerAll {} registrations = .ok s ∧
      s.indices ["in", "crop"] = [[0, 0], [1, 0], [1, 1]] ∧
      (s.indices ["in", "crop"]).Pairwise (List.Lex (· < ·)) ∧
      [1, 1] ∈ s.indices ["in", "crop"] ∧ [1] ∈ s.indices ["in"] ∧
      [5, 0] ∉ s.indices ["in", "crop"] := by
  intro registrations
  have hregistered : ∃ s, registerAll {} registrations = .ok s := ⟨_, rfl⟩
  obtain ⟨s, hs⟩ := hregistered
  obtain ⟨hlex, -, hmem, habove⟩ := indices_enumerated hs ["in", "crop"]
  have hlisted : [1, 1] ∈ s.indices ["in", "crop"] := by
    refine (hmem [1, 1]).2 ⟨rfl, fun d hd => ?_⟩
    match d with
    | 0 => exact ⟨3, by decide, by decide +revert⟩
    | 1 => exact ⟨2, by decide, by decide +revert⟩
  refine ⟨s, hs, ?_, hlex, hlisted, habove _ hlisted 1, fun h => ?_⟩
  · cases hs
    rfl
  · obtain ⟨-, hpositions⟩ := (hmem [5, 0]).1 h
    obtain ⟨count, hcount, hlt⟩ := hpositions 0 (by decide)
    obtain rfl : count = 3 := by
      simpa [registrations] using hcount
    revert hlt
    decide

end BatchFlow.BatchStructure
