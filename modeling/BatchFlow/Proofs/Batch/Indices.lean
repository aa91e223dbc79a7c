import BatchFlow.Batch.Structure
import BatchFlow.Proofs.Table
import Mathlib.Data.List.Induction
import Mathlib.Data.List.Nodup

namespace BatchFlow.BatchStructure

/-!
# The indices of a lineage

* `indices_snoc` — one more level adds the children of each index.
* `mem_indices_snoc`, `concat_mem_indices_iff`, `length_of_mem_indices`, `nodup_indices` — which
  indices there are.
* `take_mem_indices` — above an index of a lineage stand indices of the levels above.
* `indices_congr` — the indices depend on the numbers of children at the levels of the lineage only.
* `get?_register`, `Extends` — a number of children that has been noted stays as it is.
-/

variable {s s' : BatchStructure}

/-- The indices below further levels start from those below the first levels. -/
theorem indicesBelow_append (above : Lineage) (parents : List Index) (l l' : Lineage) :
    s.indicesBelow above parents (l ++ l') =
      s.indicesBelow (above ++ l) (s.indicesBelow above parents l) l' := by
  induction l generalizing above parents with
  | nil => rw [List.nil_append, List.append_nil]; rfl
  | cons level rest ih =>
    rw [List.cons_append, indicesBelow, ih, indicesBelow, List.append_assoc, List.singleton_append]

@[simp] theorem indices_nil : s.indices [] = [[]] := rfl

/-- One more level adds the children of each index. -/
theorem indices_snoc (l : Lineage) (level : String) :
    s.indices (l ++ [level]) = s.expand (l ++ [level]) (s.indices l) := by
  rw [indices, indicesBelow_append]
  rfl

/-- The children of an index are counted by the number that was noted for it. -/
theorem mem_expand {l : Lineage} {parents : List Index} {index : Index} :
    index ∈ s.expand l parents ↔
      ∃ parent ∈ parents, ∃ k < (s.children? l parent).getD 0, index = parent ++ [k] := by
  rw [expand, List.mem_flatMap]
  simp only [List.mem_map, List.mem_range, eq_comm]

/-- The indices of one more level are those of the children of each index. -/
theorem mem_indices_snoc {l : Lineage} {level : String} {index : Index} :
    index ∈ s.indices (l ++ [level]) ↔ ∃ parent ∈ s.indices l,
      ∃ k < (s.children? (l ++ [level]) parent).getD 0, index = parent ++ [k] := by
  rw [indices_snoc, mem_expand]

/-- Below an index stand as many indices of the next level as it has children. -/
theorem concat_mem_indices_iff {l : Lineage} {level : String} {parent : Index} {k : Nat} :
    parent ++ [k] ∈ s.indices (l ++ [level]) ↔
      parent ∈ s.indices l ∧ k < (s.children? (l ++ [level]) parent).getD 0 := by
  rw [mem_indices_snoc]
  constructor
  · rintro ⟨parent', hparent, k', hk, he⟩
    obtain ⟨rfl, hlast⟩ := List.append_inj' he rfl
    cases hlast
    exact ⟨hparent, hk⟩
  · rintro ⟨hparent, hk⟩
    exact ⟨parent, hparent, k, hk, rfl⟩

/-- An index has a number for each level. -/
theorem length_of_mem_indices {l : Lineage} {index : Index} (h : index ∈ s.indices l) :
    index.length = l.length := by
  induction l using List.reverseRecOn generalizing index with
  | nil =>
    cases List.mem_singleton.1 h
    rfl
  | append_singleton l level ih =>
    obtain ⟨parent, hparent, k, -, rfl⟩ := mem_indices_snoc.1 h
    rw [List.length_append, List.length_append, ih hparent]
    rfl

/-- No index is listed twice. -/
theorem nodup_indices (l : Lineage) : (s.indices l).Nodup := by
  induction l using List.reverseRecOn with
  | nil => exact List.nodup_singleton _
  | append_singleton l level ih =>
    rw [indices_snoc, expand, List.nodup_flatMap]
    constructor
    · intro parent _
      refine List.Nodup.map (fun k k' h => ?_) List.nodup_range
      simpa using h
    -- children of different parents differ in their parents
    · refine ih.imp fun {parent other} hne index hindex hother => hne ?_
      obtain ⟨k, -, rfl⟩ := List.mem_map.1 hindex
      obtain ⟨k', -, he⟩ := List.mem_map.1 hother
      exact (List.append_inj_left' he rfl).symm

/-- Above an index of a lineage stand indices of the levels above. -/
theorem take_mem_indices {l : Lineage} {index : Index} (h : index ∈ s.indices l) (n : Nat) :
    index.take n ∈ s.indices (l.take n) := by
  induction l using List.reverseRecOn generalizing index with
  | nil => rw [List.mem_singleton.1 h, List.take_nil, List.take_nil]; exact List.mem_singleton.2 rfl
  | append_singleton l level ih =>
    have hlength := length_of_mem_indices h
    by_cases hn : n ≤ l.length
    · obtain ⟨parent, hparent, k, -, rfl⟩ := mem_indices_snoc.1 h
      rw [List.take_append_of_le_length hn, List.take_append_of_le_length]
      · exact ih hparent
      · rw [length_of_mem_indices hparent]; exact hn
    · have hlong : (l ++ [level]).length ≤ n := by
        rw [List.length_append, List.length_singleton]; omega
      rw [List.take_of_length_le hlong, List.take_of_length_le (hlength ▸ hlong)]
      exact h

/-- The indices depend on the numbers of children at the levels of the lineage only. -/
theorem indices_congr {l : Lineage} (h : ∀ above level, above ++ [level] <+: l →
      ∀ parent ∈ s.indices above,
        s'.children? (above ++ [level]) parent = s.children? (above ++ [level]) parent) :
    s'.indices l = s.indices l := by
  induction l using List.reverseRecOn with
  | nil => rfl
  | append_singleton l level ih =>
    have hbelow : s'.indices l = s.indices l := ih fun above level' hbegin =>
      h above level' (hbegin.trans (List.prefix_append _ _))
    rw [indices_snoc, indices_snoc, hbelow, expand, expand]
    refine List.flatMap_congr fun parent hparent => ?_
    rw [h l level List.prefix_rfl parent hparent]

/-! ### Noting numbers of children -/

/-- A number of children that has been noted stays as it is, and a new one is seen where nothing was
    noted. -/
theorem get?_register {l : Lineage} {parent : Index} {count : Nat}
    (h : s.register l parent count = .ok s') (key : Lineage × Index) :
    s'.counts.get? key = (s.counts.get? key).or (Table.get? [((l, parent), count)] key) := by
  unfold register at h
  -- a number that is there already is noted again only if it is the same
  split at h
  · rename_i existing hexisting
    split at h
    · rename_i he
      cases h
      by_cases hkey : (l, parent) = key
      · rw [← hkey, show s.counts.get? (l, parent) = some existing from hexisting, Option.some_or]
      · rw [Table.get?_cons, if_neg hkey, Table.get?_nil, Option.or_none]
    · cases h
  · rename_i hnone
    cases h
    rw [Table.get?_put, Table.get?_cons, Table.get?_nil]
    by_cases hkey : (l, parent) = key
    · rw [if_pos hkey, if_pos hkey, ← hkey,
        show s.counts.get? (l, parent) = none from hnone, Option.none_or]
    · rw [if_neg hkey, if_neg hkey, Option.or_none]

/-- A number of children is noted unless another one is there. -/
theorem register_eq_ok_iff {l : Lineage} {parent : Index} {count : Nat} :
    (∃ s', s.register l parent count = .ok s') ↔
      ∀ existing, s.children? l parent = some existing → existing = count := by
  unfold register
  cases hexisting : s.children? l parent with
  | none => simp
  | some existing => by_cases he : existing = count <;> simp [he]

/-! ### More that has been noted -/

/-- What has been noted in one structure has been noted in another. -/
def Extends (s s' : BatchStructure) : Prop :=
  ∀ l index n, s.children? l index = some n → s'.children? l index = some n

/-- A structure extends itself. -/
theorem Extends.refl (s : BatchStructure) : s.Extends s := fun _ _ _ h => h

/-- What extends a structure extends what that one extends. -/
theorem Extends.trans {s s' s'' : BatchStructure} (h : s.Extends s') (h' : s'.Extends s'') :
    s.Extends s'' := fun l index n hn => h' l index n (h l index n hn)

/-- Noting a number of children keeps all others, and the number is found afterwards. -/
theorem extends_register {s s' : BatchStructure} {l : Lineage} {parent : Index} {count : Nat}
    (h : s.register l parent count = .ok s') :
    s.Extends s' ∧ s'.children? l parent = some count := by
  have hget := get?_register h
  constructor
  · intro l' index n hn
    have := hget (l', index)
    rw [show s.counts.get? (l', index) = some n from hn, Option.some_or] at this
    exact this
  · have := hget (l, parent)
    rw [Table.get?_cons, if_pos rfl] at this
    cases he : s.counts.get? (l, parent) with
    | none =>
      rw [he, Option.none_or] at this
      exact this
    | some existing =>
      have hsame := register_eq_ok_iff.1 ⟨s', h⟩ existing he
      rw [he, Option.some_or, hsame] at this
      exact this

/-- An index stays an index when more is noted. -/
theorem Extends.mem_indices {s s' : BatchStructure} (h : s.Extends s') {l : Lineage} {index : Index}
    (hindex : index ∈ s.indices l) : index ∈ s'.indices l := by
  induction l using List.reverseRecOn generalizing index with
  | nil => exact hindex
  | append_singleton l level ih =>
    obtain ⟨parent, hparent, k, hk, rfl⟩ := mem_indices_snoc.1 hindex
    cases hcount : s.children? (l ++ [level]) parent with
    | none =>
      rw [hcount] at hk
      exact absurd hk (Nat.not_lt_zero _)
    | some count =>
      rw [hcount] at hk
      exact mem_indices_snoc.2 ⟨parent, ih hparent, k, by rwa [h _ _ _ hcount], rfl⟩

end BatchFlow.BatchStructure
