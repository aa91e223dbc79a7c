import BatchFlow.Table

namespace BatchFlow.Table

/-!
# Reading tables

What is found in a table that was joined, written into or restricted:

* `get?_append`, `get?_filter`, `get?_map`, `get?_mapValues` — tables made from other tables;
* `get?_writeAll`, `writeAll_eq_append`, `ofList_eq`, `mem_of_mem_ofList` — a table into which
  entries were written one after another;
* `find?_name`, `find?_name_perm`, `get?_map_name`, `get?_of_mem` — among things with distinct names
  each is found under its own.
-/

variable {κ ν : Type} [DecidableEq κ]

/-- Among things with distinct names each is found under its own. -/
theorem find?_name {α : Type} {name : α → κ} {xs : List α} (h : (xs.map name).Nodup) {x : α}
    (hx : x ∈ xs) : xs.find? (fun y => name y == name x) = some x := by
  induction xs with
  | nil => cases hx
  | cons first rest ih =>
    rw [List.map_cons, List.nodup_cons] at h
    rw [List.find?_cons]
    rcases List.mem_cons.1 hx with rfl | hx
    · rw [beq_self_eq_true]
    · have hne : name first ≠ name x := fun he => h.1 (he ▸ List.mem_map_of_mem hx)
      rw [beq_false_of_ne hne]
      exact ih h.2 hx

/-- Where things with distinct names stand plays no part in what is found under a name. -/
theorem find?_name_perm {α : Type} {name : α → κ} {xs xs' : List α} (hperm : xs'.Perm xs)
    (h : (xs.map name).Nodup) (key : κ) :
    xs'.find? (fun x => name x == key) = xs.find? (fun x => name x == key) := by
  cases hfound : xs.find? fun x => name x == key with
  | some x =>
    have hname : name x = key := by simpa using List.find?_some hfound
    rw [← hname]
    exact find?_name ((hperm.map name).nodup_iff.2 h)
      (hperm.mem_iff.2 (List.mem_of_find?_eq_some hfound))
  | none =>
    refine List.find?_eq_none.2 fun x hx => ?_
    exact List.find?_eq_none.1 hfound x (hperm.mem_iff.1 hx)

/-- In a table of things with distinct names each is found under its own. -/
theorem get?_map_name {α : Type} {name : α → κ} {value : α → ν} {xs : List α}
    (h : (xs.map name).Nodup) {x : α} (hx : x ∈ xs) :
    get? (xs.map fun y => (name y, value y)) (name x) = some (value x) := by
  induction xs with
  | nil => cases hx
  | cons first rest ih =>
    rw [List.map_cons, List.nodup_cons] at h
    rw [List.map_cons, get?_cons]
    rcases List.mem_cons.1 hx with rfl | hx
    · rw [if_pos rfl]
    · have hne : name first ≠ name x := fun he => h.1 (he ▸ List.mem_map_of_mem hx)
      rw [if_neg hne]
      exact ih h.2 hx

/-- In a table of different keys every entry is found. -/
theorem get?_of_mem {t : Table κ ν} (h : (keys t).Nodup) {key : κ} {value : ν}
    (hmem : (key, value) ∈ t) : t.get? key = some value := by
  have hfound : get? (t.map fun entry => (entry.1, entry.2)) (key, value).1 =
      some (key, value).2 := get?_map_name h hmem
  rwa [List.map_id'] at hfound

/-- Nothing is found exactly under the keys that do not occur. -/
theorem get?_eq_none_iff {t : Table κ ν} {key : κ} : t.get? key = none ↔ key ∉ t.keys := by
  induction t with
  | nil => simp [keys]
  | cons entry rest ih =>
    obtain ⟨k, v⟩ := entry
    have ih' : get? rest key = none ↔ key ∉ List.map (·.1) rest := ih
    by_cases h : k = key
    · simp [keys, h]
    · simp [keys, h, ih', Ne.symm h]

/-- A table contains the keys that occur in it. -/
theorem contains_iff {t : Table κ ν} {key : κ} : t.contains key = true ↔ key ∈ t.keys := by
  rw [contains, Option.isSome_iff_ne_none, Ne, get?_eq_none_iff, Decidable.not_not]

/-- The order of entries plays no part in which keys occur. -/
theorem contains_congr {t t' : Table κ ν} (h : t.Perm t') (key : κ) :
    t.contains key = t'.contains key := by
  rw [Bool.eq_iff_iff, contains_iff, contains_iff]
  exact (h.map _).mem_iff

/-- The first table is searched before the second one. -/
theorem get?_append (t t' : Table κ ν) (key : κ) :
    get? (t ++ t') key = (t.get? key).or (t'.get? key) := by
  induction t with
  | nil => simp
  | cons entry rest ih =>
    obtain ⟨k, v⟩ := entry
    rw [List.cons_append, get?_cons, get?_cons]
    by_cases h : k = key
    · rw [if_pos h, if_pos h, Option.some_or]
    · rw [if_neg h, if_neg h, ih]

/-- Leaving out entries of other keys changes nothing for a key. -/
theorem get?_filter (t : Table κ ν) (keep : κ → Bool) {key : κ} (h : keep key) :
    get? (t.filter fun entry => keep entry.1) key = t.get? key := by
  induction t with
  | nil => rfl
  | cons entry rest ih =>
    obtain ⟨k, v⟩ := entry
    rw [List.filter_cons]
    by_cases hk : k = key
    · subst hk
      rw [if_pos h, get?_cons, get?_cons, if_pos rfl, if_pos rfl]
    · by_cases hkeep : keep k
      · rw [if_pos hkeep, get?_cons, get?_cons, if_neg hk, if_neg hk, ih]
      · rw [if_neg hkeep, get?_cons, if_neg hk, ih]

/-- Renaming keys is seen at the renamed key when no other key gets that name. -/
theorem get?_map {κ' : Type} [DecidableEq κ'] (t : Table κ ν) (rename : κ → κ') {key : κ}
    (h : ∀ k ∈ t.keys, rename k = rename key → k = key) :
    get? (t.map fun entry => (rename entry.1, entry.2)) (rename key) = t.get? key := by
  induction t with
  | nil => rfl
  | cons entry rest ih =>
    obtain ⟨k, v⟩ := entry
    have hrest : ∀ k' ∈ keys rest, rename k' = rename key → k' = key := fun k' hk' =>
      h k' (List.mem_cons_of_mem _ hk')
    rw [List.map_cons, get?_cons, get?_cons, ih hrest]
    by_cases hk : k = key
    · rw [if_pos hk, if_pos (congrArg rename hk)]
    · rw [if_neg hk, if_neg fun he => hk (h k List.mem_cons_self he)]

/-- Values that are changed each under its key are found changed. -/
theorem get?_mapValues {ν' : Type} (t : Table κ ν) (change : κ → ν → ν') (key : κ) :
    get? (t.map fun entry => (entry.1, change entry.1 entry.2)) key =
      (t.get? key).map (change key) := by
  induction t with
  | nil => rfl
  | cons entry rest ih =>
    rw [List.map_cons, get?_cons, get?_cons, ih]
    by_cases hk : entry.1 = key
    · rw [if_pos hk, if_pos hk, hk]
      rfl
    · rw [if_neg hk, if_neg hk]

/-! ### Writing entries one after another -/

/-- Writes entries into a table, one after another. -/
def writeAll (t : Table κ ν) (entries : List (κ × ν)) : Table κ ν :=
  entries.foldl (fun t entry => t.put entry.1 entry.2) t

@[simp] theorem writeAll_nil (t : Table κ ν) : t.writeAll [] = t := rfl

/-- The first entry is written before the others. -/
theorem writeAll_cons (t : Table κ ν) (entry : κ × ν) (rest : List (κ × ν)) :
    t.writeAll (entry :: rest) = (t.put entry.1 entry.2).writeAll rest := rfl

/-- The last entry of a key counts, and what was there before if there is none. -/
theorem get?_writeAll (t : Table κ ν) (entries : List (κ × ν)) (key : κ) :
    (t.writeAll entries).get? key = (get? entries.reverse key).or (t.get? key) := by
  induction entries generalizing t with
  | nil => simp
  | cons entry rest ih =>
    rw [writeAll_cons, ih, get?_put, List.reverse_cons, get?_append, get?_cons, get?_nil,
      Option.or_assoc]
    congr 1
    by_cases h : entry.1 = key
    · simp [h]
    · simp [h]

/-- A key that is new gets an entry at the end. -/
theorem put_of_not_mem {t : Table κ ν} {key : κ} (h : key ∉ t.keys) (value : ν) :
    t.put key value = t ++ [(key, value)] := by
  induction t with
  | nil => rfl
  | cons entry rest ih =>
    obtain ⟨k, v⟩ := entry
    obtain ⟨hne, hrest⟩ := not_or.1 (mt List.mem_cons.2 h)
    rw [put, if_neg (Ne.symm hne), ih hrest, List.cons_append]

/-- Entries of new keys, each written once, stand behind what was there before. -/
theorem writeAll_eq_append {t entries : Table κ ν} (h : (t.keys ++ entries.keys).Nodup) :
    t.writeAll entries = t ++ entries := by
  induction entries generalizing t with
  | nil => exact (List.append_nil t).symm
  | cons entry rest ih =>
    obtain ⟨key, value⟩ := entry
    have hnew : key ∉ t.keys := fun hmem =>
      (List.nodup_append.1 h).2.2 key hmem key List.mem_cons_self rfl
    have hkeys : keys (t ++ [(key, value)]) ++ keys rest =
        t.keys ++ keys ((key, value) :: rest) := by
      simp [keys]
    rw [writeAll_cons, put_of_not_mem hnew, ih (hkeys ▸ h), List.append_assoc,
      List.singleton_append]

/-- A table made from entries of different keys has just these. -/
theorem ofList_eq {entries : List (κ × ν)} (h : (keys entries).Nodup) :
    ofList entries = entries := by
  have hall : (keys ([] : Table κ ν) ++ keys entries).Nodup := h
  exact writeAll_eq_append hall

/-- An entry of a table that was written to is the one that was written, or was there before. -/
theorem mem_of_mem_put {t : Table κ ν} {k : κ} {v : ν} {entry : κ × ν} (h : entry ∈ t.put k v) :
    entry = (k, v) ∨ entry ∈ t := by
  induction t with
  | nil => exact Or.inl (List.mem_singleton.1 h)
  | cons first rest ih =>
    obtain ⟨k', v'⟩ := first
    unfold Table.put at h
    split at h
    · rcases List.mem_cons.1 h with rfl | h
      · exact Or.inl (by simp_all)
      · exact Or.inr (List.mem_cons_of_mem _ h)
    · rcases List.mem_cons.1 h with rfl | h
      · exact Or.inr List.mem_cons_self
      · exact (ih h).imp_right (List.mem_cons_of_mem _)

/-- A table made from entries holds none but these. -/
theorem mem_of_mem_ofList {entries : List (κ × ν)} {entry : κ × ν} (h : entry ∈ ofList entries) :
    entry ∈ entries := by
  have key : ∀ (t : Table κ ν), entry ∈ t.writeAll entries → entry ∈ t ∨ entry ∈ entries := by
    clear h
    induction entries with
    | nil => intro t h; exact Or.inl h
    | cons first rest ih =>
      intro t h
      rcases ih _ h with h | h
      · rcases mem_of_mem_put h with rfl | h
        · exact Or.inr List.mem_cons_self
        · exact Or.inl h
      · exact Or.inr (List.mem_cons_of_mem _ h)
  exact (key [] h).resolve_left (by simp)

end BatchFlow.Table
