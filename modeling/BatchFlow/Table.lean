namespace BatchFlow

/-!
# Tables

A table holds values under keys and remembers the order in which the keys were first written.

* `Table.get? t k` — the value under `k`: the first entry of that key counts.
* `Table.put t k v` — writes in place when the key is there, at the end when it is not.
* `Table.ofList` — writes the entries one after another, so a repeated key keeps its first
  position and takes its last value.
-/

/-- Values under keys, in the order in which the keys were first written. -/
abbrev Table (κ ν : Type) := List (κ × ν)

namespace Table

variable {κ ν : Type}

/-- The keys in order. -/
def keys (t : Table κ ν) : List κ := t.map (·.1)

/-- The values in the order of their keys. -/
def values (t : Table κ ν) : List ν := t.map (·.2)

variable [DecidableEq κ]

/-- The value under a key. -/
def get? : Table κ ν → κ → Option ν
  | [], _ => none
  | (k, v) :: rest, key => if k = key then some v else get? rest key

/-- Whether the key has an entry. -/
def contains (t : Table κ ν) (key : κ) : Bool := (t.get? key).isSome

/-- Writes a value under a key. -/
def put : Table κ ν → κ → ν → Table κ ν
  | [], key, value => [(key, value)]
  | (k, v) :: rest, key, value =>
    if k = key then (k, value) :: rest else (k, v) :: put rest key value

/-- Writes the entries one after another into an empty table. -/
def ofList (entries : List (κ × ν)) : Table κ ν :=
  entries.foldl (fun t (k, v) => t.put k v) []

@[simp] theorem get?_nil (key : κ) : get? ([] : Table κ ν) key = none := rfl

@[simp] theorem get?_cons (k : κ) (v : ν) (rest : Table κ ν) (key : κ) :
    get? ((k, v) :: rest) key = if k = key then some v else get? rest key := rfl

/-- Writing is seen under the written key and nowhere else. -/
theorem get?_put (t : Table κ ν) (k key : κ) (v : ν) :
    (t.put k v).get? key = if k = key then some v else t.get? key := by
  induction t with
  | nil => simp [put]
  | cons entry rest ih =>
    obtain ⟨k', v'⟩ := entry
    by_cases hk : k' = k
    · subst hk
      by_cases h : k' = key <;> simp [put, h]
    · by_cases h : k' = key
      · subst h
        simp [put, hk, Ne.symm hk]
      · simp [put, hk, h, ih]

/-- A value that is found stands in an entry. -/
theorem mem_of_get? {t : Table κ ν} {key : κ} {v : ν} (h : t.get? key = some v) :
    (key, v) ∈ t := by
  induction t with
  | nil => simp at h
  | cons entry rest ih =>
    obtain ⟨k', v'⟩ := entry
    rw [get?_cons] at h
    split at h
    · rename_i hk
      cases h
      subst hk
      exact List.mem_cons_self
    · exact List.mem_cons_of_mem _ (ih h)

end Table

end BatchFlow
