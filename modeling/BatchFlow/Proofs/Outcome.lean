import BatchFlow.Table
import Mathlib.Data.List.Perm.Basic

namespace BatchFlow

/-!
# Computations that may fail

Compilation and runs are chains of computations that end at the first fault. The lemmas here take
such a chain apart when it has succeeded, or when it has failed:

* `bind_eq_ok`, `map_eq_ok`, `map_bind` — two computations in a row;
* `mapM_eq_ok`, `exists_mapM_iff`, `forM_eq_ok` — one computation for each element of a list;
* `foldlM_invariant`, `forall_of_foldlM`, `exists_foldlM` — what holds after a computation with each
  of them, and when there is such a computation;
* `mapM_congr`, `forM_congr`, `exists_mapM_of_perm`, `mapM_map`, `foldlM_simulation` — two such
  computations side by side;
* `filterM_cons`, `filterM_eq_ok` — a test of each element of a list;
* `bind_eq_error`, `exists_error_of_mapM`, `mapM_eq_error_iff`, `exists_error_of_foldlM` — where a
  fault comes from;
* `exists_of_mem_mapM?`, `mapM_map_eq_some`, `mapM_map_eq_some_iff` — the same where there is a
  result or none;
* `toOption_eq_some`, `eq_error_of_decide` — what a closed computation comes to;
* `Ends` — what is known of a result or of a fault, with a rule for each way of going on.
-/

variable {ε α β : Type}

/-- A chain succeeds exactly when both parts do. -/
theorem bind_eq_ok {x : Except ε α} {f : α → Except ε β} {b : β} :
    (x >>= f) = .ok b ↔ ∃ a, x = .ok a ∧ f a = .ok b := by
  cases x with
  | error e =>
    constructor
    · intro h; cases h
    · rintro ⟨a, h, -⟩; cases h
  | ok a =>
    constructor
    · intro h; exact ⟨a, rfl, h⟩
    · rintro ⟨a', h, hf⟩; cases h; exact hf

/-- A pure function behind a computation does not fail. -/
theorem map_eq_ok {x : Except ε α} {f : α → β} {b : β} :
    x.map f = .ok b ↔ ∃ a, x = .ok a ∧ f a = b := by
  cases x with
  | error e => simp [Except.map]
  | ok a => simp [Except.map]

/-- A pure function behind a chain stands behind its last part. -/
theorem map_bind {γ : Type} (x : Except ε α) (f : α → Except ε β) (g : β → γ) :
    (x >>= f).map g = x >>= fun a => (f a).map g := by
  cases x <;> rfl

/-- What is returned is the result. -/
theorem pure_eq_ok {a b : α} : (pure a : Except ε α) = .ok b ↔ a = b := by
  simp [pure, Except.pure]

/-- Without its fault, a computation shows whether it succeeds and with what. -/
theorem toOption_eq_some {x : Except ε α} {a : α} : x.toOption = some a ↔ x = .ok a := by
  cases x <;> simp [Except.toOption]

/-- Without its result, a computation shows whether it fails and with what. -/
theorem eq_error_of_decide [DecidableEq ε] {x : Except ε α} {e : ε}
    (h : (match x with
      | .error e' => decide (e' = e)
      | .ok _ => false) = true) : x = .error e := by
  cases x with
  | ok a => cases h
  | error e' => rw [of_decide_eq_true h]

/-- A computation for each element succeeds when every one does. -/
theorem mapM_eq_ok {f : α → Except ε β} {xs : List α} {ys : List β} :
    xs.mapM f = .ok ys ↔ List.Forall₂ (fun x y => f x = .ok y) xs ys := by
  induction xs generalizing ys with
  | nil =>
    rw [List.mapM_nil, pure_eq_ok, List.forall₂_nil_left_iff]
    exact eq_comm
  | cons x xs ih =>
    rw [List.mapM_cons, bind_eq_ok, List.forall₂_cons_left_iff]
    constructor
    · rintro ⟨y, hy, h⟩
      obtain ⟨rest, hrest, h⟩ := bind_eq_ok.1 h
      exact ⟨y, rest, hy, ih.1 hrest, (pure_eq_ok.1 h).symm⟩
    · rintro ⟨y, rest, hy, hrest, rfl⟩
      exact ⟨y, hy, bind_eq_ok.2 ⟨rest, ih.2 hrest, rfl⟩⟩

/-- Every result of a computation for each element comes from one of them. -/
theorem exists_of_mem_mapM {f : α → Except ε β} {xs : List α} {ys : List β}
    (h : xs.mapM f = .ok ys) {y : β} (hy : y ∈ ys) : ∃ x ∈ xs, f x = .ok y := by
  have h₂ := mapM_eq_ok.1 h
  clear h
  induction h₂ with
  | nil => cases hy
  | cons hx _ ih =>
    rcases List.mem_cons.1 hy with rfl | hy
    · exact ⟨_, List.mem_cons_self, hx⟩
    · obtain ⟨x, hmem, hfx⟩ := ih hy
      exact ⟨x, List.mem_cons_of_mem _ hmem, hfx⟩

/-- Every element has a result when a computation for each of them succeeds. -/
theorem exists_mem_of_mapM {f : α → Except ε β} {xs : List α} {ys : List β}
    (h : xs.mapM f = .ok ys) {x : α} (hx : x ∈ xs) : ∃ y ∈ ys, f x = .ok y := by
  have h₂ := mapM_eq_ok.1 h
  clear h
  induction h₂ with
  | nil => cases hx
  | cons hfx _ ih =>
    rcases List.mem_cons.1 hx with rfl | hx
    · exact ⟨_, List.mem_cons_self, hfx⟩
    · obtain ⟨y, hmem, hy⟩ := ih hx
      exact ⟨y, List.mem_cons_of_mem _ hmem, hy⟩

/-- A computation for each element succeeds when it has a result for every one. -/
theorem exists_mapM_iff {f : α → Except ε β} {xs : List α} :
    (∃ ys, xs.mapM f = .ok ys) ↔ ∀ x ∈ xs, ∃ y, f x = .ok y := by
  constructor
  · rintro ⟨ys, h⟩ x hx
    obtain ⟨y, -, hy⟩ := exists_mem_of_mapM h hx
    exact ⟨y, hy⟩
  · intro h
    induction xs with
    | nil => exact ⟨[], rfl⟩
    | cons x xs ih =>
      obtain ⟨⟨y, hy⟩, hrest⟩ := List.forall_mem_cons.1 h
      obtain ⟨ys, hys⟩ := ih hrest
      exact ⟨y :: ys, mapM_eq_ok.2 (.cons hy (mapM_eq_ok.1 hys))⟩

/-- Computations that agree for each element agree for all of them. -/
theorem mapM_congr {f f' : α → Except ε β} {xs : List α} (h : ∀ x ∈ xs, f' x = f x) :
    xs.mapM f' = xs.mapM f := by
  induction xs with
  | nil => rfl
  | cons x xs ih =>
    obtain ⟨hx, hxs⟩ := List.forall_mem_cons.1 h
    rw [List.mapM_cons, List.mapM_cons, hx, ih hxs]

/-- Actions that agree on every element agree on the list. -/
theorem forM_congr {f f' : α → Except ε Unit} {xs : List α} (h : ∀ x ∈ xs, f' x = f x) :
    xs.forM f' = xs.forM f := by
  induction xs with
  | nil => rfl
  | cons x xs ih =>
    obtain ⟨hx, hxs⟩ := List.forall_mem_cons.1 h
    show (f' x >>= fun _ => xs.forM f') = (f x >>= fun _ => xs.forM f)
    rw [hx, ih hxs]

/-- In another order the elements have the same results, in another order. -/
theorem exists_mapM_of_perm {f : α → Except ε β} {xs xs' : List α} {ys : List β}
    (hperm : xs'.Perm xs) (h : xs.mapM f = .ok ys) :
    ∃ ys', xs'.mapM f = .ok ys' ∧ ys'.Perm ys := by
  obtain ⟨ys', h', hperm'⟩ := List.perm_comp_forall₂ hperm (mapM_eq_ok.1 h)
  exact ⟨ys', mapM_eq_ok.2 h', hperm'⟩

/-- What the results of a computation for each element have in common with the elements. -/
theorem map_eq_of_mapM {γ : Type} {f : α → Except ε β} {xs : List α} {ys : List β}
    {seen : α → γ} {kept : β → γ} (h : xs.mapM f = .ok ys)
    (hstep : ∀ x y, f x = .ok y → kept y = seen x) : ys.map kept = xs.map seen := by
  have h₂ := mapM_eq_ok.1 h
  clear h
  induction h₂ with
  | nil => rfl
  | cons hfx _ ih => rw [List.map_cons, List.map_cons, hstep _ _ hfx, ih]

/-- A computation for each element is followed by one for what the elements are turned into. -/
theorem mapM_map {α' β' : Type} {f : α → Except ε β} {f' : α' → Except ε β'} {xs : List α}
    {ys : List β} (u : α → α') (v : β → β') (h : xs.mapM f = .ok ys)
    (hstep : ∀ x ∈ xs, ∀ y, f x = .ok y → f' (u x) = .ok (v y)) :
    (xs.map u).mapM f' = .ok (ys.map v) := by
  have h₂ := mapM_eq_ok.1 h
  clear h
  induction h₂ with
  | nil => rfl
  | cons hfx _ ih =>
    obtain ⟨hfirst, hrest⟩ := List.forall_mem_cons.1 hstep
    rw [List.map_cons, List.mapM_cons, hfirst _ hfx]
    exact bind_eq_ok.2 ⟨_, rfl, bind_eq_ok.2 ⟨_, ih hrest, rfl⟩⟩

/-- What a computation for each element makes of those with some keys. -/
theorem mapM_filter {κ : Type} {f : α → Except ε β} (keep : κ → Bool) {xs : List (κ × α)}
    {ys : List β} (h : (xs.map (·.2)).mapM f = .ok ys) :
    ∃ ys', ((xs.filter fun x => keep x.1).map (·.2)).mapM f = .ok ys' ∧
      ((xs.filter fun x => keep x.1).map (·.1)).zip ys' =
        ((xs.map (·.1)).zip ys).filter fun o => keep o.1 := by
  induction xs generalizing ys with
  | nil => exact ⟨[], rfl, rfl⟩
  | cons x xs ih =>
    rw [List.map_cons, List.mapM_cons] at h
    obtain ⟨y, hy, h⟩ := bind_eq_ok.1 h
    obtain ⟨rest, hrest, h⟩ := bind_eq_ok.1 h
    cases pure_eq_ok.1 h
    obtain ⟨ys', hys', hzip⟩ := ih hrest
    rw [List.filter_cons, List.map_cons, List.zip_cons_cons, List.filter_cons]
    -- an element that is left out takes its result along
    cases hkeep : keep x.1 with
    | true =>
      refine ⟨y :: ys', ?_, congrArg ((x.1, y) :: ·) hzip⟩
      rw [if_pos rfl, List.map_cons, List.mapM_cons]
      exact bind_eq_ok.2 ⟨y, hy, bind_eq_ok.2 ⟨ys', hys', rfl⟩⟩
    | false => exact ⟨ys', hys', hzip⟩

/-- A check of each element passes when every one does. -/
theorem forM_eq_ok {f : α → Except ε Unit} {xs : List α} :
    xs.forM f = .ok () ↔ ∀ x ∈ xs, f x = .ok () := by
  induction xs with
  | nil => simp [List.forM, pure, Except.pure]
  | cons x xs ih =>
    show (f x >>= fun _ => xs.forM f) = .ok () ↔ _
    rw [bind_eq_ok, List.forall_mem_cons, ← ih]
    constructor
    · rintro ⟨_, hx, h⟩; exact ⟨hx, h⟩
    · rintro ⟨hx, h⟩; exact ⟨(), hx, h⟩

/-- What each step keeps holds in the end. -/
theorem foldlM_invariant (P : β → Prop) {f : β → α → Except ε β} {xs : List α} {b b' : β}
    (h : xs.foldlM f b = .ok b') (hb : P b)
    (hstep : ∀ x ∈ xs, ∀ b b', f b x = .ok b' → P b → P b') : P b' := by
  induction xs generalizing b with
  | nil =>
    cases h
    exact hb
  | cons x xs ih =>
    rw [List.foldlM_cons] at h
    obtain ⟨b₁, hx, h⟩ := bind_eq_ok.1 h
    obtain ⟨hfirst, hrest⟩ := List.forall_mem_cons.1 hstep
    exact ih h (hfirst b b₁ hx hb) hrest

/-- There is a computation with all elements when each step can be taken from where the steps before
    it lead. -/
theorem exists_foldlM (P : β → Prop) {f : β → α → Except ε β} {xs : List α} {b : β} (hb : P b)
    (hstep : ∀ x ∈ xs, ∀ b, P b → ∃ b', f b x = .ok b' ∧ P b') :
    ∃ b', xs.foldlM f b = .ok b' ∧ P b' := by
  induction xs generalizing b with
  | nil => exact ⟨b, rfl, hb⟩
  | cons x xs ih =>
    obtain ⟨hfirst, hrest⟩ := List.forall_mem_cons.1 hstep
    obtain ⟨b₁, hx, hb₁⟩ := hfirst b hb
    obtain ⟨b', hxs, hb'⟩ := ih hb₁ hrest
    refine ⟨b', ?_, hb'⟩
    rw [List.foldlM_cons, hx]
    exact hxs

/-- Steps that are followed one by one in another computation are followed by all of its steps. -/
theorem foldlM_simulation {γ : Type} (R : β → γ → Prop) {f : β → α → Except ε β}
    {g : γ → α → Except ε γ} {xs : List α} {b b' : β} {c : γ} (h : xs.foldlM f b = .ok b')
    (hR : R b c)
    (hstep : ∀ x ∈ xs, ∀ b b' c, f b x = .ok b' → R b c → ∃ c', g c x = .ok c' ∧ R b' c') :
    ∃ c', xs.foldlM g c = .ok c' ∧ R b' c' := by
  induction xs generalizing b c with
  | nil =>
    cases h
    exact ⟨c, rfl, hR⟩
  | cons x xs ih =>
    rw [List.foldlM_cons] at h
    obtain ⟨b₁, hx, h⟩ := bind_eq_ok.1 h
    obtain ⟨hfirst, hrest⟩ := List.forall_mem_cons.1 hstep
    obtain ⟨c₁, hc₁, hR₁⟩ := hfirst b b₁ c hx hR
    obtain ⟨c', hc', hR'⟩ := ih h hR₁ hrest
    exact ⟨c', by rw [List.foldlM_cons, hc₁]; exact hc', hR'⟩

/-- What each step brings about for its element holds of all of them in the end when the other steps
    keep it. -/
theorem forall_of_foldlM (Q : α → β → Prop) {f : β → α → Except ε β} {xs : List α} {b b' : β}
    (h : xs.foldlM f b = .ok b') (hset : ∀ x ∈ xs, ∀ b b', f b x = .ok b' → Q x b')
    (hkeep : ∀ x ∈ xs, ∀ b b', f b x = .ok b' → ∀ y, Q y b → Q y b') : ∀ x ∈ xs, Q x b' := by
  induction xs generalizing b with
  | nil => exact List.forall_mem_nil _
  | cons x xs ih =>
    rw [List.foldlM_cons] at h
    obtain ⟨b₁, hx, h⟩ := bind_eq_ok.1 h
    obtain ⟨hset', hrest⟩ := List.forall_mem_cons.1 hset
    refine List.forall_mem_cons.2 ⟨?_, ih h hrest fun y hy => hkeep y (List.mem_cons_of_mem _ hy)⟩
    -- the step for `x` brings `Q x` about and the steps after it keep it
    exact foldlM_invariant (Q x) h (hset' b b₁ hx) fun y hy b b' hf =>
      hkeep y (List.mem_cons_of_mem _ hy) b b' hf x

/-! ### Filters -/

/-- What has been kept so far stands behind what the rest of the list adds. -/
theorem filterAuxM_eq (f : α → Except ε Bool) (xs kept : List α) :
    xs.filterAuxM f kept = (xs.filterAuxM f []).map (· ++ kept) := by
  induction xs generalizing kept with
  | nil => rfl
  | cons x xs ih =>
    unfold List.filterAuxM
    cases f x with
    | error e => rfl
    | ok keep =>
      show xs.filterAuxM f (cond keep (x :: kept) kept) =
        (xs.filterAuxM f (cond keep [x] [])).map (· ++ kept)
      rw [ih, ih (cond keep [x] [])]
      cases xs.filterAuxM f [] with
      | error e => rfl
      | ok rest => cases keep <;> simp [Except.map]

/-- A filter tests the first element and then filters the others. -/
theorem filterM_cons (f : α → Except ε Bool) (x : α) (xs : List α) : (x :: xs).filterM f =
    f x >>= fun keep => (xs.filterM f).map fun kept => if keep then x :: kept else kept := by
  unfold List.filterM
  rw [List.filterAuxM]
  cases f x with
  | error e => rfl
  | ok keep =>
    show (xs.filterAuxM f (cond keep [x] []) >>= fun kept => pure kept.reverse) =
      (xs.filterAuxM f [] >>= fun kept => pure kept.reverse).map _
    rw [filterAuxM_eq, map_bind]
    cases xs.filterAuxM f [] with
    | error e => rfl
    | ok rest => cases keep <;> simp [Except.map, bind, Except.bind, pure, Except.pure]

/-- Whether a test passes; one that fails does not. -/
def passes (x : Except ε Bool) : Bool := x.toOption.getD false

/-- A test passes when it holds; one that has no result does not. -/
theorem passes_iff {x : Except ε Bool} : passes x = true ↔ x = .ok true := by
  cases x <;> simp [passes, Except.toOption]

/-- A filter succeeds when every test has a result, and keeps the elements that pass. -/
theorem filterM_eq_ok {f : α → Except ε Bool} {xs ys : List α} : xs.filterM f = .ok ys ↔
    (∀ x ∈ xs, ∃ keep, f x = .ok keep) ∧ xs.filter (fun x => passes (f x)) = ys := by
  induction xs generalizing ys with
  | nil =>
    show Except.ok [] = Except.ok ys ↔ _
    simp
  | cons x xs ih =>
    rw [filterM_cons, bind_eq_ok, List.forall_mem_cons, List.filter_cons]
    constructor
    · rintro ⟨keep, hkeep, h⟩
      obtain ⟨kept, hkept, rfl⟩ := map_eq_ok.1 h
      obtain ⟨hall, rfl⟩ := ih.1 hkept
      exact ⟨⟨⟨keep, hkeep⟩, hall⟩, by rw [hkeep]; rfl⟩
    · rintro ⟨⟨⟨keep, hkeep⟩, hall⟩, rfl⟩
      refine ⟨keep, hkeep, map_eq_ok.2 ⟨_, ih.2 ⟨hall, rfl⟩, ?_⟩⟩
      rw [hkeep]
      rfl

/-! ### Faults -/

/-- A chain fails when its first part does, or the second one after it. -/
theorem bind_eq_error {x : Except ε α} {f : α → Except ε β} {e : ε} :
    (x >>= f) = .error e ↔ x = .error e ∨ ∃ a, x = .ok a ∧ f a = .error e := by
  cases x with
  | error e' =>
    constructor
    · intro h; cases h; exact Or.inl rfl
    · rintro (h | ⟨a, h, -⟩) <;> cases h; rfl
  | ok a =>
    constructor
    · intro h; exact Or.inr ⟨a, rfl, h⟩
    · rintro (h | ⟨a', h, hf⟩) <;> cases h; exact hf

/-- A computation for each element fails with the fault of one of them. -/
theorem exists_error_of_mapM {f : α → Except ε β} {xs : List α} {e : ε}
    (h : xs.mapM f = .error e) : ∃ x ∈ xs, f x = .error e := by
  induction xs with
  | nil => cases h
  | cons x xs ih =>
    rw [List.mapM_cons] at h
    rcases bind_eq_error.1 h with hx | ⟨y, -, h⟩
    · exact ⟨x, List.mem_cons_self, hx⟩
    · rcases bind_eq_error.1 h with hrest | ⟨ys, -, h⟩
      · obtain ⟨x', hx', hfault⟩ := ih hrest
        exact ⟨x', List.mem_cons_of_mem _ hx', hfault⟩
      · cases h

/-- A computation for each element fails at one of them when it succeeds for those before it. -/
theorem mapM_eq_error_iff {f : α → Except ε β} {xs : List α} {e : ε} :
    xs.mapM f = .error e ↔ ∃ before x after, xs = before ++ x :: after ∧
      (∀ earlier ∈ before, ∃ y, f earlier = .ok y) ∧ f x = .error e := by
  induction xs with
  | nil => simp [pure, Except.pure]
  | cons first rest ih =>
    -- either the first element fails, or it succeeds and one of the others is the first that fails
    rw [List.mapM_cons, bind_eq_error]
    constructor
    · rintro (hfirst | ⟨y, hy, h⟩)
      · exact ⟨[], first, rest, rfl, List.forall_mem_nil _, hfirst⟩
      · obtain hrest | ⟨ys, -, h⟩ := bind_eq_error.1 h
        · obtain ⟨before, x, after, rfl, hbefore, hx⟩ := ih.1 hrest
          exact ⟨first :: before, x, after, rfl, List.forall_mem_cons.2 ⟨⟨y, hy⟩, hbefore⟩, hx⟩
        · cases h
    · rintro ⟨before, x, after, hxs, hbefore, hx⟩
      cases before with
      | nil =>
        cases hxs
        exact Or.inl hx
      | cons _ before =>
        cases hxs
        obtain ⟨⟨y, hy⟩, hbefore⟩ := List.forall_mem_cons.1 hbefore
        have hrest := ih.2 ⟨before, x, after, rfl, hbefore, hx⟩
        exact Or.inr ⟨y, hy, bind_eq_error.2 (Or.inl hrest)⟩

/-- A check of each element fails with the fault of one of them. -/
theorem exists_error_of_forM {f : α → Except ε Unit} {xs : List α} {e : ε}
    (h : xs.forM f = .error e) : ∃ x ∈ xs, f x = .error e := by
  induction xs with
  | nil => cases h
  | cons x xs ih =>
    rcases bind_eq_error.1 h with hx | ⟨-, -, h⟩
    · exact ⟨x, List.mem_cons_self, hx⟩
    · obtain ⟨x', hx', hfault⟩ := ih h
      exact ⟨x', List.mem_cons_of_mem _ hx', hfault⟩

/-- A computation with each element fails with the fault of one of them. -/
theorem exists_error_of_foldlM {f : β → α → Except ε β} {xs : List α} {b : β} {e : ε}
    (h : xs.foldlM f b = .error e) : ∃ x ∈ xs, ∃ b', f b' x = .error e := by
  induction xs generalizing b with
  | nil => cases h
  | cons x xs ih =>
    rw [List.foldlM_cons] at h
    rcases bind_eq_error.1 h with hx | ⟨b₁, -, h⟩
    · exact ⟨x, List.mem_cons_self, b, hx⟩
    · obtain ⟨x', hx', hfault⟩ := ih h
      exact ⟨x', List.mem_cons_of_mem _ hx', hfault⟩

/-! ### Results that may be absent -/

/-- Every result of a reading of each element comes from one of them. -/
theorem exists_of_mem_mapM? {read : α → Option β} {xs : List α} {ys : List β}
    (h : xs.mapM read = some ys) {y : β} (hy : y ∈ ys) : ∃ x ∈ xs, read x = some y := by
  induction xs generalizing ys with
  | nil =>
    cases h
    cases hy
  | cons x xs ih =>
    rw [List.mapM_cons] at h
    obtain ⟨first, hfirst, h⟩ := Option.bind_eq_some_iff.1 h
    obtain ⟨rest, hrest, h⟩ := Option.bind_eq_some_iff.1 h
    cases h
    rcases List.mem_cons.1 hy with rfl | hy
    · exact ⟨x, List.mem_cons_self, hfirst⟩
    · obtain ⟨x', hmem, hx'⟩ := ih hrest hy
      exact ⟨x', List.mem_cons_of_mem _ hmem, hx'⟩

/-- What is read back one by one is read back as a list. -/
theorem mapM_map_eq_some {read : α → Option β} {write : β → α} {xs : List β}
    (h : ∀ x ∈ xs, read (write x) = some x) : (xs.map write).mapM read = some xs := by
  induction xs with
  | nil => rfl
  | cons x xs ih =>
    obtain ⟨hx, hxs⟩ := List.forall_mem_cons.1 h
    rw [List.map_cons, List.mapM_cons, hx, ih hxs]
    rfl

/-- A list is read back exactly when each of its elements is. -/
theorem mapM_map_eq_some_iff {read : α → Option β} {write : β → α} {xs : List β} :
    (xs.map write).mapM read = some xs ↔ ∀ x ∈ xs, read (write x) = some x := by
  constructor
  · intro h
    induction xs with
    | nil => exact List.forall_mem_nil _
    | cons x xs ih =>
      rw [List.map_cons, List.mapM_cons] at h
      obtain ⟨first, hfirst, h⟩ := Option.bind_eq_some_iff.1 h
      obtain ⟨rest, hrest, h⟩ := Option.bind_eq_some_iff.1 h
      cases h
      exact List.forall_mem_cons.2 ⟨hfirst, ih hrest⟩
  · exact mapM_map_eq_some

/-! ### What is known of an outcome -/

/-- What is known of the result of a computation, or of its fault. -/
def Ends (P : α → Prop) (E : ε → Prop) : Except ε α → Prop
  | .ok a => P a
  | .error e => E e

section Ends

variable {P : α → Prop} {E : ε → Prop}

/-- What is known of an outcome may be weakened. -/
theorem Ends.mono {P' : α → Prop} {E' : ε → Prop} {x : Except ε α} (h : Ends P E x)
    (hP : ∀ a, P a → P' a) (hE : ∀ e, E e → E' e) : Ends P' E' x := by
  cases x with
  | error e => exact hE e h
  | ok a => exact hP a h

/-- A chain ends as its second part does, or with a fault of the first. -/
theorem Ends.bind {Q : β → Prop} {x : Except ε α} {f : α → Except ε β} (h : Ends P E x)
    (hf : ∀ a, x = .ok a → P a → Ends Q E (f a)) : Ends Q E (x >>= f) := by
  cases x with
  | error e => exact h
  | ok a => exact hf a rfl h

/-- A computation with each element ends with what holds of all of them, when each step extends what
    holds of the elements before it. -/
theorem Ends.foldlM {I : List α → β → Prop} {f : β → α → Except ε β} {xs : List α} {b : β}
    (hb : I [] b) (hstep : ∀ before x after, xs = before ++ x :: after → ∀ b, I before b →
      Ends (I (before ++ [x])) E (f b x)) : Ends (I xs) E (xs.foldlM f b) := by
  have hfrom : ∀ before after, xs = before ++ after → ∀ b, I before b →
      Ends (I xs) E (after.foldlM f b) := by
    intro before after
    induction after generalizing before with
    | nil =>
      intro hxs b hb
      rw [List.append_nil] at hxs
      exact hxs ▸ hb
    | cons x after ih =>
      intro hxs b hb
      rw [List.foldlM_cons]
      exact (hstep before x after hxs b hb).bind fun b' _ hb' =>
        ih (before ++ [x]) (by simp [hxs]) b' hb'
  exact hfrom [] xs rfl b hb

end Ends

end BatchFlow
