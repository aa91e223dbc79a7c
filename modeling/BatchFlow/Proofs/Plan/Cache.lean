import BatchFlow.Plan.Cache
import BatchFlow.Proofs.Definition.Text
import BatchFlow.Proofs.Outcome
import BatchFlow.Proofs.Table

namespace BatchFlow

/-!
# Plan caches are transparent

A key is made of texts, and texts determine what they were made from. So a plan that is found under
the key of a definition and of init parameters was compiled from this definition and these
parameters, given in some order, and the order is not seen in a plan.

* `PlanKey.of_eq_of_iff` — when two calls share a key;
* `Definition.compile_congr` — which init parameters are there decides, and not what they are;
* `PlanCache.Faithful` — every plan of a cache was compiled from what its key stands for;
* `PlanCache.faithful_after` — this holds of every cache that is used;
* `PlanCache.compile_after` — so a cache answers as a compilation would.
-/

/-- Init parameters, each given once. They stand in some order, as the entries of a map do. -/
abbrev InitParameters := { given : Table String Json // (Table.keys given).Nodup }

/-- Plans that differ at most in the order of their init parameters. -/
structure Plan.Same (p p' : Plan) : Prop where
  parameters : p.initParameters.Perm p'.initParameters
  rest : { p with initParameters := p'.initParameters } = p'

/-- The same plan or the same reason why there is none. -/
def SameOutcome : Except Rejection Plan → Except Rejection Plan → Prop
  | .ok p, .ok p' => p.Same p'
  | .error e, .error e' => e = e'
  | .ok _, .error _ | .error _, .ok _ => False

/-- An outcome is the same as itself. -/
theorem SameOutcome.refl (outcome : Except Rejection Plan) : SameOutcome outcome outcome := by
  cases outcome with
  | ok p => exact ⟨.refl _, rfl⟩
  | error e => rfl

/-! ### Keys -/

/-- The order of init parameters in a key. -/
def parameterBefore (a b : String × Json) : Bool := a.1 ≤ b.1

/-- Sorted parameters stand in the order of their names. -/
theorem pairwise_sorted (given : Table String Json) :
    (given.mergeSort parameterBefore).Pairwise fun a b => parameterBefore a b = true := by
  refine List.pairwise_mergeSort (fun a b c hab hbc => ?_) (fun a b => ?_) given
  · exact decide_eq_true (String.le_trans (of_decide_eq_true hab) (of_decide_eq_true hbc))
  · simpa [parameterBefore] using String.le_total a.1 b.1

/-- Sorted by name, parameters with different names stand in one order only. -/
theorem sorted_eq_iff {init init' : InitParameters} :
    init.1.mergeSort parameterBefore = init'.1.mergeSort parameterBefore ↔
      init.1.Perm init'.1 := by
  constructor
  · intro h
    exact (List.mergeSort_perm _ _).symm.trans ((List.Perm.of_eq h).trans (List.mergeSort_perm _ _))
  · intro hperm
    refine List.Perm.eq_of_pairwise ?_ (pairwise_sorted _) (pairwise_sorted _)
      ((List.mergeSort_perm _ _).trans (hperm.trans (List.mergeSort_perm _ _).symm))
    intro a b ha hb hab hba
    have hname : a.1 = b.1 :=
      String.le_antisymm (of_decide_eq_true hab) (of_decide_eq_true hba)
    have hmem : b ∈ init.1 := hperm.mem_iff.2 (List.mem_mergeSort.1 hb)
    exact List.inj_on_of_nodup_map init.2 (List.mem_mergeSort.1 ha) hmem hname

/-- Two calls share a key when they are about the same definition and the same init parameters. -/
theorem PlanKey.of_eq_of_iff {d d' : Definition} {init init' : InitParameters} :
    PlanKey.of d init.1 = PlanKey.of d' init'.1 ↔ d = d' ∧ init.1.Perm init'.1 := by
  rw [← sorted_eq_iff]
  constructor
  · intro h
    obtain ⟨htext, hparameters⟩ := PlanKey.mk.inj h
    exact ⟨Definition.text_injective htext,
      Json.object.inj (Json.compact_injective hparameters)⟩
  · rintro ⟨rfl, hsorted⟩
    exact congrArg (fun sorted => PlanKey.mk d.text (Json.object sorted).compact) hsorted

/-! ### Compilation -/

/-- A plan copies the init parameters, and else it is only seen whether they are there. -/
theorem Definition.compile_congr {registry : Registry} {init init' : Table String Json}
    (h : ∀ name, init.contains name = init'.contains name) (d : Definition) :
    d.compile registry init' =
      (d.compile registry init).map fun p => { p with initParameters := init' } := by
  have hcheck : Plan.checkInitParameters init' = Plan.checkInitParameters init := by
    funext step
    simp only [Plan.checkInitParameters, h]
  unfold Definition.compile Workflow.plan
  simp only [hcheck, map_bind]
  rfl

/-- A plan keeps the parameters with which it was compiled. -/
theorem Definition.initParameters_of_compile {registry : Registry} {init : Table String Json}
    {d : Definition} {p : Plan} (h : d.compile registry init = .ok p) :
    p.initParameters = init := by
  have hcopy : d.compile registry init =
      (d.compile registry init).map fun p => { p with initParameters := init } :=
    compile_congr (fun _ => rfl) d
  rw [h] at hcopy
  exact congrArg Plan.initParameters (Except.ok.inj hcopy)

/-- The order of the init parameters is seen in a plan where they are copied, and nowhere else. -/
theorem Definition.compile_perm {registry : Registry} {init init' : Table String Json}
    (h : init.Perm init') (d : Definition) :
    SameOutcome (d.compile registry init) (d.compile registry init') := by
  rw [compile_congr (Table.contains_congr h)]
  cases hp : d.compile registry init with
  | error e => rfl
  | ok p => exact ⟨by rw [initParameters_of_compile hp]; exact h, rfl⟩

/-! ### Uses of a cache -/

/-- What is done with a cache. -/
inductive CacheUse where
  | compile (d : Definition) (init : InitParameters)
  | clear

namespace PlanCache

/-- The cache after a use. -/
def use (registry : Registry) (cache : PlanCache) : CacheUse → PlanCache
  | .compile d init => (cache.compile registry init.1 d).2
  | .clear => []

/-- The cache after some uses, which is empty at first. -/
def after (registry : Registry) (uses : List CacheUse) : PlanCache := uses.foldl (use registry) []

/-- Whether every plan of a cache was compiled from what its key stands for. -/
def Faithful (registry : Registry) (cache : PlanCache) : Prop :=
  ∀ key p, cache.get? key = some p → ∃ (d : Definition) (init : InitParameters),
    key = PlanKey.of d init.1 ∧ d.compile registry init.1 = .ok p

variable {registry : Registry} {cache : PlanCache}

/-- A plan is found under the key, or else it is compiled, and kept if there is one. -/
theorem compile_cases (registry : Registry) (cache : PlanCache) (init : Table String Json)
    (d : Definition) :
    (∃ p, cache.get? (.of d init) = some p ∧ cache.compile registry init d = (.ok p, cache)) ∨
    (∃ p, cache.get? (.of d init) = none ∧ d.compile registry init = .ok p ∧
      cache.compile registry init d = (.ok p, cache.put (.of d init) p)) ∨
    ∃ e, cache.get? (.of d init) = none ∧ d.compile registry init = .error e ∧
      cache.compile registry init d = (.error e, cache) := by
  unfold PlanCache.compile
  dsimp only
  cases cache.get? (.of d init) with
  | some p => exact Or.inl ⟨p, rfl, rfl⟩
  | none =>
    cases d.compile registry init with
    | ok p => exact Or.inr (Or.inl ⟨p, rfl, rfl, rfl⟩)
    | error e => exact Or.inr (Or.inr ⟨e, rfl, rfl, rfl⟩)

/-- One use of a faithful cache leaves it faithful. -/
theorem Faithful.use (h : cache.Faithful registry) (step : CacheUse) :
    (cache.use registry step).Faithful registry := by
  cases step with
  | clear =>
    intro key p hp
    cases hp
  | compile d init =>
    show (cache.compile registry init.1 d).2.Faithful registry
    -- only a new plan changes the cache, and it was compiled just now
    rcases compile_cases registry cache init.1 d with ⟨p, -, hresult⟩ | ⟨p, -, hfresh, hresult⟩ |
      ⟨e, -, -, hresult⟩
    · rw [hresult]
      exact h
    · rw [hresult]
      intro key p' hp'
      rw [Table.get?_put] at hp'
      split at hp'
      · rename_i hkey
        obtain rfl := Option.some.inj hp'
        exact ⟨d, init, hkey.symm, hfresh⟩
      · exact h key p' hp'
    · rw [hresult]
      exact h

/-- After any uses the cache is faithful. -/
theorem faithful_after (registry : Registry) (uses : List CacheUse) :
    (after registry uses).Faithful registry := by
  have hfrom : ∀ cache : PlanCache, cache.Faithful registry →
      (uses.foldl (PlanCache.use registry) cache).Faithful registry := by
    induction uses with
    | nil => exact fun cache h => h
    | cons step rest ih => exact fun cache h => ih _ (h.use step)
  exact hfrom [] fun key p hp => by cases hp

/-- What is found under a key is what a compilation gives. -/
theorem Faithful.same_of_get? (h : cache.Faithful registry) {d : Definition}
    {init : InitParameters} {p : Plan} (hp : cache.get? (.of d init.1) = some p) :
    SameOutcome (.ok p) (d.compile registry init.1) := by
  obtain ⟨d', init', hkey, hcompiled⟩ := h _ p hp
  obtain ⟨rfl, hperm⟩ := PlanKey.of_eq_of_iff.1 hkey
  exact hcompiled ▸ Definition.compile_perm hperm.symm d

/-- A faithful cache answers as compiling does. -/
theorem Faithful.compile (h : cache.Faithful registry) (d : Definition) (init : InitParameters) :
    SameOutcome (cache.compile registry init.1 d).1 (d.compile registry init.1) := by
  rcases compile_cases registry cache init.1 d with ⟨p, hp, hresult⟩ | ⟨p, -, hfresh, hresult⟩ |
    ⟨e, -, hfresh, hresult⟩
  · rw [hresult]
    exact h.same_of_get? hp
  · rw [hresult, hfresh]
    exact SameOutcome.refl _
  · rw [hresult, hfresh]
    exact SameOutcome.refl _

/-- A plan stays in a cache until it is cleared. -/
theorem get?_use {key : PlanKey} {p : Plan} (hp : cache.get? key = some p) {step : CacheUse}
    (hstep : step ≠ .clear) : (cache.use registry step).get? key = some p := by
  cases step with
  | clear => exact absurd rfl hstep
  | compile d init =>
    show (cache.compile registry init.1 d).2.get? key = some p
    rcases compile_cases registry cache init.1 d with ⟨p', -, hresult⟩ | ⟨p', hnew, -, hresult⟩ |
      ⟨e, -, -, hresult⟩
    · rw [hresult]
      exact hp
    · rw [hresult, Table.get?_put, if_neg]
      · exact hp
      · rintro rfl
        rw [hnew] at hp
        cases hp
    · rw [hresult]
      exact hp

/-- What is in the cache stays there until it is cleared. -/
theorem get?_uses {key : PlanKey} {p : Plan} {uses : List CacheUse} (hclear : .clear ∉ uses)
    (hp : cache.get? key = some p) : (uses.foldl (use registry) cache).get? key = some p := by
  induction uses generalizing cache with
  | nil => exact hp
  | cons step rest ih =>
    obtain ⟨hne, hrest⟩ := not_or.1 (mt List.mem_cons.2 hclear)
    exact ih hrest (get?_use hp (Ne.symm hne))

/-- What was compiled is in the cache afterwards. -/
theorem exists_get?_of_compile {d : Definition} {init : InitParameters} {p : Plan}
    (h : (cache.compile registry init.1 d).1 = .ok p) :
    (cache.compile registry init.1 d).2.get? (.of d init.1) = some p := by
  rcases compile_cases registry cache init.1 d with ⟨p', hp', hresult⟩ | ⟨p', -, -, hresult⟩ |
    ⟨e, -, -, hresult⟩ <;> rw [hresult] at h ⊢ <;> cases h
  · exact hp'
  · rw [Table.get?_put, if_pos rfl]

/-- Nothing is kept when a plan is found or when there is none. -/
theorem snd_compile_eq {d : Definition} {init : Table String Json}
    (h : (∃ p, cache.get? (.of d init) = some p) ∨ ∃ e, d.compile registry init = .error e) :
    (cache.compile registry init d).2 = cache := by
  rcases compile_cases registry cache init d with ⟨p, -, hresult⟩ | ⟨p, hnew, hfresh, -⟩ |
    ⟨e, -, -, hresult⟩
  · rw [hresult]
  · rcases h with ⟨p', hp'⟩ | ⟨e, he⟩
    · rw [hnew] at hp'
      cases hp'
    · rw [hfresh] at he
      cases he
  · rw [hresult]

/-- A call that was made before, with the init parameters in any order, keeps nothing more. -/
theorem snd_compile_of_repeated {d : Definition} {init init' : InitParameters}
    (hperm : init'.1.Perm init.1) {before between : List CacheUse} (hclear : .clear ∉ between) :
    ((after registry (before ++ .compile d init' :: between)).compile registry init.1 d).2 =
      after registry (before ++ .compile d init' :: between) := by
  have hafter : after registry (before ++ .compile d init' :: between) =
      between.foldl (use registry)
        ((after registry before).compile registry init'.1 d).2 := List.foldl_append
  rw [hafter]
  apply snd_compile_eq
  have hsame := (faithful_after registry before).compile d init'
  cases hfirst : ((after registry before).compile registry init'.1 d).1 with
  | ok p =>
    -- the plan of the first call is still there, and under the same key
    rw [← PlanKey.of_eq_of_iff.2 ⟨rfl, hperm⟩]
    exact Or.inl ⟨p, get?_uses hclear (exists_get?_of_compile hfirst)⟩
  | error e =>
    rw [hfirst, Definition.compile_congr (Table.contains_congr hperm.symm)] at hsame
    cases hfresh : d.compile registry init.1 with
    | ok p => rw [hfresh] at hsame; cases hsame
    | error e' => exact Or.inr ⟨e', rfl⟩

/-- After any uses a cache answers as a compilation would. A call that fails changes nothing, and
    neither does one that repeats another since the cache was cleared last. -/
theorem compile_after (registry : Registry) (uses : List CacheUse) (d : Definition)
    (init : InitParameters) :
    SameOutcome ((after registry uses).compile registry init.1 d).1 (d.compile registry init.1) ∧
    (∀ e, ((after registry uses).compile registry init.1 d).1 = .error e →
      ((after registry uses).compile registry init.1 d).2 = after registry uses) ∧
    ∀ before between init', uses = before ++ .compile d init' :: between → .clear ∉ between →
      init'.1.Perm init.1 →
      ((after registry uses).compile registry init.1 d).2 = after registry uses := by
  refine ⟨(faithful_after registry uses).compile d init, ?_, ?_⟩
  · intro e he
    rcases compile_cases registry (after registry uses) init.1 d with ⟨p, -, hresult⟩ |
      ⟨p, -, -, hresult⟩ | ⟨e', -, -, hresult⟩
    · rw [hresult]
    · rw [hresult] at he
      cases he
    · rw [hresult]
  · rintro before between init' rfl hclear hperm
    exact snd_compile_of_repeated hperm hclear

end PlanCache

end BatchFlow
