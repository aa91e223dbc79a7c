import BatchFlow.Definition.Text
import BatchFlow.Plan.Compile

namespace BatchFlow

/-!
# Plan caches

* `PlanKey.of` — the texts of a definition and of init parameters. The parameters are sorted by
  name, so their order does not count.
* `PlanCache.compile` — the plan kept under the key, else a new plan, which is kept. A failure
  leaves the cache as it is.

A cache serves one registry.
-/

/-- The key under which a plan is kept. -/
structure PlanKey where
  definition : String
  initParameters : String
deriving DecidableEq, Repr

/-- The key of a definition and init parameters. -/
def PlanKey.of (d : Definition) (initParameters : Table String Json) : PlanKey where
  definition := d.text
  initParameters :=
    (Json.object (initParameters.mergeSort fun (a, _) (b, _) => a ≤ b)).compact

/-- Plans by key. -/
abbrev PlanCache := Table PlanKey Plan

/-- The plan of a definition, and the cache afterwards. -/
def PlanCache.compile (cache : PlanCache) (registry : Registry)
    (initParameters : Table String Json) (d : Definition) :
    Except Rejection Plan × PlanCache :=
  let key := PlanKey.of d initParameters
  -- a key stands for one definition and one set of parameters
  match cache.get? key with
  | some plan => (.ok plan, cache)
  | none =>
    match d.compile registry initParameters with
    | .ok plan => (.ok plan, cache.put key plan)
    | .error rejection => (.error rejection, cache)

end BatchFlow
