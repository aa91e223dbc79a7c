namespace BatchFlow

/-!
# Events

* `Event` — what happens in a run, as it is reported.
-/

/-- Why a step is passed over. -/
inductive SkipReason where
  | exhausted (branch : String)
  | noElement
deriving DecidableEq, Repr

/-- What is reported as the reason. -/
def SkipReason.text : SkipReason → String
  | .exhausted branch => branch ++ " is exhausted"
  | .noElement => "no element has inputs to run on"

/-- What happens in a run. -/
inductive Event where
  | stepStarted (step blockType : String) (elements : Nat)
  | stepSkipped (step : String) (reason : SkipReason)
  | stepCompleted (step : String)
  | stepFailed (step : String)
  | branchCreated (branch parent : String) (selected : Nat) (exhausted : Bool)
  | branchClosed (branch parent : String)
deriving DecidableEq, Repr

end BatchFlow
