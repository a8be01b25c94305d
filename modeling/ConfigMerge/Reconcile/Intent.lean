import ConfigMerge.Merge

/-!
# Reconcile/Intent — why a pass runs and what it did

The intent is derived from the recorded fingerprint and only reported.  A `Report` says all that a
pass did and whether another one should follow.
-/

namespace ConfigMerge

/-- Why a pass runs. -/
inductive Intent where
  | create
  | change
  | delete
  | dependencyChange
deriving DecidableEq

namespace Intent

/-- A fragment never merged is new, then a changed content counts, then a deletion. -/
def classify (isNew isChanged isDeleted : Bool) : Intent :=
  if isNew then .create
  else if isChanged then .change
  else if isDeleted then .delete
  else .dependencyChange

/-- How an intent is reported. -/
def text : Intent → String
  | .create => "create"
  | .change => "change"
  | .delete => "delete"
  | .dependencyChange => "triggered by dependency change"

end Intent

/-- Whether another pass should follow. -/
inductive Disposition where
  | done
  | requeue
deriving DecidableEq

/-- What a pass did.  There is no intent when the fragment does not exist. -/
structure Report where
  intent : Option Intent := none
  merge : Option MergeOutcome := none
  finalizerChanged : Bool := false
  statusWritten : Bool := false
  disposition : Disposition := .done
deriving DecidableEq

/-- The fragment does not exist. -/
def Report.gone : Report := {}

/-- Another pass should follow. -/
def Report.requeue (intent : Intent) : Report := { intent := some intent, disposition := .requeue }

/-- Whether another pass should follow. -/
def Report.needsRetry (r : Report) : Bool := r.disposition = .requeue

end ConfigMerge
