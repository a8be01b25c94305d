import ConfigMerge.Reconcile.Intent

/-!
# Reconcile/Schedule — when a fragment is looked at again

A pass that is done waits for a change; one that asked for a retry is repeated after a short delay.
A terminal error waits for somebody to edit the fragment, a retriable one is repeated after the
short delay and any other after the long one.
-/

namespace ConfigMerge

/-- The timing and scope of the operator.  Without a namespace it watches all of them. -/
structure Config where
  nameSpace : Option String := none
  requeueSeconds : Nat := 15
  errorRequeueSeconds : Nat := 60
  reconcileTimeoutSeconds : Nat := 30
deriving DecidableEq

/-- What happens next to a fragment. -/
inductive Action where
  | awaitChange
  | requeueAfter (seconds : Nat)
deriving DecidableEq

/-- What follows a pass that ended with a report. -/
def Config.actionFor (c : Config) (r : Report) : Action :=
  match r.disposition with
  | .done => .awaitChange
  | .requeue => .requeueAfter c.requeueSeconds

/-- What follows a pass that ended with an error. -/
def Config.actionOnError (c : Config) (e : Error) : Action :=
  if e.isTerminal then .awaitChange
  else if e.isRetriable then .requeueAfter c.requeueSeconds
  else .requeueAfter c.errorRequeueSeconds

/-- What a replica that is not the leader does with a fragment. -/
def Config.actionAsFollower (c : Config) : Action := .requeueAfter c.requeueSeconds

end ConfigMerge
