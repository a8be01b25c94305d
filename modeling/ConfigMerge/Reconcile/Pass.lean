import ConfigMerge.Finalizer
import ConfigMerge.Fingerprint
import ConfigMerge.Reconcile.Intent

/-!
# Reconcile/Pass — one pass over a fragment

A pass loads the fragment, merges the composite of its key from the live fragments that share the
key, merges every other composite that still lists it as an owner, and then settles the fragment's
own finalizer and status.  An error in the merging part that clears on a retry ends the pass with a
request for another one; every other error ends it as such.
-/

namespace ConfigMerge

namespace Family

variable {φ κ ι : Type} (F : Family φ κ ι)

/-- The value of the key label, which must be there and not empty. -/
def aggregationKey (f : Fragment φ) : Except Error String :=
  match (f.metadata.label? F.keyLabel).filter (· ≠ "") with
  | some key => .ok key
  | none => .error (.badRequest (F.keyLabel ++ " label is required"))

/-- The fingerprint of a fragment's content. -/
def fingerprint (f : Fragment φ) : String := F.fragments.spec.fingerprint f.spec

/-- The fingerprint that was recorded on a fragment. -/
def recorded? (f : Fragment φ) : Option String := f.status.bind (·.fingerprint?)

/-- Whether a fragment's content differs from what was recorded. -/
def isChanged (f : Fragment φ) : Bool := recorded? f ≠ some (F.fingerprint f)

/-- Why a pass over a fragment runs. -/
def intent (f : Fragment φ) : Intent :=
  .classify (recorded? f).isNone (F.isChanged f) f.metadata.isBeingDeleted

/-- The fragments with a key that are not being deleted. -/
def liveFragments (nameSpace key : String) : Pass φ κ (List (Fragment φ)) := do
  let listed : List (Fragment φ) ← Pass.onFragments (.listByLabel nameSpace F.keyLabel key)
  return listed.filter (!·.metadata.isBeingDeleted)

variable [DecidableEq κ]

/-- Merges the composite of a key from its live fragments. -/
def mergeKey (nameSpace key : String) : Pass φ κ MergeOutcome := do
  let fragments ← F.liveFragments nameSpace key
  F.merge key nameSpace fragments

/-- Merges the composites of several keys, one after the other. -/
def mergeEach (nameSpace : String) : List String → Pass φ κ Unit
  | [] => return ()
  | key :: rest => do
    let _ ← F.mergeKey nameSpace key
    mergeEach nameSpace rest

/-- Merges every composite other than `key` that still lists a fragment's uid, if it has one. -/
def releaseStale (nameSpace key : String) : Option String → Pass φ κ Unit
  | none => return ()
  | some uid => do
    let keys : List String ← staleKeys nameSpace uid key
    F.mergeEach nameSpace keys

/-- The merging part of a pass: the composite of the key, then those that the fragment has left. -/
def mergeAll (nameSpace key : String) (uid : Option String) : Pass φ κ MergeOutcome := do
  let outcome ← F.mergeKey nameSpace key
  F.releaseStale nameSpace key uid
  return outcome

/-- The part of a pass that writes the fragment itself: its finalizer, and its status when a live
fragment's content was changed. -/
def recordMerge (now : Instant) (f : Fragment φ) (outcome : MergeOutcome) : Pass φ κ Report := do
  let settled ← reconcileFinalizer Pass.updateFragment fragmentFinalizer f
  let report : Report :=
    { intent := some (F.intent f), merge := some outcome, finalizerChanged := settled.written }
  if !f.metadata.isBeingDeleted && F.isChanged f then
    let status : FragmentStatus :=
      { contentFingerprint := some (F.fingerprint f), lastSyncedAt := some (Rfc3339.nanos now) }
    let _ ← Pass.onFragments (.updateStatus { settled.object with status := some status })
    return { report with statusWritten := true }
  else return report

/-- One pass over the fragment of a name. -/
def reconcile (now : Instant) (nameSpace name : String) : Pass φ κ Report := do
  let found : Option (Fragment φ) ← Pass.onFragments (.get nameSpace name)
  match found with
  | none => return .gone
  | some f =>
    let key ← (F.aggregationKey f : Except Error String)
    match ← (F.mergeAll nameSpace key f.metadata.uid).attempt with
    | .ok outcome => F.recordMerge now f outcome
    | .error e => if e.clearsOnRetry then return .requeue (F.intent f) else throw e

end Family

end ConfigMerge
