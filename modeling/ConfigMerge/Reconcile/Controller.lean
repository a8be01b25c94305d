import ConfigMerge.Metrics
import ConfigMerge.Reconcile.Pass
import ConfigMerge.Reconcile.Schedule
import ConfigMerge.Store.Faulty

/-!
# Reconcile/Controller — what an event for a fragment leads to

The leader runs a pass over the fragment that an event is for, measures it and schedules what
follows; a follower only asks to be called again.  `Stores` answers the calls of a pass from a pair
of stores.
-/

namespace ConfigMerge

/-! ## Events -/

/-- What an event led to: a report's action, or an error with the action that follows it. -/
inductive EventResult where
  | action (action : Action)
  | error (e : Error) (action : Action)
deriving DecidableEq

/-- What follows a pass that ended. -/
def Config.eventResult (c : Config) : Except Error Report → EventResult
  | .ok report => .action (c.actionFor report)
  | .error e => .error e (c.actionOnError e)

/-- Where the fragment of an event is to be found. -/
def Object.place {σ τ : Type} (o : Object σ τ) : String × String :=
  (o.metadata.effectiveNamespace, o.metadata.anyName)

/-- The error of a pass that was abandoned at its deadline. -/
def deadlineError (nameSpace name : String) : Error := .timeout (nameSpace ++ "/" ++ name)

/-- Handles an event.  `run` makes the pass in the state of the world and says how many seconds it
took, or gives no result when it was abandoned at the deadline. -/
def Config.handle {S φ : Type} (c : Config) (controller : String) (leader : Bool) (f : Fragment φ)
    (run : String → String → S → Option (Except Error Report) × Float × S) (s : S) (m : Metrics) :
    EventResult × S × Metrics :=
  if leader then
    let (nameSpace, name) := f.place
    let (result, seconds, s) := run nameSpace name s
    let result := result.getD (.error (deadlineError nameSpace name))
    (c.eventResult result, s, m.observePass controller seconds result)
  else (.action c.actionAsFollower, s, m)

/-! ## Passes on a pair of stores -/

/-- The stores of a family. -/
structure Stores (φ κ : Type) where
  fragments : FaultyStore φ FragmentStatus := {}
  composites : FaultyStore κ Empty := {}

namespace Stores

variable {φ κ ι : Type}

/-- The answer to a call, with refusals classified. -/
def answer (F : Family φ κ ι) (now : Instant) :
    (q : PassCall φ κ) → Stores φ κ → q.Answer × Stores φ κ
  | .fragments c, s =>
    let (r, fragments) := s.fragments.perform now c
    (r.mapError (Refusal.toError F.fragments.kind c), { s with fragments })
  | .composites c, s =>
    let (r, composites) := s.composites.perform now c
    (r.mapError (Refusal.toError F.composites.kind c), { s with composites })

/-- Runs a pass to its end, with nobody else at the stores. -/
def run {ρ : Type} (F : Family φ κ ι) (now : Instant) (s : Stores φ κ) (p : Pass φ κ ρ) :
    Except Error ρ × Stores φ κ :=
  Program.run (answer F now) p.run s

end Stores

end ConfigMerge
