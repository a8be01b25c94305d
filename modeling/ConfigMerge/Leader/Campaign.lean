import ConfigMerge.Http.Script
import ConfigMerge.Leader.Election

/-!
# Leader/Campaign — trying for the lease again and again

A replica tries for the lease for as long as it runs: every ten seconds while it is the leader and
every five while it is not.  An attempt that fails costs the leadership.
-/

namespace ConfigMerge

/-- The name of a replica: its host name as the environment gives it, else that of the system. -/
def replicaIdentity (environment system : Option String) : String :=
  (environment.orElse (fun _ => system)).getD "unknown-host"

namespace Campaign

/-- Whether a replica is the leader after an attempt. -/
def leaderAfter : Except ClientError Bool → Bool
  | .ok leader => leader
  | .error _ => false

/-- How many milliseconds a replica waits after an attempt. -/
def pause (leader : Bool) : Nat := if leader then 10000 else 5000

/-- The requests of one attempt, and whether the replica was the leader when it made them. -/
structure Round where
  leader : Bool
  sent : List SentRequest

/-- Runs rounds until a time; `rounds` bounds their number. -/
def runUntil (nameSpace identity : String) (now : Instant) (stop : Nat) :
    Nat → Bool → Script → List Round × Bool
  | 0, leader, _ => ([], leader)
  | rounds + 1, leader, s =>
    if stop ≤ s.time then ([], leader)
    else
      let attempt := (Election.attempt nameSpace identity now).exchange nameSpace
      let (result, s) := Script.run (some stop) attempt { s with sent := [] }
      let round : Round := ⟨leader, s.sent⟩
      match result with
      | none => ([round], leader)
      | some r =>
        let leader := leaderAfter r
        let (later, leader) :=
          runUntil nameSpace identity now stop rounds leader (s.wait (pause leader))
        (round :: later, leader)

/-- The rounds of a replica that is stopped after some milliseconds, and whether it is the leader at
the end. -/
def run (nameSpace identity : String) (now : Instant) (stop : Nat) (leader : Bool) (s : Script) :
    List Round × Bool :=
  runUntil nameSpace identity now stop (stop / 5000 + 1) leader s

end Campaign

end ConfigMerge
