import ConfigMerge.Http.Message

/-!
# Http/Script — a server that answers as planned, on virtual time

A `Script` answers requests in turn from a list of planned replies, each after a delay of virtual
milliseconds, and records what was asked and when.  After the last planned reply it answers with an
error.  An exchange may have a deadline: a reply that has not come by then is lost, and from then on
nothing more is asked.
-/

namespace ConfigMerge

/-- A planned answer and how long it takes; without a reply it never comes. -/
structure PlannedReply where
  reply : Option Reply
  delay : Nat := 0

/-- A request and the time at which it was made. -/
structure SentRequest where
  request : Request
  time : Nat

/-- A scripted server at a point of virtual time. -/
structure Script where
  planned : List PlannedReply
  time : Nat := 0
  sent : List SentRequest := []

namespace Script

/-- The answer after the last planned one. -/
def exhausted : PlannedReply :=
  { reply := some (.response 500 "script exhausted".toUTF8.toList) }

/-- Records a request and takes the answer that is next. -/
def take (s : Script) (r : Request) : PlannedReply × Script :=
  (s.planned.headD exhausted,
    { s with planned := s.planned.tail, sent := s.sent ++ [⟨r, s.time⟩] })

/-- Waits for some time. -/
def wait (s : Script) (milliseconds : Nat) : Script := { s with time := s.time + milliseconds }

/-- Gives up at the deadline. -/
def abandon (s : Script) (deadline : Option Nat) : Script :=
  { s with time := deadline.getD s.time }

/-- Runs an exchange.  There is no result when a request would be made at the deadline or later, or
when its answer comes after the deadline or never. -/
def run {ρ : Type} (deadline : Option Nat) : Exchange ρ → Script → Option ρ × Script
  | .done r, s => (some r, s)
  | .ask request next, s =>
    if deadline.any (· ≤ s.time) then (none, s)
    else
      let (planned, s) := s.take request
      match planned.reply with
      | none => (none, s.abandon deadline)
      | some reply =>
        let s' := s.wait planned.delay
        if deadline.any (· < s'.time) then (none, s.abandon deadline)
        else run deadline (next reply) s'

end Script

end ConfigMerge
