import ConfigMerge.Metrics
import ConfigMerge.Service.Health

/-!
# Service/Endpoint — the operational endpoints of a replica

`/health` and `/metrics` are answered to `GET` and `HEAD`.  Every other path is unknown, and every
other method is refused with the list of those allowed.  A target may be absolute; its scheme and
its authority do not matter.
-/

namespace ConfigMerge.Endpoint

/-- What an answer carries. -/
inductive Body where
  | none
  | json (value : Json)
  | text (text : String)

/-- An answer to a request. -/
structure Answer where
  status : Nat
  contentType : Option String := none
  allow : Option String := none
  body : Body := .none

/-- Whether a character may stand in the scheme of a target. -/
def isSchemeChar (c : Char) : Bool := c.isAlphanum || c = '+' || c = '-' || c = '.'

/-- Whether a character ends the authority of a target. -/
def endsAuthority (c : Char) : Bool := c = '/' || c = '?' || c = '#'

/-- A target without the scheme and authority of its absolute form. -/
def originForm (target : List Char) : List Char :=
  match target.dropWhile isSchemeChar with
  | ':' :: '/' :: '/' :: rest => rest.dropWhile (fun c => !endsAuthority c)
  | _ => target

/-- The path of a request target, without query and fragment. -/
def pathOf (target : String) : String :=
  String.ofList ((originForm target.toList).takeWhile (fun c => c ≠ '?' && c ≠ '#'))

/-- The full answer at a path, if the path is known. -/
def page? (path : String) (leader : Bool) (metrics : Metrics) : Option Answer :=
  if path = "/health" then
    some { status := 200, contentType := some "application/json"
           body := .json (Health.codec.encode (.ofLeadership leader)) }
  else if path = "/metrics" then
    some { status := 200, contentType := some "text/plain; charset=utf-8"
           body := .text metrics.text }
  else none

/-- The answer to a request. -/
def answer (method target : String) (leader : Bool) (metrics : Metrics) : Answer :=
  match page? (pathOf target) leader metrics with
  | none => { status := 404 }
  | some page =>
    if method = "GET" then page
    else if method = "HEAD" then { page with body := .none }
    else { status := 405, allow := some "GET,HEAD" }

end ConfigMerge.Endpoint
