import ConfigMerge.Api.Client
import ConfigMerge.Leader.Lease

/-!
# Leader/Election — acquiring and renewing the lease

A replica that finds no lease creates one, renews the lease that it holds, and takes over a lease
that has expired.  The take-over carries the version that was read, so the server rejects it when
another replica was faster.  `Election.attempt` makes these calls one by one, so that attempts of
several replicas may interleave.
-/

namespace ConfigMerge

/-- A change to the lease. -/
inductive LeasePatch where
  | renew (now : Instant)
  | takeOver (identity : String) (now : Instant) (observed : Option String)
deriving DecidableEq

/-- The change as a merge patch. -/
def LeasePatch.toJson : LeasePatch → Json
  | .renew now => .obj [("spec", .obj [
      ("renewTime", Instant.codec.encode now),
      ("leaseDurationSeconds", .int leaseDurationSeconds)])]
  | .takeOver identity now observed => .obj [
      ("metadata", .obj [("resourceVersion", (observed.map .str).getD .null)]),
      ("spec", .obj [
        ("holderIdentity", .str identity),
        ("acquireTime", Instant.codec.encode now),
        ("renewTime", Instant.codec.encode now),
        ("leaseDurationSeconds", .int leaseDurationSeconds)])]

/-- A call for the lease. -/
inductive LeaseCall where
  | get
  | create (lease : Lease)
  | patch (patch : LeasePatch)

/-- The answer to a call for the lease. -/
@[reducible] def LeaseCall.Answer : LeaseCall → Type
  | .get => Except ClientError (Option Lease)
  | .create _ | .patch _ => Except ClientError Lease

/-- A computation that makes calls for the lease. -/
abbrev Election := ExceptT ClientError (Program LeaseCall.Answer)

namespace Election

/-- Reads the lease. -/
def get : Election (Option Lease) := ExceptT.mk (Program.question (A := LeaseCall.Answer) .get)

/-- Stores a new lease. -/
def create (l : Lease) : Election Lease :=
  ExceptT.mk (Program.question (A := LeaseCall.Answer) (.create l))

/-- Changes the lease. -/
def patch (p : LeasePatch) : Election Lease :=
  ExceptT.mk (Program.question (A := LeaseCall.Answer) (.patch p))

/-- The lease that a replica creates. -/
def newLease (nameSpace identity : String) (now : Instant) : Lease where
  metadata := { name := some leaseName, nameSpace := some nameSpace }
  spec := some {
    holderIdentity := some identity
    leaseDurationSeconds := some ConfigMerge.leaseDurationSeconds
    acquireTime := some now
    renewTime := some now }

/-- Takes over a lease that has expired; another replica may have been faster. -/
def takeOver (identity : String) (now : Instant) (l : Lease) : Election Bool :=
  ExceptT.mk do
    match ← (patch (.takeOver identity now l.metadata.resourceVersion)).run with
    | .ok _ => return .ok true
    | .error (.api s) => return if s.code = 409 then .ok false else .error (.api s)
    | .error e => return .error e

/-- One attempt to acquire or renew the lease: whether the replica is the leader now. -/
def attempt (nameSpace identity : String) (now : Instant) : Election Bool := do
  match ← get with
  | none =>
    let _ ← create (newLease nameSpace identity now)
    return true
  | some l =>
    if l.holder? = some identity then
      let _ ← patch (.renew now)
      return true
    else if l.isExpired now then takeOver identity now l
    else return false

end Election

/-! ## On the API server -/

/-- Where leases are served. -/
def leaseKind : ResourceKind := ⟨"coordination.k8s.io", "v1", Lease.kind, "leases"⟩

namespace LeaseCall

/-- The request of a call for the lease. -/
def request (nameSpace : String) : LeaseCall → Except ClientError Request
  | .get => do Request.to .get (← leaseKind.objectPath nameSpace leaseName "")
  | .create l => Request.withJson .post (leaseKind.path (some nameSpace) ++ "?") l.encode
  | .patch p => do
    Request.withPatch (← leaseKind.objectPath nameSpace leaseName "?") p.toJson

/-- The answer that a reply brings. -/
def readReply (r : Reply) : (c : LeaseCall) → c.Answer
  | .get => r.readOptional Lease.reading
  | .create _ | .patch _ => r.read Lease.reading

/-- The answer to a call that could not be made. -/
def unsent (e : ClientError) : (c : LeaseCall) → c.Answer
  | .get | .create _ | .patch _ => .error e

/-- A call for the lease as an exchange with the API server. -/
def exchange (nameSpace : String) (c : LeaseCall) : Exchange c.Answer :=
  match c.request nameSpace with
  | .error e => return c.unsent e
  | .ok request => do
    let reply ← request.send
    return c.readReply reply

end LeaseCall

/-- An election in a namespace as an exchange with the API server. -/
def Election.exchange {ρ : Type} (nameSpace : String) (e : Election ρ) :
    Exchange (Except ClientError ρ) :=
  e.run.translate (LeaseCall.exchange nameSpace)

end ConfigMerge
