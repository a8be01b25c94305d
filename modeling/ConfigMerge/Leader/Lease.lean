import ConfigMerge.Resource.Metadata

/-!
# Leader/Lease — the lease that replicas compete for

The lease names the replica that holds it and says when it was last renewed and for how long that
lasts.  A lease that was never renewed has expired.
-/

namespace ConfigMerge

/-- The name of the lease. -/
def leaseName : String := "consul-merge-operator-leader"

/-- How long a lease lasts, in seconds. -/
def leaseDurationSeconds : Int := 15

/-- What a lease says. -/
structure LeaseSpec where
  holderIdentity : Option String := none
  leaseDurationSeconds : Option Int := none
  acquireTime : Option Instant := none
  renewTime : Option Instant := none
  leaseTransitions : Option Int := none
deriving DecidableEq

/-- A stored lease. -/
structure Lease where
  metadata : Metadata := {}
  spec : Option LeaseSpec := none
deriving DecidableEq

/-! ## JSON form -/

/-- An integer of 32 bits. -/
def int32? : Json → Option Int
  | .int n => if -2_147_483_648 ≤ n ∧ n < 2_147_483_648 then some n else none
  | _ => none

/-- Integers of 32 bits. -/
def int32Codec : Codec Int := ⟨.int, int32?, .int64⟩

/-- Times to the microsecond. -/
def Instant.codec : Codec Instant where
  encode t := .str (Rfc3339.micros t)
  decode j := j.text?.bind Rfc3339.instant?
  schema := .text

namespace LeaseSpec

/-- The members of what a lease says. -/
def fields : Fields LeaseSpec LeaseSpec :=
  Fields.start LeaseSpec.mk
    |>.omittable "holderIdentity" .text (·.holderIdentity)
    |>.omittable "leaseDurationSeconds" int32Codec (·.leaseDurationSeconds)
    |>.omittable "acquireTime" Instant.codec (·.acquireTime)
    |>.omittable "renewTime" Instant.codec (·.renewTime)
    |>.omittable "leaseTransitions" int32Codec (·.leaseTransitions)

/-- The JSON form of what a lease says. -/
def codec : Codec LeaseSpec := fields.objectCodec

end LeaseSpec

namespace Lease

/-- The group and version of leases. -/
def apiVersion : String := "coordination.k8s.io/v1"

/-- The kind of leases. -/
def kind : String := "Lease"

/-- The members of a lease.  Both are always written; either may be missing or `null`. -/
def fields : Fields Lease Lease :=
  Fields.start (fun (m : Option Metadata) spec => { metadata := m.getD {}, spec })
    |>.omittable "metadata" Metadata.codec (fun l => some l.metadata)
    |>.omittable "spec" LeaseSpec.codec (·.spec)

/-- Whether a member is this text wherever it is given. -/
def agrees (j : Json) (name text : String) : Bool :=
  match j with
  | .obj members => members.all (fun m => m.1 ≠ name || m.2.text? = some text)
  | _ => false

/-- The lease as JSON. -/
def encode (l : Lease) : Json :=
  .obj (("apiVersion", .str apiVersion) :: ("kind", .str kind) :: fields.write l)

/-- The lease that JSON stands for; group, version and kind have to be right if they are given. -/
def decode (j : Json) : Option Lease :=
  if agrees j "apiVersion" apiVersion && agrees j "kind" kind then fields.objectCodec.decode j
  else none

/-- How leases are read. -/
def reading : Reading Lease where
  shape :=
    (Schema.object (("apiVersion", .text) :: ("kind", .text) :: fields.properties) []).shape
  decode := decode

/-! ## Expiry -/

/-- Whether a lease renewed at some time has lapsed by `now`; one that does not say how long it
lasts lasts for `leaseDurationSeconds`. -/
def expired (renewed : Option Instant) (duration : Option Int) (now : Instant) : Bool :=
  match renewed with
  | some renewed => now.isAfter (renewed.addSeconds (duration.getD leaseDurationSeconds))
  | none => true

/-- The replica that holds the lease. -/
def holder? (l : Lease) : Option String := l.spec.bind (·.holderIdentity)

/-- Whether the lease has lapsed by `now`. -/
def isExpired (l : Lease) (now : Instant) : Bool :=
  expired (l.spec.bind (·.renewTime)) (l.spec.bind (·.leaseDurationSeconds)) now

end Lease

end ConfigMerge
