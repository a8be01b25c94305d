import ConfigMerge.Access
import ConfigMerge.Api.Reply
import ConfigMerge.Http.Target
import ConfigMerge.Pass

/-!
# Api/Client — calls as requests to the API server

Every call is one request, or none when its target cannot be built.  Writes carry the resource
version in the body, deletions as a precondition.  `Call.exchange` turns a call into its request
and back into a classified answer.
-/

namespace ConfigMerge

/-! ## Targets -/

/-- The path of a collection, of one namespace or of all. -/
def ResourceKind.path (k : ResourceKind) (nameSpace : Option String) : String :=
  "/apis/" ++ k.apiVersion ++ "/"
    ++ (match nameSpace with
      | some nameSpace => "namespaces/" ++ nameSpace ++ "/"
      | none => "")
    ++ k.plural

/-- The path of an object with a suffix.  An object must have a name. -/
def ResourceKind.objectPath (k : ResourceKind) (nameSpace name ending : String) :
    Except ClientError String :=
  if name = "" then .error (.request (.invalid "A non-empty name is required"))
  else .ok (k.path (some nameSpace) ++ "/" ++ name ++ ending)

/-- A request whose target is usable. -/
def Request.to (method : Method) (target : String) (contentType : Option String := none)
    (body : Option Json := none) : Except ClientError Request :=
  match Target.ofText target with
  | .ok target => .ok { method, target, contentType, body }
  | .error fault => .error (.request (.target fault))

/-- A request with a JSON body. -/
def Request.withJson (method : Method) (target : String) (body : Json) :
    Except ClientError Request :=
  Request.to method target (some "application/json") (some body)

/-- A request that changes an object by a merge patch. -/
def Request.withPatch (target : String) (patch : Json) : Except ClientError Request :=
  Request.to .patch target (some "application/merge-patch+json") (some patch)

/-- A listing, of objects with a label if a selector is given. -/
def ResourceKind.listRequest (k : ResourceKind) (nameSpace selector : Option String) :
    Except ClientError Request :=
  Request.to .get (k.path nameSpace ++ "?" ++
    match selector with
    | some selector => "&labelSelector=" ++ Target.formEncode selector
    | none => "")

/-! ## Calls -/

namespace Call

variable {σ τ : Type}

/-- The version and identity that a deletion insists on. -/
def preconditions (m : Metadata) : Json :=
  .obj [("preconditions", .obj (
    (m.resourceVersion.map (fun v => ("resourceVersion", Json.str v))).toList
      ++ (m.uid.map (fun u => ("uid", Json.str u))).toList))]

/-- The request of a call. -/
def request (t : ResourceType σ τ) : Call (Object σ τ) → Except ClientError Request
  | .get nameSpace name => do Request.to .get (← t.kind.objectPath nameSpace name "")
  | .list nameSpace => t.kind.listRequest (some nameSpace) none
  | .listByLabel nameSpace label value =>
    t.kind.listRequest (some nameSpace) (some (label ++ "=" ++ value))
  | .create o =>
    Request.withJson .post (t.kind.path (some o.metadata.effectiveNamespace) ++ "?") (t.encode o)
  | .update o => do
    Request.withJson .put (← target o "?") (t.encode o)
  | .updateStatus o => do
    Request.withJson .put (← target o "/status?") (t.encode o)
  | .delete o => do
    Request.withJson .delete (← target o "?") (preconditions o.metadata)
where
  target (o : Object σ τ) (ending : String) : Except ClientError String :=
    t.kind.objectPath o.metadata.effectiveNamespace o.metadata.anyName ending

/-- The result that a reply brings. -/
def readReply (t : ResourceType σ τ) (r : Reply) :
    (c : Call (Object σ τ)) → Except ClientError c.Result
  | .get .. => r.readOptional t.reading
  | .list _ | .listByLabel .. => r.read t.reading.items
  | .create _ | .update _ | .updateStatus _ => r.read t.reading
  | .delete _ => r.read t.reading.deletion

/-- A call as an exchange with the API server. -/
def exchange (t : ResourceType σ τ) (c : Call (Object σ τ)) : Exchange (Except Error c.Result) :=
  match c.request t with
  | .error e => return .error (.classify t.kind.name c.subject e)
  | .ok request => do
    let reply ← request.send
    return (c.readReply t reply).mapError (.classify t.kind.name c.subject)

end Call

/-! ## Passes -/

/-- A call of a pass as an exchange. -/
def PassCall.exchange {φ κ ι : Type} (F : Family φ κ ι) : (q : PassCall φ κ) → Exchange q.Answer
  | .fragments c => c.exchange F.fragments
  | .composites c => c.exchange F.composites

/-- A pass as an exchange. -/
def Pass.exchange {φ κ ι ρ : Type} (F : Family φ κ ι) (p : Pass φ κ ρ) :
    Exchange (Except Error ρ) :=
  p.run.translate (PassCall.exchange F)

/-- Lists the objects of a kind: of one namespace or of all, and with a label if one is given. -/
def ResourceType.listing {σ τ : Type} (t : ResourceType σ τ) (nameSpace label : Option String) :
    Exchange (Except ClientError (List (Object σ τ))) :=
  match t.kind.listRequest nameSpace label with
  | .error e => return .error e
  | .ok request => do
    let reply ← request.send
    return reply.read t.reading.items

/-- Makes sure that the API server serves a kind. -/
def ResourceType.ensureServed {σ τ : Type} (t : ResourceType σ τ) :
    Exchange (Except Error Unit) := do
  match ← t.listing none none with
  | .ok _ => return .ok ()
  | .error _ => return .error (.config (t.kind.name ++ " CRD not installed"))

end ConfigMerge
