import ConfigMerge.Cluster.Basic
import ConfigMerge.Http.Message
import ConfigMerge.Http.Target
import ConfigMerge.Json.Text

/-!
# Cluster/Server — requests to a cluster

The API server of a cluster lists, reads, creates, replaces and deletes objects.  A write or
deletion that insists on another version than the stored one is refused, and so is the creation of
an object that is there.
-/

namespace ConfigMerge

/-! ## Targets -/

/-- What a path leads to: a collection, of one namespace or of all, or an object or its status. -/
structure ResourcePath where
  plural : String
  nameSpace : Option String := none
  name : Option String := none
  status : Bool := false
deriving DecidableEq

/-- What the segments of a path lead to. -/
def ResourcePath.ofSegments? : List String → Option ResourcePath
  | ["", "apis", _, _, "namespaces", ns, plural] => some { plural, nameSpace := some ns }
  | ["", "apis", _, _, "namespaces", ns, plural, name] =>
    some { plural, nameSpace := some ns, name := some name }
  | ["", "apis", _, _, "namespaces", ns, plural, name, "status"] =>
    some { plural, nameSpace := some ns, name := some name, status := true }
  | ["", "apis", _, _, plural] => some { plural }
  | _ => none

/-- The path of a target, and the parts of its query. -/
def Target.parts (target : String) : String × List String :=
  match target.splitOn "?" with
  | [] => ("", [])
  | path :: query => (path, (String.intercalate "?" query).splitOn "&")

/-- The label selector among the parts of a query. -/
def Target.selector? (parts : List String) : Option String :=
  (parts.findSome? (fun part => (part.dropPrefix? "labelSelector=").map (·.toString))).bind
    Target.formDecode?

/-- Whether an object has the label that a selector asks for, with the value if it gives one. -/
def Json.isSelectedBy (j : Json) (selector : String) : Bool :=
  let labels := (j.metadata? "labels").getD .null
  match selector.splitOn "=" with
  | [name] => (labels.member? name).isSome
  | name :: value => (labels.member? name).bind (·.text?) = some (String.intercalate "=" value)
  | [] => false

/-! ## Replies -/

/-- A reply with a JSON body. -/
def Reply.ofJson (status : Nat) (j : Json) : Reply :=
  .response status j.canonicalText.toUTF8.toList

/-- A refusal with its reason. -/
def Reply.refusal (code : Nat) (reason message : String) : Reply :=
  .ofJson code (.obj [("apiVersion", .str "v1"), ("kind", .str "Status"),
    ("status", .str "Failure"), ("reason", .str reason), ("message", .str message),
    ("code", .int code)])

namespace Cluster

/-- Nothing is known under a path. -/
def notFound : Reply := .refusal 404 "NotFound" "not found"

/-- Somebody else was faster. -/
def outdated : Reply := .refusal 409 "Conflict" "the object has been modified"

/-- Whether a version or identity that a request insists on is another one than the stored. -/
def disagrees (wanted stored : Option Json) : Bool :=
  match wanted.bind (·.text?) with
  | none => false
  | some wanted => stored.bind (·.text?) ≠ some wanted

/-! ## Answers -/

/-- Lists the objects of a namespace, or of all. -/
def list (s : Cluster) (p : ResourcePath) (selector : Option String) : Reply :=
  let objects := (s.collection p.plural).entries.filter (fun e =>
    p.nameSpace.all (· = e.1.nameSpace) && selector.all e.2.isSelectedBy)
  .ofJson 200 (.obj [("apiVersion", .str "v1"), ("kind", .str "List"),
    ("metadata", .obj [("resourceVersion", .str (toString s.version))]),
    ("items", .arr (objects.map (·.2)))])

/-- Creates an object. -/
def post (s : Cluster) (p : ResourcePath) (nameSpace : String) (j : Json) : Reply × Cluster :=
  let key : ObjectKey := { j.place with nameSpace }
  match s.get? p.plural key with
  | some _ => (.refusal 409 "AlreadyExists" "the object exists", s)
  | none =>
    let (j, s) := s.create p.plural key j
    (.ofJson 201 j, s)

/-- Replaces an object, or only its status. -/
def put (s : Cluster) (p : ResourcePath) (key : ObjectKey) (stored j : Json) : Reply × Cluster :=
  if disagrees (j.metadata? "resourceVersion") (stored.metadata? "resourceVersion") then
    (outdated, s)
  else
    let j :=
      if p.status then
        (stored.patched (.obj [("status", .null)])).patched
          (.obj [("status", (j.member? "status").getD .null)])
      else j
    let (j, s) := s.replace p.plural key stored j
    (.ofJson 200 j, s)

/-- Deletes an object. -/
def deleteObject (s : Cluster) (p : ResourcePath) (key : ObjectKey) (stored : Json)
    (body : Option Json) : Reply × Cluster :=
  let wanted := (body.bind (·.member? "preconditions")).getD .null
  if disagrees (wanted.member? "resourceVersion") (stored.metadata? "resourceVersion")
    || disagrees (wanted.member? "uid") (stored.metadata? "uid") then (outdated, s)
  else
    (.ofJson 200 (.obj [("kind", .str "Status"), ("status", .str "Success")]),
      s.delete p.plural key stored)

/-- Answers a request. -/
def answer (r : Request) (s : Cluster) : Reply × Cluster :=
  let (path, query) := Target.parts r.target
  match ResourcePath.ofSegments? (path.splitOn "/") with
  | none => (notFound, s)
  | some p =>
    if p.plural ∈ s.unserved then (notFound, s)
    else
      match r.method, p.nameSpace, p.name with
      | .get, _, none => (s.list p (Target.selector? query), s)
      | .post, some nameSpace, none => s.post p nameSpace (r.body.getD .null)
      | .get, some nameSpace, some name =>
        (((s.get? p.plural ⟨nameSpace, name⟩).map (Reply.ofJson 200)).getD notFound, s)
      | .put, some nameSpace, some name =>
        match s.get? p.plural ⟨nameSpace, name⟩ with
        | some stored => s.put p ⟨nameSpace, name⟩ stored (r.body.getD .null)
        | none => (notFound, s)
      | .delete, some nameSpace, some name =>
        match s.get? p.plural ⟨nameSpace, name⟩ with
        | some stored => s.deleteObject p ⟨nameSpace, name⟩ stored r.body
        | none => (notFound, s)
      | _, _, _ => (.refusal 405 "MethodNotAllowed" "the method is not supported", s)

/-- Runs an exchange to its end, with nobody else at the server. -/
def run {ρ : Type} (s : Cluster) (e : Exchange ρ) : ρ × Cluster := Program.run answer e s

end Cluster

end ConfigMerge
