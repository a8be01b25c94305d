import ConfigMerge.Family
import ConfigMerge.Json.Patch
import ConfigMerge.Store.Basic

/-!
# Cluster/Basic — the objects of a small cluster

A `Cluster` keeps objects of several kinds as JSON, as whoever wrote them wrote them, and the
changes that watchers have not been told of.  It gives an object its identity and a version for
every write, and it keeps a deleted object for as long as it has finalizers.
-/

namespace ConfigMerge

/-- A change that watchers are told of. -/
structure Change where
  plural : String
  object : Json
  removed : Bool := false

/-- The objects of a cluster by plural and place.  `created` counts how often an identity was given
out, and kinds in `unserved` are not known to the server. -/
structure Cluster where
  objects : SortedMap String (SortedMap ObjectKey Json) := .empty
  created : SortedMap String Nat := .empty
  version : Nat := 0
  changes : List Change := []
  unserved : List String := []

/-! ## Parts of an object -/

/-- A member of an object's metadata. -/
def Json.metadata? (j : Json) (name : String) : Option Json :=
  (j.member? "metadata").bind (·.member? name)

/-- The object with other members in its metadata; `null` removes one. -/
def Json.withMetadata (j : Json) (members : List (String × Json)) : Json :=
  j.patched (.obj [("metadata", .obj members)])

/-- Whether somebody still has to let go of an object. -/
def Json.hasFinalizers (j : Json) : Bool :=
  (((j.metadata? "finalizers").bind (·.items?)).getD []) |>.isEmpty |> not

/-- Whether the deletion of an object has been asked for. -/
def Json.isMarked (j : Json) : Bool := (j.metadata? "deletionTimestamp").isSome

/-- The place that an object says it belongs to. -/
def Json.place (j : Json) : ObjectKey where
  nameSpace := ((j.metadata? "namespace").bind (·.text?)).getD "default"
  name := ((j.metadata? "name").bind (·.text?)).getD ""

namespace Cluster

/-! ## Reading -/

/-- The objects of a kind. -/
def collection (s : Cluster) (plural : String) : SortedMap ObjectKey Json :=
  (s.objects.get? plural).getD .empty

/-- The object at a place. -/
def get? (s : Cluster) (plural : String) (key : ObjectKey) : Option Json :=
  (s.collection plural).get? key

/-- Every object with its kind, by plural and place. -/
def all (s : Cluster) : List Change :=
  s.objects.entries.flatMap (fun e => e.2.values.map (fun j => ⟨e.1, j, false⟩))

/-! ## Writing -/

/-- Removes an object. -/
def remove (s : Cluster) (plural : String) (key : ObjectKey) (j : Json) : Cluster :=
  { s with
    objects := s.objects.insert plural ((s.collection plural).erase key)
    changes := s.changes ++ [⟨plural, j, true⟩] }

/-- Stores an object under its next version; one that is marked goes with its last finalizer. -/
def write (s : Cluster) (plural : String) (key : ObjectKey) (j : Json) : Json × Cluster :=
  let version := s.version + 1
  let j := j.withMetadata
    [("namespace", .str key.nameSpace), ("resourceVersion", .str (toString version))]
  let s := { s with version }
  if j.isMarked && !j.hasFinalizers then (j, s.remove plural key j)
  else
    (j, { s with
      objects := s.objects.insert plural ((s.collection plural).insert key j)
      changes := s.changes ++ [⟨plural, j, false⟩] })

/-- Stores a new object under a new identity. -/
def create (s : Cluster) (plural : String) (key : ObjectKey) (j : Json) : Json × Cluster :=
  let stem := plural ++ "-" ++ key.nameSpace ++ "-" ++ key.name
  let count := (s.created.get? stem).getD 0 + 1
  let s := { s with created := s.created.insert stem count }
  s.write plural key (j.withMetadata [("uid", .str (stem ++ "-" ++ toString count))])

/-- Stores another form of an object.  It keeps its identity, and the mark of its deletion. -/
def replace (s : Cluster) (plural : String) (key : ObjectKey) (stored j : Json) :
    Json × Cluster :=
  s.write plural key (j.withMetadata [
    ("uid", (stored.metadata? "uid").getD .null),
    ("deletionTimestamp", (stored.metadata? "deletionTimestamp").getD .null)])

/-- Asks for the deletion of an object. -/
def delete (s : Cluster) (plural : String) (key : ObjectKey) (stored : Json) : Cluster :=
  if stored.isMarked then s
  else if stored.hasFinalizers then
    (s.write plural key
      (stored.withMetadata [("deletionTimestamp", .str "2024-01-01T00:00:00Z")])).2
  else s.remove plural key stored

/-! ## What users do -/

/-- The kinds that a cluster serves. -/
def kinds : List ResourceKind := [Family.routes.fragments.kind, Family.intentions.fragments.kind,
  Family.routes.composites.kind, Family.intentions.composites.kind]

/-- The plural of a kind. -/
def plural? (kind : String) : Option String := (kinds.find? (·.name = kind)).map (·.plural)

/-- Merges an object into the one at its place, or creates it. -/
def apply (s : Cluster) (j : Json) : Cluster :=
  match ((j.member? "kind").bind (·.text?)).bind plural? with
  | none => s
  | some plural =>
    match s.get? plural j.place with
    | some stored => (s.replace plural j.place stored (stored.patched j)).2
    | none => (s.create plural j.place (Json.null.patched j)).2

/-- Asks for the deletion of an object that may be absent. -/
def requestDeletion (s : Cluster) (kind : String) (key : ObjectKey) : Cluster :=
  match plural? kind with
  | none => s
  | some plural =>
    match s.get? plural key with
    | some stored => s.delete plural key stored
    | none => s

end Cluster

end ConfigMerge
