import ConfigMerge.Family

/-!
# Resource/Definition — how the kinds of fragments are announced to the API server

A `Definition` names a kind, says what a listing shows of its objects and gives the schema that the
server checks them against.  The schema is the one of the codecs, so it speaks of the very members
that are read and written; metadata is left to the server.
-/

namespace ConfigMerge

/-- The schema of the objects of a type. -/
def ResourceType.schema {σ τ : Type} (t : ResourceType σ τ) : Schema :=
  .object (("spec", t.spec.schema) ::
    (t.status.map (fun status => ("status", Schema.nullable status.schema))).toList) ["spec"]

/-- A column of a listing. -/
structure PrinterColumn where
  name : String
  type : String
  path : String
deriving DecidableEq

/-- A kind as it is announced. -/
structure Definition where
  kind : ResourceKind
  shortName : String
  columns : List PrinterColumn
  schema : Schema

namespace PrinterColumn

/-- The time of the last status write. -/
def synced : PrinterColumn := ⟨"Synced", "string", ".status.lastSyncedAt"⟩

/-- The age of an object. -/
def age : PrinterColumn := ⟨"Age", "date", ".metadata.creationTimestamp"⟩

/-- A label; the dots of its name are escaped in the path. -/
def label (name label : String) : PrinterColumn :=
  ⟨name, "string", ".metadata.labels." ++ label.replace "." "\\."⟩

/-- The column as JSON. -/
def toJson (c : PrinterColumn) : Json :=
  .obj [("jsonPath", .str c.path), ("name", .str c.name), ("type", .str c.type)]

end PrinterColumn

namespace Definition

/-- The definition of the fragments of a family, with a first column of its own. -/
def ofFamily {φ κ ι : Type} (F : Family φ κ ι) (shortName : String) (column : PrinterColumn) :
    Definition where
  kind := F.fragments.kind
  shortName
  columns := [column, .synced, .age]
  schema := F.fragments.schema

/-- The definition of route fragments. -/
def routes : Definition := ofFamily .routes "csr" (.label "Router" Family.routes.keyLabel)

/-- The definition of intentions fragments. -/
def intentions : Definition :=
  ofFamily .intentions "csis" ⟨"Source", "string", ".spec.source.name"⟩

/-- Every definition. -/
def all : List Definition := [routes, intentions]

/-- The name of a definition. -/
def name (d : Definition) : String := d.kind.plural ++ "." ++ d.kind.group

/-- The schema as it is announced: with a title and a description. -/
def schemaJson (d : Definition) : Json :=
  let description :=
    "Auto-generated derived type for " ++ d.kind.name ++ "Spec via `CustomResource`"
  .obj ((d.schema.described description).keywords.insert "title" (.str d.kind.name)).entries

/-- The one version of the kind. -/
def versionJson (d : Definition) : Json := .obj [
  ("additionalPrinterColumns", .arr (d.columns.map PrinterColumn.toJson)),
  ("name", .str d.kind.version),
  ("schema", .obj [("openAPIV3Schema", d.schemaJson)]),
  ("served", .bool true),
  ("storage", .bool true),
  ("subresources", .obj [("status", .obj [])])]

/-- The names under which the kind is known. -/
def namesJson (d : Definition) : Json := .obj [
  ("categories", .arr []),
  ("kind", .str d.kind.name),
  ("plural", .str d.kind.plural),
  ("shortNames", .arr [.str d.shortName]),
  ("singular", .str d.kind.name.toLower)]

/-- The definition as JSON. -/
def toJson (d : Definition) : Json := .obj [
  ("apiVersion", .str "apiextensions.k8s.io/v1"),
  ("kind", .str "CustomResourceDefinition"),
  ("metadata", .obj [("name", .str d.name)]),
  ("spec", .obj [
    ("group", .str d.kind.group),
    ("names", d.namesJson),
    ("scope", .str "Namespaced"),
    ("versions", .arr [d.versionJson])])]

end Definition

end ConfigMerge
