import ConfigMerge.Resource.Metadata

/-!
# Resource/Object — stored objects and their types

An `Object` is metadata, a content and an optional status.  A `ResourceType` says under which group,
version and kind such objects are served and how content and status are written.
-/

namespace ConfigMerge

/-- The name under which a server keeps a collection of objects. -/
structure ResourceKind where
  group : String
  version : String
  name : String
  plural : String
deriving DecidableEq

/-- Group and version in one text. -/
def ResourceKind.apiVersion (k : ResourceKind) : String := k.group ++ "/" ++ k.version

/-- An object with content `σ` and status `τ`. -/
structure Object (σ τ : Type) where
  metadata : Metadata
  spec : σ
  status : Option τ := none
deriving DecidableEq

/-- Changes the metadata of an object. -/
def Object.modifyMetadata {σ τ : Type} (o : Object σ τ) (f : Metadata → Metadata) : Object σ τ :=
  { o with metadata := f o.metadata }

/-- A kind of objects with the forms of its content and, if it has one, of its status. -/
structure ResourceType (σ τ : Type) where
  kind : ResourceKind
  spec : Codec σ
  status : Option (Codec τ)

namespace ResourceType

variable {σ τ : Type}

/-- The members of an object that are read. -/
def fields (t : ResourceType σ τ) : Fields (Object σ τ) (Object σ τ) :=
  match t.status with
  | some status =>
    Fields.start Object.mk
      |>.required "metadata" Metadata.codec (·.metadata)
      |>.required "spec" t.spec (·.spec)
      |>.optional "status" status (·.status)
  | none =>
    Fields.start (fun metadata spec => { metadata, spec })
      |>.required "metadata" Metadata.codec (·.metadata)
      |>.required "spec" t.spec (·.spec)

/-- The object as JSON, with its group, version and kind. -/
def encode (t : ResourceType σ τ) (o : Object σ τ) : Json :=
  .obj (("apiVersion", .str t.kind.apiVersion) :: ("kind", .str t.kind.name) :: t.fields.write o)

/-- The object that JSON stands for; group, version and kind are not looked at. -/
def decode (t : ResourceType σ τ) (j : Json) : Option (Object σ τ) :=
  (j.record? t.fields.names).bind t.fields.read

/-- How objects of a kind are read. -/
def reading (t : ResourceType σ τ) : Reading (Object σ τ) :=
  ⟨(Schema.object t.fields.properties []).shape, t.decode⟩

end ResourceType

end ConfigMerge
