import ConfigMerge.Proofs.Codec.Announced
import ConfigMerge.Proofs.Resource.Admission

/-!
# Proofs/Resource/Written — what is written for a fragment passes the definition of its kind

A server that refuses a write of the operator as invalid would refuse it for ever.  But the schema
of a definition is the one of the codecs, and these write only what it describes, one lemma for each
payload type.  So whatever a fragment holds, what is written for it is allowed by the schema that is
announced for its kind (`Family.written_passes`). -/

namespace ConfigMerge

open Codec.WritesDescribed (text)
open Fields.WritesDescribed (start)

/-! ## Contents and status -/

theorem HeaderMatch.writesDescribed : HeaderMatch.codec.WritesDescribed :=
  .described (Fields.WritesDescribed.codec (start _
    |>.required text
    |>.flag
    |>.optional text
    |>.optional text
    |>.optional text
    |>.optional text
    |>.flag) (by decide)) _

theorem QueryMatch.writesDescribed : QueryMatch.codec.WritesDescribed :=
  Fields.WritesDescribed.codec (start _
    |>.required text
    |>.flag
    |>.optional text
    |>.optional text) (by decide)

theorem RouteHttpMatch.writesDescribed : RouteHttpMatch.codec.WritesDescribed :=
  .described (Fields.WritesDescribed.codec (start _
    |>.optional text
    |>.optional text
    |>.optional text
    |>.listing HeaderMatch.writesDescribed
    |>.listing QueryMatch.writesDescribed
    |>.listing text) (by decide)) _

theorem RouteMatch.writesDescribed : RouteMatch.codec.WritesDescribed :=
  Fields.WritesDescribed.codec (start _
    |>.optional RouteHttpMatch.writesDescribed) (by decide)

theorem RouteDestination.writesDescribed : RouteDestination.codec.WritesDescribed :=
  .described (Fields.WritesDescribed.codec (start _
    |>.optional text
    |>.optional text
    |>.optional text
    |>.optional text
    |>.optional (.described text _)
    |>.optional .uint32
    |>.flag
    |>.listing .uint32) (by decide)) _

theorem Route.writesDescribed : Route.codec.WritesDescribed :=
  .described (Fields.WritesDescribed.codec (start _
    |>.optional RouteMatch.writesDescribed
    |>.optional RouteDestination.writesDescribed) (by decide)) _

theorem RouteSpec.writesDescribed : RouteSpec.codec.WritesDescribed :=
  Fields.WritesDescribed.codec (start _
    |>.required Route.writesDescribed) (by decide)

theorem IntentionAction.writesDescribed : IntentionAction.codec.WritesDescribed :=
  .described (.choice fun a => by cases a <;> decide) _

theorem HttpPermission.writesDescribed : HttpPermission.codec.WritesDescribed :=
  Fields.WritesDescribed.codec (start _
    |>.optional text
    |>.optional text
    |>.optional text
    |>.listing HeaderMatch.writesDescribed
    |>.listing text) (by decide)

theorem Permission.writesDescribed : Permission.codec.WritesDescribed :=
  Fields.WritesDescribed.codec (start _
    |>.required IntentionAction.writesDescribed
    |>.optional HttpPermission.writesDescribed) (by decide)

theorem SourceIntention.writesDescribed : SourceIntention.codec.WritesDescribed :=
  .described (Fields.WritesDescribed.codec (start _
    |>.required text
    |>.optional text
    |>.optional (.described IntentionAction.writesDescribed _)
    |>.listing Permission.writesDescribed
    |>.optional text) (by decide)) _

theorem SourceSpec.writesDescribed : SourceSpec.codec.WritesDescribed :=
  Fields.WritesDescribed.codec (start _
    |>.required SourceIntention.writesDescribed) (by decide)

theorem FragmentStatus.writesDescribed : FragmentStatus.codec.WritesDescribed :=
  .described (Fields.WritesDescribed.codec (start _
    |>.omittable (.described text _)
    |>.omittable (.described text _)) (by decide)) _

/-! ## Objects -/

namespace Definition

/-- The value passes the definition.

* The schema that is announced allows it, and so does the server's reading of it.
* Beside the names of its kind and its metadata it has just what the schema describes: every member
  is a declared one and is given once, none that is required is missing, and none is `null`. -/
structure Passes (d : Definition) (j : Json) : Prop where
  allows : d.schemaJson.Allows j
  validates : d.schema.validates j
  described : ∃ own rest, j = .obj (own ++ rest) ∧
    own.map (·.1) = ["apiVersion", "kind", "metadata"] ∧
    d.schema.Describes (.obj rest) ∧ (Json.obj rest).nullFree

variable {σ τ : Type} {d : Definition} {t : ResourceType σ τ} {status : Codec τ}

/-- What is written for an object passes, if content and status are written as described. -/
theorem passes_encode (hd : d.schema = t.schema) (hstatus : t.status = some status)
    (hspec : t.spec.WritesDescribed) (hs : status.WritesDescribed) (o : Object σ τ) :
    d.Passes (t.encode o) := by
  let rest := (t.describedFields status).write (o.spec, o.status)
  let own : List (String × Json) := [("apiVersion", .str t.kind.apiVersion),
    ("kind", .str t.kind.name), ("metadata", Metadata.codec.encode o.metadata)]
  have hencode : t.encode o = .obj (own ++ rest) := by
    rw [ResourceType.encode, ResourceType.fields, hstatus]
    rfl
  have hfields : (t.describedFields status).WritesDescribed :=
    start Prod.mk |>.required hspec |>.optional hs
  have hnodup : ["spec", "status"].Nodup := by decide
  have hdescribes : t.schema.Describes (.obj rest) := by
    rw [ResourceType.schema_eq hstatus]
    exact hfields.codec hnodup (o.spec, o.status)
  have hown : ∀ m ∈ own, m.1 ∉ ["spec", "status"] := by simp [own]
  obtain ⟨hallows, hvalidates⟩ : t.schema.toJson.Allows (.obj (own ++ rest)) ∧
      t.schema.validates (.obj (own ++ rest)) := by
    rw [ResourceType.schema_eq hstatus] at hdescribes ⊢
    exact hdescribes.with_undeclared hown
  rw [hencode]
  refine ⟨?_, hd ▸ hvalidates, own, rest, rfl, rfl, hd ▸ hdescribes, hdescribes.nullFree⟩
  rw [← hd] at hallows
  have hne : Json.obj (own ++ rest) ≠ .null := by simp
  exact (hallows.annotated hne (by decide) _).annotated hne (by decide) _

end Definition

/-- **What is written for a fragment passes the definition of its kind**, whatever it holds. -/
theorem Family.written_passes :
    (∀ f : Fragment RouteSpec, Definition.routes.Passes (routes.fragments.encode f)) ∧
      ∀ f : Fragment SourceSpec, Definition.intentions.Passes (intentions.fragments.encode f) :=
  ⟨Definition.passes_encode rfl rfl RouteSpec.writesDescribed FragmentStatus.writesDescribed,
    Definition.passes_encode rfl rfl SourceSpec.writesDescribed FragmentStatus.writesDescribed⟩

end ConfigMerge
