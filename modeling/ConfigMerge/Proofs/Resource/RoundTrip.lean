import ConfigMerge.Family
import ConfigMerge.Json.Text
import ConfigMerge.Proofs.Resource.Payload

/-!
# Proofs/Resource/RoundTrip — objects are read back as they were written

An object is written with its group, version and kind, which nobody reads; its other members are read
back from the JSON value and from its text (`ResourceType.decode_encode`,
`ResourceType.ofText?_encode`).  So no fragment and no composite loses anything on its way to a server
and back, and what is written for a value that was read is written for it again.
-/

namespace ConfigMerge

variable {σ τ : Type}

namespace ResourceType

variable {t : ResourceType σ τ} {o : Object σ τ}

/-- The members of an object are read back if metadata, content and status are.  A type without status
reads none. -/
theorem readsBack_fields (hmetadata : o.metadata.Legible) (hspec : t.spec.ReadsBack o.spec)
    (hstatus : ∀ s ∈ o.status, ∃ c, t.status = some c ∧ c.ReadsBack s) :
    t.fields.ReadsBack o o := by
  have hfirst : "metadata" ∉ ([] : List String) := List.not_mem_nil
  have hsecond : "spec" ∉ ["metadata"] := by decide
  have hthird : "status" ∉ ["metadata", "spec"] := by decide
  obtain ⟨kind, spec, _ | status⟩ := t
  · obtain ⟨metadata, content, _ | s⟩ := o
    · exact Fields.ReadsBack.start _ _
        |>.required hfirst (Metadata.readsBack hmetadata)
        |>.required hsecond hspec
    · obtain ⟨c, hc, -⟩ := hstatus s rfl
      cases hc
  · refine Fields.ReadsBack.start _ o
      |>.required hfirst (Metadata.readsBack hmetadata)
      |>.required hsecond hspec
      |>.optional hthird fun s hs => ?_
    obtain ⟨c, hc, hread⟩ := hstatus s hs
    exact Option.some.inj hc ▸ hread

/-- Group, version and kind are not among the members that are read. -/
theorem not_mem_names (t : ResourceType σ τ) :
    "apiVersion" ∉ t.fields.names ∧ "kind" ∉ t.fields.names := by
  obtain ⟨kind, spec, _ | status⟩ := t
  · exact (by decide : "apiVersion" ∉ ["metadata", "spec"] ∧ "kind" ∉ ["metadata", "spec"])
  · exact (by decide : "apiVersion" ∉ ["metadata", "spec", "status"] ∧
      "kind" ∉ ["metadata", "spec", "status"])

/-- **An object is read back from its JSON value.** -/
theorem decode_encode (h : t.fields.ReadsBack o o) : t.decode (t.encode o) = some o := by
  obtain ⟨hversion, hkind⟩ := t.not_mem_names
  refine h.read_obj .asWritten ?_ fun name hname => ?_
  · have hnodup : (((t.fields.write o).map (·.1)).filter (t.fields.names.contains ·)).Nodup :=
      List.Pairwise.filter _ h.nodup_write
    simpa [hversion, hkind] using hnodup
  · have hversion' : "apiVersion" ≠ name := fun heq => hversion (heq ▸ hname)
    have hkind' : "kind" ≠ name := fun heq => hkind (heq ▸ hname)
    rw [SortedMap.lookup, if_neg hversion', SortedMap.lookup, if_neg hkind']
    exact (congrFun Option.map_id _).symm

/-- A text gives the members that are read, and no others. -/
theorem partOfText?_encode (h : t.fields.ReadsBack o o)
    (hdepth : Schema.propertiesHeight t.fields.properties < Json.Written.greatestDepth) :
    Json.partOfText? t.reading.shape (t.encode o).compact = some (.obj (t.fields.write o)) := by
  have hexact : (t.encode o).Exact :=
    ⟨trivial, trivial, (Json.exactMembers_iff _).mpr h.exact⟩
  have hunknown (name : String) (hname : name ∉ t.fields.names) :
      t.reading.shape.member? name = none := by
    rw [reading, Schema.member?_shape, SortedMap.lookup_eq_none_of_not_mem (h.properties ▸ hname)]
    rfl
  obtain ⟨hversion, hkind⟩ := t.not_mem_names
  have hwanted (m : String × Json) (hm : m ∈ t.fields.write o) :
      ∃ s, t.reading.shape.member? m.1 = some s ∧ m.2.Wanted 126 s := by
    obtain ⟨schema, hschema, hwanted⟩ := h.wanted 126 (Nat.le_of_lt_succ hdepth) m hm
    exact ⟨schema.shape, by rw [reading, Schema.member?_shape, hschema]; rfl, hwanted⟩
  rw [Json.partOfText?, Json.ofText?_compact hexact, Option.bind_some]
  change (t.encode o).spelled.read? (126 + 1) t.reading.shape = _
  rw [encode, Json.spelled, Json.Written.read?, Json.readMembers?_spelled_cons (hunknown _ hversion),
    Json.readMembers?_spelled_cons (hunknown _ hkind), Json.readMembers?_spelled hwanted,
    Option.map_some]

/-- **An object is read back from its text.** -/
theorem ofText?_encode (h : t.fields.ReadsBack o o)
    (hdepth : Schema.propertiesHeight t.fields.properties < Json.Written.greatestDepth) :
    t.reading.ofText? (t.encode o).compact = some o := by
  rw [Reading.ofText?, partOfText?_encode h hdepth, Option.bind_some]
  exact h.codec.read .asWritten

/-- What is written for an object with legible times is read as this object, from the JSON value and
from its text; and whatever value or text was read, what is written for the object that it gave is
written again for the object that this gives. -/
structure RoundTrips (t : ResourceType σ τ) : Prop where
  value : ∀ o, o.metadata.Legible → t.decode (t.encode o) = some o
  text : ∀ o, o.metadata.Legible → t.reading.ofText? (t.encode o).compact = some o
  rewrittenValue : ∀ j o, t.decode j = some o →
    (t.decode (t.encode o)).map t.encode = some (t.encode o)
  rewrittenText : ∀ text o, t.reading.ofText? text = some o →
    (t.reading.ofText? (t.encode o).compact).map t.encode = some (t.encode o)

/-- Metadata of an object that was read was read itself. -/
theorem legible_of_decode {j : Json} (h : t.decode j = some o) : o.metadata.Legible := by
  obtain ⟨kind, spec, _ | status⟩ := t
  all_goals
    obtain ⟨q, -, hq⟩ := Option.bind_eq_some_iff.mp h
  · obtain ⟨f₂, content, -, h₂, -, rfl⟩ := Fields.of_read_required hq
    obtain ⟨f₁, metadata, j, h₁, hmetadata, rfl⟩ := Fields.of_read_required h₂
    obtain rfl := Option.some.inj h₁
    exact Metadata.legible_of_decode hmetadata
  · obtain ⟨f₃, s, h₃, -, rfl⟩ := Fields.of_read_member hq
    obtain ⟨f₂, content, -, h₂, -, rfl⟩ := Fields.of_read_required h₃
    obtain ⟨f₁, metadata, j, h₁, hmetadata, rfl⟩ := Fields.of_read_required h₂
    obtain rfl := Option.some.inj h₁
    exact Metadata.legible_of_decode hmetadata

theorem roundTrips (hspec : ∀ content, t.spec.ReadsBack content)
    (hstatus : ∀ s, ∃ c, t.status = some c ∧ c.ReadsBack s)
    (hdepth : Schema.propertiesHeight t.fields.properties < Json.Written.greatestDepth) :
    t.RoundTrips := by
  have hvalue (o : Object σ τ) (ho : o.metadata.Legible) : t.decode (t.encode o) = some o :=
    decode_encode (readsBack_fields ho (hspec _) fun s _ => hstatus s)
  have htext (o : Object σ τ) (ho : o.metadata.Legible) :
      t.reading.ofText? (t.encode o).compact = some o :=
    ofText?_encode (readsBack_fields ho (hspec _) fun s _ => hstatus s) hdepth
  refine ⟨hvalue, htext, fun j o hj => ?_, fun text o htext' => ?_⟩
  · rw [hvalue o (legible_of_decode hj), Option.map_some]
  · obtain ⟨j, -, hj⟩ := Option.bind_eq_some_iff.mp htext'
    rw [htext o (legible_of_decode hj), Option.map_some]

end ResourceType

/-- **No fragment and no composite loses anything in JSON.** -/
theorem Family.objects_roundTrip :
    Family.routes.fragments.RoundTrips ∧ Family.routes.composites.RoundTrips ∧
      Family.intentions.fragments.RoundTrips ∧ Family.intentions.composites.RoundTrips := by
  refine ⟨?_, ?_, ?_, ?_⟩
  · exact ResourceType.roundTrips RouteSpec.readsBack (fun s => ⟨_, rfl, s.readsBack⟩) (by decide)
  · exact ResourceType.roundTrips RouterSpec.readsBack nofun (by decide)
  · exact ResourceType.roundTrips SourceSpec.readsBack (fun s => ⟨_, rfl, s.readsBack⟩) (by decide)
  · exact ResourceType.roundTrips IntentionsSpec.readsBack nofun (by decide)

/-- A route fragment of year 1 that is to be deleted in year 9998, with a label that has to be escaped,
comes back from its text; and a value with an unknown member, a `null` and a leap second in another
zone gives a fragment that is written and read again. -/
theorem Family.objects_roundTrip_escaped :
    (let o : Fragment RouteSpec :=
      { metadata :=
          { name := some "a", labels := some (SortedMap.empty.insert "\t\"" "é"),
            creationTimestamp := some ⟨0, false⟩,
            deletionTimestamp := some ⟨315474652800, false⟩ }
        spec := ⟨.ofPathPrefix "web" "/"⟩
        status := some ⟨none, some ""⟩ };
      routes.fragments.reading.ofText? (routes.fragments.encode o).compact = some o) ∧
    (let j : Json := .obj [("extra", .arr []), ("status", .null),
        ("spec", .obj [("route", .obj [("match", .null)])]),
        ("metadata", .obj [("creationTimestamp", .str "2016-12-31T18:59:60-05:00")])];
      ∃ o, routes.fragments.decode j = some o ∧
        (routes.fragments.decode (routes.fragments.encode o)).map routes.fragments.encode =
          some (routes.fragments.encode o)) := by
  constructor
  · refine objects_roundTrip.1.text _ ⟨?_, ?_⟩
    · rintro t ⟨rfl⟩
      exact Timestamp.legible_of_year (by decide) (by decide) rfl
    · rintro t ⟨rfl⟩
      exact Timestamp.legible_of_year (by decide) (by decide) rfl
  · refine ⟨⟨{ creationTimestamp := some ⟨63618825599, true⟩ }, ⟨⟨none, none⟩⟩, none⟩, ?read,
      objects_roundTrip.1.rewrittenValue _ _ ?read⟩
    decide +kernel

end ConfigMerge
