import ConfigMerge.Api.Client
import ConfigMerge.Json.Text
import ConfigMerge.Proofs.Codec.Admitted
import ConfigMerge.Resource.Definition

/-!
# Proofs/Resource/Admission — which of the fragments that a server admits are read

The API server admits an object by the schema of its definition.  An admitted fragment is read exactly
when it fits (`ResourceType.ReadsAdmitted.object`), and a list of admitted fragments exactly when all of
them do: one that does not fit hides its siblings (`ResourceType.ReadsAdmitted.listing`).  A caller has no
integers, so nothing but a repeated name can keep it from being read; a route may ask for more retries
than the reader takes.
-/

namespace ConfigMerge

open Codec.ReadsAdmitted (text list)
open Fields.ReadsAdmitted (start)

/-! ## Contents and status -/

theorem HeaderMatch.readsAdmitted : HeaderMatch.codec.ReadsAdmitted :=
  .described (Fields.ReadsAdmitted.codec <| start _
    |>.required text
    |>.flag
    |>.optional text
    |>.optional text
    |>.optional text
    |>.optional text
    |>.flag) _

theorem QueryMatch.readsAdmitted : QueryMatch.codec.ReadsAdmitted :=
  Fields.ReadsAdmitted.codec <| start _
    |>.required text
    |>.flag
    |>.optional text
    |>.optional text

theorem RouteHttpMatch.readsAdmitted : RouteHttpMatch.codec.ReadsAdmitted :=
  .described (Fields.ReadsAdmitted.codec <| start _
    |>.optional text
    |>.optional text
    |>.optional text
    |>.listing HeaderMatch.readsAdmitted
    |>.listing QueryMatch.readsAdmitted
    |>.listing text) _

theorem RouteMatch.readsAdmitted : RouteMatch.codec.ReadsAdmitted :=
  Fields.ReadsAdmitted.codec <| start _
    |>.optional RouteHttpMatch.readsAdmitted

theorem RouteDestination.readsAdmitted : RouteDestination.codec.ReadsAdmitted :=
  .described (Fields.ReadsAdmitted.codec <| start _
    |>.optional text
    |>.optional text
    |>.optional text
    |>.optional text
    |>.optional (.described text _)
    |>.optional .uint32
    |>.flag
    |>.listing .uint32) _

theorem Route.readsAdmitted : Route.codec.ReadsAdmitted :=
  .described (Fields.ReadsAdmitted.codec <| start _
    |>.optional RouteMatch.readsAdmitted
    |>.optional RouteDestination.readsAdmitted) _

theorem RouteSpec.readsAdmitted : RouteSpec.codec.ReadsAdmitted :=
  Fields.ReadsAdmitted.codec <| start _
    |>.required Route.readsAdmitted

theorem IntentionAction.readsAdmitted : IntentionAction.codec.ReadsAdmitted :=
  .described (.choice _) _

theorem HttpPermission.readsAdmitted : HttpPermission.codec.ReadsAdmitted :=
  Fields.ReadsAdmitted.codec <| start _
    |>.optional text
    |>.optional text
    |>.optional text
    |>.listing HeaderMatch.readsAdmitted
    |>.listing text

theorem Permission.readsAdmitted : Permission.codec.ReadsAdmitted :=
  Fields.ReadsAdmitted.codec <| start _
    |>.required IntentionAction.readsAdmitted
    |>.optional HttpPermission.readsAdmitted

theorem SourceIntention.readsAdmitted : SourceIntention.codec.ReadsAdmitted :=
  .described (Fields.ReadsAdmitted.codec <| start _
    |>.required text
    |>.optional text
    |>.optional (.described IntentionAction.readsAdmitted _)
    |>.listing Permission.readsAdmitted
    |>.optional text) _

theorem SourceSpec.readsAdmitted : SourceSpec.codec.ReadsAdmitted :=
  Fields.ReadsAdmitted.codec <| start _
    |>.required SourceIntention.readsAdmitted

theorem FragmentStatus.readsAdmitted : FragmentStatus.codec.ReadsAdmitted :=
  .described (Fields.ReadsAdmitted.codec <| start _
    |>.omittable (.described text _)
    |>.omittable (.described text _)) _

/-! ## Objects -/

/-- The metadata that an object gives, once and well formed. -/
def Json.onlyMetadata? : Json → Option Metadata
  | .obj members =>
    match members.filter (·.1 = "metadata") with
    | [(_, metadata)] => Metadata.codec.decode metadata
    | _ => none
  | _ => none

theorem Json.of_onlyMetadata? {j : Json} (h : j.onlyMetadata?.isSome) :
    ∃ members metadata, j = .obj members ∧ (members.map (·.1)).count "metadata" = 1 ∧
      Record.find? ⟨members, false⟩ "metadata" = some metadata ∧
        (Metadata.codec.decode metadata).isSome := by
  cases j with
  | obj members =>
    simp only [onlyMetadata?] at h
    split at h
    · next name metadata hfilter =>
      have hmem : (name, metadata) ∈ members.filter (·.1 = "metadata") := by simp [hfilter]
      obtain ⟨hmem, hname⟩ := List.mem_filter.mp hmem
      obtain rfl : name = "metadata" := of_decide_eq_true hname
      have hcount : (members.map (·.1)).count "metadata" = 1 := by
        rw [List.count, List.countP_map, List.countP_eq_length_filter]
        exact congrArg List.length hfilter
      exact ⟨members, metadata, rfl, hcount,
        SortedMap.lookup_of_mem_of_count_le_one (Nat.le_of_eq hcount) hmem, h⟩
    · cases h
  | null | bool | int | float | str | arr => cases h

/-- Whether any name but that of the metadata is repeated does not depend on the metadata. -/
theorem Json.nodup_filter_metadata {names : List String} (h : names.count "metadata" = 1) :
    (names.filter (["metadata", "spec", "status"].contains ·)).Nodup ↔
      (names.filter (["spec", "status"].contains ·)).Nodup := by
  rw [nodup_filter_iff, nodup_filter_iff]
  refine forall_congr' fun name => ?_
  by_cases hname : name = "metadata"
  · subst hname
    simp [h]
  · simp [hname]

namespace ResourceType

variable {σ τ : Type}

/-- Whether the API server admits a value as an object of the type: its schema does, and it has well
formed metadata. -/
def admits (t : ResourceType σ τ) (j : Json) : Bool := t.schema.validates j && j.onlyMetadata?.isSome

/-- The members of an object that a definition describes. -/
def describedFields (t : ResourceType σ τ) (status : Codec τ) : Fields (σ × Option τ) (σ × Option τ) :=
  Fields.start Prod.mk
    |>.required "spec" t.spec (·.1)
    |>.optional "status" status (·.2)

variable {t : ResourceType σ τ} {status : Codec τ}

theorem schema_eq (hstatus : t.status = some status) :
    t.schema = (t.describedFields status).codec.schema := by
  obtain ⟨kind, spec, _⟩ := t
  cases hstatus
  rfl

/-- An object with metadata is read exactly when its described members are. -/
theorem isSome_decode (hstatus : t.status = some status) {j : Json} (hj : j.onlyMetadata?.isSome) :
    (t.decode j).isSome = ((t.describedFields status).codec.decode j).isSome := by
  obtain ⟨members, metadata, rfl, hcount, hfind, hmetadata⟩ := Json.of_onlyMetadata? hj
  have hread : (t.fields.read ⟨members, false⟩).isSome =
      ((t.describedFields status).read ⟨members, false⟩).isSome := by
    rw [fields, hstatus]
    simp only [describedFields, Fields.required, Fields.optional, Fields.isSome_read_member]
    rw [hfind, Option.bind_some, hmetadata]
    rfl
  have hnames : t.fields.names = ["metadata", "spec", "status"] := by
    rw [fields, hstatus]
    rfl
  calc (t.decode (.obj members)).isSome
      = (decide ((members.map (·.1)).filter (t.fields.names.contains ·)).Nodup &&
          (t.fields.read ⟨members, false⟩).isSome) := t.fields.isSome_decode_codec members
    _ = (decide ((members.map (·.1)).filter (["spec", "status"].contains ·)).Nodup &&
          ((t.describedFields status).read ⟨members, false⟩).isSome) := by
        rw [hnames, hread, decide_eq_decide.mpr (Json.nodup_filter_metadata hcount)]
    _ = ((t.describedFields status).codec.decode (.obj members)).isSome :=
        ((t.describedFields status).isSome_decode_codec members).symm

/-- An admitted object is read exactly when it fits. -/
theorem isSome_decode_of_admits (hstatus : t.status = some status)
    (hspec : t.spec.ReadsAdmitted) (hread : status.ReadsAdmitted) {j : Json} (hj : t.admits j) :
    (t.decode j).isSome = t.schema.fits j := by
  have hfields : (t.describedFields status).ReadsAdmitted :=
    start Prod.mk |>.required hspec |>.optional hread
  rw [admits, Bool.and_eq_true, schema_eq hstatus] at hj
  rw [isSome_decode hstatus hj.2, schema_eq hstatus]
  exact hfields.codec j hj.1

end ResourceType

/-! ## Lists -/

/-- The items of a list, if its metadata is well formed or missing. -/
def Json.listed? : Json → Option (List Json)
  | j@(.obj _) => do
    let q ← j.record? ["metadata", "items"]
    if (q.find? "metadata").all (fun m => (ListMetadata.fields.objectCodec.decode m).isSome) then
      (q.find? "items").bind Json.items?
    else none
  | _ => none

/-- The values that a reply lists as objects of the type. -/
def ResourceType.listed? {σ τ : Type} (t : ResourceType σ τ) (reply : Reply) : Option (List Json) :=
  (reply.text.toOption.bind (Json.partOfText? t.reading.items.shape)).bind Json.listed?

/-- A list is read exactly when each of its items is. -/
theorem isSome_decodeItems {α : Type} {decode : Json → Option α} {test : Json → Bool} {j : Json}
    {js : List Json} (h : j.listed? = some js) (hjs : ∀ j ∈ js, (decode j).isSome = test j) :
    (decodeItems decode j).isSome = js.all test := by
  cases j with
  | obj members =>
    obtain ⟨q, hq, hgiven⟩ := Option.bind_eq_some_iff.mp h
    split_ifs at hgiven with hmetadata
    obtain ⟨list, hfind, hlist⟩ := Option.bind_eq_some_iff.mp hgiven
    simp only [decodeItems, hq, Option.bind_eq_bind, Option.bind_some, hfind]
    cases list with
    | arr items =>
      obtain rfl := Option.some.inj hlist
      cases hm : q.find? "metadata" with
      | none => exact Codec.isSome_mapM hjs
      | some m =>
        rw [hm] at hmetadata
        obtain ⟨metadata, hdecode⟩ := Option.isSome_iff_exists.mp hmetadata
        simp only [hdecode]
        exact Codec.isSome_mapM hjs
    | null | bool | int | float | str | obj => cases hlist
  | null | bool | int | float | str | arr => cases h

/-- A success is read exactly when its text is. -/
theorem Reply.isOk_read {α : Type} {reading : Reading α} {reply : Reply} {text : String}
    (h : reply.text = .ok text) : (reply.read reading).isOk = (reading.ofText? text).isSome := by
  simp only [Reply.read, h, bind, Except.bind]
  cases reading.ofText? text <;> rfl

/-! ## Fragments -/

/-- What the API server admits is read exactly when it fits: the value as an object of the type, and the
reply as a list of such objects. -/
structure ResourceType.ReadsAdmitted {σ τ : Type} (t : ResourceType σ τ) (j : Json) (reply : Reply) :
    Prop where
  object : t.admits j → (t.decode j).isSome = t.schema.fits j
  listing : ∀ js, t.listed? reply = some js → (∀ j ∈ js, t.admits j) →
    ∀ nameSpace label value,
      (Call.readReply t reply (.listByLabel nameSpace label value)).isOk = js.all t.schema.fits

theorem ResourceType.readsAdmitted {σ τ : Type} {t : ResourceType σ τ} {status : Codec τ}
    (hstatus : t.status = some status) (hspec : t.spec.ReadsAdmitted)
    (hread : status.ReadsAdmitted) (j : Json) (reply : Reply) : t.ReadsAdmitted j reply where
  object hj := isSome_decode_of_admits hstatus hspec hread hj
  listing js hlisted hadmits nameSpace label value := by
    obtain ⟨list, hpart, hlist⟩ := Option.bind_eq_some_iff.mp hlisted
    cases htext : reply.text with
    | error e =>
      rw [htext] at hpart
      cases hpart
    | ok text =>
      rw [htext] at hpart
      calc (Call.readReply t reply (.listByLabel nameSpace label value)).isOk
          = (t.reading.items.ofText? text).isSome := Reply.isOk_read htext
        _ = (decodeItems t.decode list).isSome :=
            congrArg (fun part => (Option.bind part t.reading.items.decode).isSome) hpart
        _ = js.all t.schema.fits := isSome_decodeItems hlist fun j hj =>
            isSome_decode_of_admits hstatus hspec hread (hadmits j hj)

/-- **An admitted fragment is read exactly when it fits**, and a list of admitted fragments exactly when
all of them do.  A caller fits if no name in it is repeated. -/
theorem Family.admitted_read (j : Json) (reply : Reply) :
    routes.fragments.ReadsAdmitted j reply ∧ intentions.fragments.ReadsAdmitted j reply ∧
      (j.distinct → intentions.fragments.schema.fits j) := by
  refine ⟨?_, ?_, fun hj => ?_⟩
  · exact ResourceType.readsAdmitted rfl RouteSpec.readsAdmitted FragmentStatus.readsAdmitted j reply
  · exact ResourceType.readsAdmitted rfl SourceSpec.readsAdmitted FragmentStatus.readsAdmitted j reply
  · exact Schema.fits_of_integerFree (by decide) hj

/-- A route fragment whose route has these members. -/
def Json.routing (members : List (String × Json)) : Json :=
  .obj [("metadata", .obj []), ("spec", .obj [("route", .obj members)])]

/-- A route fragment with this many retries. -/
def Json.retrying (retries : Int) : Json :=
  routing [("destination", .obj [("numRetries", .int retries)])]

/-- The reply that lists these objects. -/
def Reply.ofItems (items : List Json) : Reply :=
  .response 200 (Json.obj [("items", .arr items)]).compact.toUTF8.toList

/-- A list of a route without members and one with the most retries that are read, and a caller that is
denied by its name. -/
theorem Family.admitted_read_mostRetries :
    (∃ js, routes.fragments.listed? (.ofItems [.routing [], .retrying 4_294_967_295]) = some js ∧
      js.length = 2 ∧ (∀ j ∈ js, routes.fragments.admits j) ∧
      (Call.readReply routes.fragments (.ofItems [.routing [], .retrying 4_294_967_295])
        (.listByLabel "default" routes.keyLabel "a")).isOk) ∧
    (let j : Json := .obj [("metadata", .obj []),
        ("spec", .obj [("source", .obj [("name", .str "web"), ("action", .str "deny")])])];
      intentions.fragments.admits j ∧ j.distinct ∧ (intentions.fragments.decode j).isSome) := by
  constructor
  · obtain ⟨js, hlisted, hjs⟩ := (Option.any_eq_true _ _).mp (by decide +kernel :
      (routes.fragments.listed? (.ofItems [.routing [], .retrying 4_294_967_295])).any fun js =>
        js.length = 2 && js.all routes.fragments.admits && js.all routes.fragments.schema.fits)
    simp only [Bool.and_eq_true, decide_eq_true_eq, List.all_eq_true] at hjs
    obtain ⟨⟨hlength, hadmits⟩, hfits⟩ := hjs
    refine ⟨js, hlisted, hlength, hadmits, ?_⟩
    rw [(admitted_read .null _).1.listing js hlisted hadmits]
    exact List.all_eq_true.mpr hfits
  · intro j
    have hadmits : intentions.fragments.admits j := by decide +kernel
    have hdistinct : j.distinct := by decide +kernel
    refine ⟨hadmits, hdistinct, ?_⟩
    obtain ⟨-, hread, hfits⟩ := admitted_read j (.ofItems [])
    rw [hread.object hadmits]
    exact hfits hdistinct

/-- …but one retry more is admitted as well, and then the route is not read, nor is any list that it is
in. -/
theorem Family.retries_admitted_not_read :
    routes.fragments.admits (.retrying 4_294_967_296) ∧
      (routes.fragments.decode (.retrying 4_294_967_296)).isNone ∧
      (routes.fragments.decode (.routing [])).isSome ∧
      (Call.readReply routes.fragments (.ofItems [.routing [], .retrying 4_294_967_296])
        (.listByLabel "default" routes.keyLabel "a")).isOk = false := by
  decide +kernel

end ConfigMerge
