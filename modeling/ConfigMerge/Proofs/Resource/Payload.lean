import ConfigMerge.Consul.Intention
import ConfigMerge.Consul.Route
import ConfigMerge.Proofs.Codec.ReadsBack
import ConfigMerge.Proofs.Time.Rfc3339
import ConfigMerge.Resource.FragmentStatus
import ConfigMerge.Resource.Metadata

/-!
# Proofs/Resource/Payload — contents, status and metadata are read back

Every value of the payload types is read back as it was written, one lemma for each type, from those
of its members.  Metadata is read back if its times are legible (`Metadata.readsBack`), and metadata
that was read has such times only (`Metadata.legible_of_decode`).
-/

namespace ConfigMerge

open Codec.ReadsBack (list text)
open Fields.ReadsBack (start)

/-! ## Routes -/

theorem HeaderMatch.readsBack (h : HeaderMatch) : HeaderMatch.codec.ReadsBack h :=
  .described (Fields.ReadsBack.codec <| start _ h
    |>.required (by decide) (text _)
    |>.flag (by decide)
    |>.optional (by decide) (fun _ _ => text _)
    |>.optional (by decide) (fun _ _ => text _)
    |>.optional (by decide) (fun _ _ => text _)
    |>.optional (by decide) (fun _ _ => text _)
    |>.flag (by decide)) _

theorem QueryMatch.readsBack (m : QueryMatch) : QueryMatch.codec.ReadsBack m :=
  Fields.ReadsBack.codec <| start _ m
    |>.required (by decide) (text _)
    |>.flag (by decide)
    |>.optional (by decide) (fun _ _ => text _)
    |>.optional (by decide) (fun _ _ => text _)

theorem RouteHttpMatch.readsBack (m : RouteHttpMatch) : RouteHttpMatch.codec.ReadsBack m :=
  .described (Fields.ReadsBack.codec <| start _ m
    |>.optional (by decide) (fun _ _ => text _)
    |>.optional (by decide) (fun _ _ => text _)
    |>.optional (by decide) (fun _ _ => text _)
    |>.listing (by decide) (fun h _ => h.readsBack)
    |>.listing (by decide) (fun q _ => q.readsBack)
    |>.listing (by decide) (fun _ _ => text _)) _

theorem RouteMatch.readsBack (m : RouteMatch) : RouteMatch.codec.ReadsBack m :=
  Fields.ReadsBack.codec <| start _ m
    |>.optional (by decide) (fun http _ => http.readsBack)

theorem RouteDestination.readsBack (d : RouteDestination) : RouteDestination.codec.ReadsBack d :=
  .described (Fields.ReadsBack.codec <| start _ d
    |>.optional (by decide) (fun _ _ => text _)
    |>.optional (by decide) (fun _ _ => text _)
    |>.optional (by decide) (fun _ _ => text _)
    |>.optional (by decide) (fun _ _ => text _)
    |>.optional (by decide) (fun _ _ => .described (text _) _)
    |>.optional (by decide) (fun _ _ => .uint32 _)
    |>.flag (by decide)
    |>.listing (by decide) (fun _ _ => .uint32 _)) _

theorem Route.readsBack (r : Route) : Route.codec.ReadsBack r :=
  .described (Fields.ReadsBack.codec <| start _ r
    |>.optional (by decide) (fun m _ => m.readsBack)
    |>.optional (by decide) (fun d _ => d.readsBack)) _

theorem RouterSpec.readsBack (s : RouterSpec) : RouterSpec.codec.ReadsBack s :=
  Fields.ReadsBack.codec <| start _ s
    |>.defaulted (by decide) (list fun r _ => r.readsBack) _

theorem RouteSpec.readsBack (s : RouteSpec) : RouteSpec.codec.ReadsBack s :=
  Fields.ReadsBack.codec <| start _ s
    |>.required (by decide) s.route.readsBack

/-! ## Intentions -/

theorem IntentionAction.readsBack : (a : IntentionAction) → IntentionAction.codec.ReadsBack a
  | .allow => .described (.choice rfl rfl) _
  | .deny => .described (.choice rfl rfl) _

theorem HttpPermission.readsBack (h : HttpPermission) : HttpPermission.codec.ReadsBack h :=
  Fields.ReadsBack.codec <| start _ h
    |>.optional (by decide) (fun _ _ => text _)
    |>.optional (by decide) (fun _ _ => text _)
    |>.optional (by decide) (fun _ _ => text _)
    |>.listing (by decide) (fun m _ => m.readsBack)
    |>.listing (by decide) (fun _ _ => text _)

theorem Permission.readsBack (p : Permission) : Permission.codec.ReadsBack p :=
  Fields.ReadsBack.codec <| start _ p
    |>.required (by decide) p.action.readsBack
    |>.optional (by decide) (fun http _ => http.readsBack)

theorem SourceIntention.readsBack (s : SourceIntention) : SourceIntention.codec.ReadsBack s :=
  .described (Fields.ReadsBack.codec <| start _ s
    |>.required (by decide) (text _)
    |>.optional (by decide) (fun _ _ => text _)
    |>.optional (by decide) (fun a _ => .described a.readsBack _)
    |>.listing (by decide) (fun p _ => p.readsBack)
    |>.optional (by decide) (fun _ _ => text _)) _

theorem IntentionDestination.readsBack (d : IntentionDestination) :
    IntentionDestination.codec.ReadsBack d :=
  Fields.ReadsBack.codec <| start _ d
    |>.defaulted (by decide) (text _) _
    |>.optional (by decide) (fun _ _ => text _)

theorem IntentionsSpec.readsBack (s : IntentionsSpec) : IntentionsSpec.codec.ReadsBack s :=
  Fields.ReadsBack.codec <| start _ s
    |>.defaulted (by decide) s.destination.readsBack _
    |>.defaulted (by decide) (list fun s _ => s.readsBack) _

theorem SourceSpec.readsBack (s : SourceSpec) : SourceSpec.codec.ReadsBack s :=
  Fields.ReadsBack.codec <| start _ s
    |>.required (by decide) s.source.readsBack

/-! ## Status and metadata -/

theorem FragmentStatus.readsBack (s : FragmentStatus) : FragmentStatus.codec.ReadsBack s :=
  .described (Fields.ReadsBack.codec <| start _ s
    |>.omittable (by decide) (fun _ _ => .described (text _) _)
    |>.omittable (by decide) (fun _ _ => .described (text _) _)) _

theorem Timestamp.readsBack {t : Timestamp} (ht : t.Legible) : Timestamp.codec.ReadsBack t where
  exact := trivial
  wanted _ _ := Json.wanted_str _
  present a := by simp [Timestamp.codec, a.str]
  read a := by
    simp only [Timestamp.codec, a.str, Json.text?, Option.bind_some]
    exact Rfc3339.timestamp?_seconds ht

/-- A text that may be missing is read back. -/
theorem Fields.ReadsParts.textOrEmpty {ρ β : Type} {p : Fields ρ (String → β)} {r : ρ}
    {f : String → β} {name : String} {get : ρ → String} (hp : p.ReadsParts r f)
    (hname : name ∉ p.names) : (p.textOrEmpty name get).ReadsParts r (f (get r)) := by
  have hmember : (p.textOrEmpty name get).ReadsBack r (f (get r)) :=
    hp.toReadsBack.member hname (x := some (.str (get r))) rfl (by simp [Json.Exact])
      (by simp [Json.wanted_str]) fun t q _ hfind => by
        rw [hfind, Option.map_some, t.str]
        rfl
  refine hp.member hname (x := some (.str (get r))) rfl hmember fun t q _ hfind => ?_
  rcases hfind with hfind | hfind
  · rw [hfind]
    rfl
  · rw [hfind, Option.map_some, t.str]
    rfl

theorem OwnerReference.readsBack (o : OwnerReference) : OwnerReference.codec.ReadsBack o :=
  Fields.ReadsParts.objectCodec <| Fields.ReadsParts.start _ o
    |>.textOrEmpty (by decide)
    |>.textOrEmpty (by decide)
    |>.textOrEmpty (by decide)
    |>.textOrEmpty (by decide)
    |>.omittable (by decide) (fun _ _ => .boolean _)
    |>.omittable (by decide) (fun _ _ => .boolean _)

/-- The times of the metadata are such as texts denote. -/
structure Metadata.Legible (m : Metadata) : Prop where
  creation : ∀ t ∈ m.creationTimestamp, t.Legible
  deletion : ∀ t ∈ m.deletionTimestamp, t.Legible

/-- **Metadata with legible times is read back.** -/
theorem Metadata.readsBack {m : Metadata} (hm : m.Legible) : Metadata.codec.ReadsBack m :=
  Fields.ReadsParts.objectCodec <| Fields.ReadsParts.start _ m
    |>.omittable (by decide) (fun _ _ => text _)
    |>.omittable (by decide) (fun _ _ => text _)
    |>.omittable (by decide) (fun _ _ => text _)
    |>.omittable (by decide) (fun _ _ => text _)
    |>.omittable (by decide) (fun _ _ => text _)
    |>.omittable (by decide) (fun _ _ => .int64 _)
    |>.omittable (by decide) (fun _ _ => .int64 _)
    |>.omittable (by decide) (fun _ _ => .dictionary fun _ _ => text _)
    |>.omittable (by decide) (fun _ _ => .dictionary fun _ _ => text _)
    |>.omittable (by decide) (fun _ _ => list fun _ _ => text _)
    |>.omittable (by decide) (fun t ht => Timestamp.readsBack (hm.creation t ht))
    |>.omittable (by decide) (fun t ht => Timestamp.readsBack (hm.deletion t ht))
    |>.omittable (by decide) (fun _ _ => list fun o _ => o.readsBack)

/-! ## Metadata that was read -/

theorem Timestamp.legible_of_decode {j : Json} {t : Timestamp}
    (h : Timestamp.codec.decode j = some t) : t.Legible := by
  obtain ⟨text, -, ht⟩ := Option.bind_eq_some_iff.mp h
  exact Rfc3339.legible_of_timestamp? ht

/-- **Metadata that was read has legible times.** -/
theorem Metadata.legible_of_decode {j : Json} {m : Metadata}
    (h : Metadata.codec.decode j = some m) : m.Legible := by
  obtain ⟨-, hcreation, hdeletion⟩ := Metadata.of_decode h
  constructor
  · intro t ht
    obtain ⟨j', hj'⟩ := hcreation t ht
    exact Timestamp.legible_of_decode hj'
  · intro t ht
    obtain ⟨j', hj'⟩ := hdeletion t ht
    exact Timestamp.legible_of_decode hj'

end ConfigMerge
