import ConfigMerge.Proofs.Store.Change
import ConfigMerge.Resource.FragmentStatus

/-!
# Proofs/Store/Timeless — stores that are the same but for the times in them

`Store.Alike` says that two stores have given out the same versions and hold the same objects, except
that a time which stands in one may be another time in the other.  Every write of a pass, made at two
times on stores that are alike, leaves stores that are alike.
-/

namespace ConfigMerge

/-! ## Forgetting times -/

/-- Statuses that may hold times. -/
class Timed (τ : Type) where
  /-- The status with every time that it has set to one and the same. -/
  timeless : τ → τ

instance : Timed FragmentStatus where
  timeless status := { status with lastSyncedAt := status.lastSyncedAt.map fun _ => "" }

instance : Timed Empty := ⟨id⟩

/-- When a fingerprint was recorded does not matter. -/
theorem FragmentStatus.timeless_synced (fingerprint : Option String) (synced synced' : String) :
    Timed.timeless (τ := FragmentStatus) ⟨fingerprint, some synced⟩ =
      Timed.timeless ⟨fingerprint, some synced'⟩ := rfl

/-- The metadata with every time that it has set to one and the same. -/
def Metadata.timeless (m : Metadata) : Metadata :=
  { m with
    creationTimestamp := m.creationTimestamp.map fun _ => ⟨0, false⟩
    deletionTimestamp := m.deletionTimestamp.map fun _ => ⟨0, false⟩ }

variable {σ τ : Type} [Timed τ]

namespace Object

/-- The object with every time that it has set to one and the same. -/
def timeless (o : Object σ τ) : Object σ τ where
  metadata := o.metadata.timeless
  spec := o.spec
  status := o.status.map Timed.timeless

variable {o o' stored stored' : Object σ τ}

theorem key_eq_of_timeless_eq (h : o.timeless = o'.timeless) : o.key = o'.key :=
  congrArg (·.key) h

theorem spec_eq_of_timeless_eq (h : o.timeless = o'.timeless) : o.spec = o'.spec :=
  congrArg (·.spec) h

theorem owners_eq_of_timeless_eq (h : o.timeless = o'.timeless) :
    o.metadata.owners = o'.metadata.owners :=
  congrArg (·.metadata.owners) h

theorem finalizerList_eq_of_timeless_eq (h : o.timeless = o'.timeless) :
    o.metadata.finalizerList = o'.metadata.finalizerList :=
  congrArg (·.metadata.finalizerList) h

theorem isBeingDeleted_timeless (o : Object σ τ) :
    o.timeless.metadata.isBeingDeleted = o.metadata.isBeingDeleted :=
  Option.isSome_map

theorem isBeingDeleted_eq_of_timeless_eq (h : o.timeless = o'.timeless) :
    o.metadata.isBeingDeleted = o'.metadata.isBeingDeleted := by
  rw [← isBeingDeleted_timeless, h, isBeingDeleted_timeless]

theorem isGone_iff_of_timeless_eq (h : o.timeless = o'.timeless) : o.IsGone ↔ o'.IsGone := by
  rw [IsGone, IsGone, isBeingDeleted_eq_of_timeless_eq h, finalizerList_eq_of_timeless_eq h]

theorem timeless_atVersion_congr (h : o.timeless = o'.timeless) (version : String) :
    (o.atVersion version).timeless = (o'.atVersion version).timeless :=
  congrArg (·.atVersion version) h

theorem timeless_marked_congr (h : o.timeless = o'.timeless) (now now' : Instant) :
    (o.marked now).timeless = (o'.marked now').timeless :=
  congrArg (·.modifyMetadata ({ · with deletionTimestamp := some ⟨0, false⟩ })) h

theorem timeless_status_congr (o : Object σ τ) {status status' : τ}
    (h : Timed.timeless status = Timed.timeless status') :
    ({ o with status := some status } : Object σ τ).timeless =
      ({ o with status := some status' } : Object σ τ).timeless := by
  rw [timeless, timeless, Option.map_some, Option.map_some, h]

theorem timeless_inPlaceOf (o stored : Object σ τ) :
    (o.inPlaceOf stored).timeless = o.timeless.inPlaceOf stored.timeless := rfl

theorem timeless_inPlaceOf_congr (h : o.timeless = o'.timeless)
    (hs : stored.timeless = stored'.timeless) :
    (o.inPlaceOf stored).timeless = (o'.inPlaceOf stored').timeless := by
  rw [timeless_inPlaceOf, h, hs, timeless_inPlaceOf]

end Object

/-! ## Stores -/

namespace Store

/-- The same versions were given out, and the same is stored, but for the times in it. -/
structure Alike (s s' : Store σ τ) : Prop where
  version : s.version = s'.version
  objects : ∀ k, (s.objects.get? k).map Object.timeless = (s'.objects.get? k).map Object.timeless

variable {s s' s'' t t' : Store σ τ} {k : ObjectKey}

theorem Alike.refl (s : Store σ τ) : s.Alike s := ⟨rfl, fun _ => rfl⟩

theorem Alike.trans (h : s.Alike s') (h' : s'.Alike s'') : s.Alike s'' :=
  ⟨h.version.trans h'.version, fun k => (h.objects k).trans (h'.objects k)⟩

theorem Alike.nextVersion (h : s.Alike s') : s.nextVersion = s'.nextVersion := by
  rw [Store.nextVersion, Store.nextVersion, h.version]

theorem Alike.get?_eq_none (h : s.Alike s') (hk : s.objects.get? k = none) :
    s'.objects.get? k = none := by
  have hat := h.objects k
  rw [hk, Option.map_none] at hat
  exact Option.map_eq_none_iff.mp hat.symm

theorem Alike.get?_eq_some (h : s.Alike s') {o : Object σ τ} (hk : s.objects.get? k = some o) :
    ∃ o', s'.objects.get? k = some o' ∧ o.timeless = o'.timeless := by
  have hat := h.objects k
  rw [hk, Option.map_some] at hat
  obtain ⟨o', ho', heq⟩ := Option.map_eq_some_iff.mp hat.symm
  exact ⟨o', ho', heq.symm⟩

/-- Stores stay alike when the same is done at one key. -/
theorem Alike.of_changes (h : s.Alike s') {x x' : Option (Object σ τ)} (hc : s.Changes t k x)
    (hc' : s'.Changes t' k x') (hv : t.version = t'.version)
    (hx : x.map Object.timeless = x'.map Object.timeless) : t.Alike t' where
  version := hv
  objects k' := by
    by_cases hk : k' = k
    · rw [hk, hc.here, hc'.here, hx]
    · rw [hc.elsewhere k' hk, hc'.elsewhere k' hk, h.objects]

/-! ## The writes of a pass -/

theorem Alike.write (h : s.Alike s') {o o' : Object σ τ} (ho : o.timeless = o'.timeless) :
    (s.write k o).2.Alike (s'.write k o').2 := by
  refine h.of_changes (changes_write s k o) (changes_write s' k o')
    (congrArg (· + 1) h.version) (congrArg some ?_)
  rw [h.nextVersion]
  exact Object.timeless_atVersion_congr ho _

theorem Alike.erase (h : s.Alike s') (k : ObjectKey) :
    Alike { s with objects := s.objects.erase k } { s' with objects := s'.objects.erase k } :=
  h.of_changes (changes_erase s k) (changes_erase s' k) h.version rfl

theorem Alike.seed (h : s.Alike s') (o : Object σ τ) (now now' : Instant) :
    (s.seed now o).2.Alike (s'.seed now' o).2 := by
  refine h.of_changes (changes_seed s now o) (changes_seed s' now' o)
    (congrArg (· + 1) h.version) ?_
  rw [h.nextVersion]
  rfl

theorem Alike.replaced (h : s.Alike s') {o o' stored stored' : Object σ τ}
    (ho : o.timeless = o'.timeless) (hs : stored.timeless = stored'.timeless) :
    (s.replaced o stored).Alike (s'.replaced o' stored') := by
  have hplace := Object.timeless_inPlaceOf_congr ho hs
  have hwrite := h.write (k := o.key) hplace
  rw [Store.replaced, Store.replaced, ← Object.key_eq_of_timeless_eq ho]
  by_cases hg : (o.inPlaceOf stored).IsGone
  · rw [if_pos hg, if_pos ((Object.isGone_iff_of_timeless_eq hplace).mp hg)]
    exact hwrite.erase o.key
  · rw [if_neg hg, if_neg fun hg' => hg ((Object.isGone_iff_of_timeless_eq hplace).mpr hg')]
    exact hwrite

theorem Alike.requestDeletion (h : s.Alike s') (k : ObjectKey) (now now' : Instant) :
    (s.requestDeletion now k).Alike (s'.requestDeletion now' k) := by
  cases hk : s.objects.get? k with
  | none =>
    rw [requestDeletion_of_absent now hk, requestDeletion_of_absent now' (h.get?_eq_none hk)]
    exact h
  | some o =>
    obtain ⟨o', hk', ho⟩ := h.get?_eq_some hk
    have hfin := Object.finalizerList_eq_of_timeless_eq ho
    by_cases hf : o.metadata.finalizerList = []
    · rw [requestDeletion_of_unguarded now hk hf,
        requestDeletion_of_unguarded now' hk' (hfin.symm.trans hf)]
      exact h.erase k
    · rw [requestDeletion_of_guarded now hk hf,
        requestDeletion_of_guarded now' hk' (hfin ▸ hf),
        ← Object.isBeingDeleted_eq_of_timeless_eq ho]
      split
      · exact h
      · exact h.write (Object.timeless_marked_congr ho now now')

end Store

end ConfigMerge
