import ConfigMerge.Store.Faulty
import Mathlib.Tactic.Common

/-!
# Proofs/Store/Change — what an operation does to the look-ups of a store

A successful operation touches one key.  `Store.Changes s s' k x` says so: `k` answers `x` in `s'`
and every other key answers as in `s`.  Each operation gets one lemma that names its key and its
`x`; nothing later unfolds an operation.
-/

namespace ConfigMerge

variable {σ τ : Type}

/-! ## Objects -/

namespace Object

/-- The object as it is stored in the place of another one: the uid and the times are those of the
stored one. -/
def inPlaceOf (o stored : Object σ τ) : Object σ τ :=
  o.modifyMetadata ({ · with
    uid := stored.metadata.uid
    creationTimestamp := stored.metadata.creationTimestamp
    deletionTimestamp := stored.metadata.deletionTimestamp })

/-- The object with a version. -/
def atVersion (o : Object σ τ) (version : String) : Object σ τ :=
  o.modifyMetadata ({ · with resourceVersion := some version })

/-- The object as it is stored when it is new. -/
def asNew (o : Object σ τ) (now : Instant) (version : String) : Object σ τ :=
  (o.modifyMetadata ({ · with
    nameSpace := some o.key.nameSpace
    uid := some ("uid-" ++ o.key.name ++ "-" ++ version)
    creationTimestamp := some now.toTimestamp })).atVersion version

/-- The object marked for deletion. -/
def marked (o : Object σ τ) (now : Instant) : Object σ τ :=
  o.modifyMetadata ({ · with deletionTimestamp := some now.toTimestamp })

/-- An object that goes when it is stored: it is being deleted and has no finalizers. -/
def IsGone (o : Object σ τ) : Prop :=
  o.metadata.isBeingDeleted ∧ o.metadata.finalizerList.isEmpty

instance (o : Object σ τ) : Decidable o.IsGone := inferInstanceAs (Decidable (_ ∧ _))

/-- What replaces a live object stays. -/
theorem not_isGone_inPlaceOf (o : Object σ τ) {stored : Object σ τ}
    (h : stored.metadata.isBeingDeleted = false) : ¬ (o.inPlaceOf stored).IsGone := by
  rintro ⟨hdel, -⟩
  exact absurd (hdel.symm.trans h) (by decide)

/-- What a deletion request leaves of an object: without finalizers it goes, else it is marked,
once. -/
def withdrawn (o : Object σ τ) (now : Instant) (version : String) : Option (Object σ τ) :=
  if o.metadata.finalizerList = [] then none
  else if o.metadata.isBeingDeleted then some o
  else some ((o.marked now).atVersion version)

/-- `o'` is `o` marked for deletion: what was marked before is the same, and of what was not only
the mark and the version are new. -/
structure HeldBack (o o' : Object σ τ) : Prop where
  held : o.metadata.finalizerList ≠ []
  marked : o'.metadata.isBeingDeleted
  once : o.metadata.isBeingDeleted → o' = o
  rest : o' = o.modifyMetadata ({ · with
    deletionTimestamp := o'.metadata.deletionTimestamp
    resourceVersion := o'.metadata.resourceVersion })

theorem HeldBack.finalizerList {o o' : Object σ τ} (h : o.HeldBack o') :
    o'.metadata.finalizerList = o.metadata.finalizerList := by
  rw [h.rest]
  rfl

theorem HeldBack.key {o o' : Object σ τ} (h : o.HeldBack o') : o'.key = o.key := by
  rw [h.rest]
  rfl

theorem HeldBack.not_isGone {o o' : Object σ τ} (h : o.HeldBack o') : ¬ o'.IsGone := by
  rintro ⟨-, hnone⟩
  rw [h.finalizerList, List.isEmpty_iff] at hnone
  exact h.held hnone

variable {o o' : Object σ τ} {now : Instant} {version : String}

theorem withdrawn_eq_none_iff :
    o.withdrawn now version = none ↔ o.metadata.finalizerList = [] := by
  unfold withdrawn
  split
  next h => exact iff_of_true rfl h
  next h =>
    refine iff_of_false ?_ h
    split <;> exact Option.some_ne_none _

theorem HeldBack.of_withdrawn (h : o.withdrawn now version = some o') : o.HeldBack o' := by
  unfold withdrawn at h
  split at h
  · cases h
  next hheld =>
    split at h
    next hmarked =>
      obtain rfl := Option.some.inj h
      exact ⟨hheld, hmarked, fun _ => rfl, rfl⟩
    next hlive =>
      obtain rfl := Option.some.inj h
      exact ⟨hheld, rfl, fun hmarked => absurd hmarked hlive, rfl⟩

/-- What has finalizers is held back. -/
theorem exists_withdrawn (now : Instant) (version : String)
    (h : o.metadata.finalizerList ≠ []) :
    ∃ o', o.withdrawn now version = some o' ∧ o.HeldBack o' := by
  obtain ⟨o', ho'⟩ : ∃ o', o.withdrawn now version = some o' :=
    Option.ne_none_iff_exists'.mp (mt withdrawn_eq_none_iff.mp h)
  exact ⟨o', ho', .of_withdrawn ho'⟩

end Object

/-! ## One changed key -/

namespace Store

/-- Every object is stored under its own namespace and name. -/
def Keyed (s : Store σ τ) : Prop := ∀ k o, s.objects.get? k = some o → o.key = k

theorem keyed_iff {s : Store σ τ} : s.Keyed ↔ ∀ e ∈ s.objects.entries, e.2.key = e.1 :=
  ⟨fun h e he => h e.1 e.2 (SortedMap.get?_eq_some_iff.mpr he),
    fun h k o ho => h (k, o) (SortedMap.get?_eq_some_iff.mp ho)⟩

instance (s : Store σ τ) : Decidable s.Keyed := decidable_of_iff _ keyed_iff.symm

/-- `s'` answers `x` at `k`, and as `s` does everywhere else. -/
structure Changes (s s' : Store σ τ) (k : ObjectKey) (x : Option (Object σ τ)) : Prop where
  here : s'.objects.get? k = x
  elsewhere : ∀ k', k' ≠ k → s'.objects.get? k' = s.objects.get? k'

/-- Storing objects under their own keys keeps a store keyed. -/
theorem Keyed.changes {s s' : Store σ τ} {k : ObjectKey} {x : Option (Object σ τ)}
    (h : s.Keyed) (hc : s.Changes s' k x) (hx : ∀ o, x = some o → o.key = k) : s'.Keyed := by
  intro k' o ho
  by_cases hk : k' = k
  · subst hk
    exact hx o (hc.here.symm.trans ho)
  · exact h k' o ((hc.elsewhere k' hk).symm.trans ho)

theorem changes_write (s : Store σ τ) (k : ObjectKey) (o : Object σ τ) :
    s.Changes (s.write k o).2 k (some (o.atVersion s.nextVersion)) where
  here := SortedMap.get?_insert_self _ _ _
  elsewhere k' hk := by
    simp only [write, SortedMap.get?_insert, if_neg (Ne.symm hk)]

theorem changes_erase (s : Store σ τ) (k : ObjectKey) :
    s.Changes { s with objects := s.objects.erase k } k none where
  here := SortedMap.get?_erase_self _ _
  elsewhere k' hk := by simp only [SortedMap.get?_erase, if_neg (Ne.symm hk)]

theorem changes_refl (s : Store σ τ) (k : ObjectKey) : s.Changes s k (s.objects.get? k) :=
  ⟨rfl, fun _ _ => rfl⟩

theorem Changes.trans {s s' s'' : Store σ τ} {k : ObjectKey} {x x' : Option (Object σ τ)}
    (h : s.Changes s' k x) (h' : s'.Changes s'' k x') : s.Changes s'' k x' :=
  ⟨h'.here, fun k' hk => (h'.elsewhere k' hk).trans (h.elsewhere k' hk)⟩

/-! ## The operations -/

/-- A write that is based on the stored version finds the stored object. -/
theorem current_eq_ok {s : Store σ τ} {o stored : Object σ τ}
    (h : s.objects.get? o.key = some stored)
    (hv : o.metadata.resourceVersion = stored.metadata.resourceVersion) :
    s.current o = .ok stored := by
  simp [current, h, hv]

/-- A write that passes the version check meets the stored object, at the version it carries. -/
theorem of_current_eq_ok {s : Store σ τ} {o stored : Object σ τ} (h : s.current o = .ok stored) :
    s.objects.get? o.key = some stored ∧ (o.metadata.resourceVersion.isSome →
      o.metadata.resourceVersion = stored.metadata.resourceVersion) := by
  unfold current at h
  split at h
  · cases h
  next found hfound =>
    split at h
    · cases h
    next hv =>
      obtain rfl : found = stored := by simpa using h
      exact ⟨hfound, fun hs => by_contra fun hne => hv ⟨hs, hne⟩⟩

/-- A write that passes the version check meets what is stored under its key. -/
theorem eq_of_current_eq_ok {s : Store σ τ} {o stored o' : Object σ τ}
    (h : s.current o = .ok stored) (ho' : s.objects.get? o.key = some o') : stored = o' :=
  Option.some.inj ((of_current_eq_ok h).1.symm.trans ho')

theorem changes_seed (s : Store σ τ) (now : Instant) (o : Object σ τ) :
    s.Changes (s.seed now o).2 o.key (some (o.asNew now s.nextVersion)) :=
  changes_write s o.key _

/-- **Creation** succeeds where nothing is stored. -/
theorem create_eq_ok {s : Store σ τ} {now : Instant} {o : Object σ τ}
    (h : s.objects.get? o.key = none) : s.create now o = .ok (s.seed now o) := by
  simp [create, SortedMap.contains, h]

theorem of_create_eq_ok {s s' : Store σ τ} {now : Instant} {o o' : Object σ τ}
    (h : s.create now o = .ok (o', s')) :
    s.objects.get? o.key = none ∧ s' = (s.seed now o).2 := by
  unfold create at h
  split at h
  · cases h
  next hc =>
    have hseed : s.seed now o = (o', s') := by simpa using h
    refine ⟨?_, ?_⟩
    · simpa [SortedMap.contains] using hc
    · rw [hseed]

/-- The store after a replacement of `stored` by `o`. -/
def replaced (s : Store σ τ) (o stored : Object σ τ) : Store σ τ :=
  if (o.inPlaceOf stored).IsGone then
    { (s.write o.key (o.inPlaceOf stored)).2 with
      objects := (s.write o.key (o.inPlaceOf stored)).2.objects.erase o.key }
  else (s.write o.key (o.inPlaceOf stored)).2

/-- **Replacement** succeeds where an object of the carried version is stored. -/
theorem update_eq_ok {s : Store σ τ} {o stored : Object σ τ} (h : s.current o = .ok stored) :
    s.update o = .ok ((o.inPlaceOf stored).atVersion s.nextVersion, s.replaced o stored) := by
  unfold update replaced
  rw [h]
  refine congrArg Except.ok ?_
  by_cases hg : (o.inPlaceOf stored).IsGone
  · rw [if_pos hg]
    exact if_pos hg
  · rw [if_neg hg]
    exact if_neg hg

/-- A replacement stores the object under its key, or drops it when it is to go. -/
theorem changes_replaced (s : Store σ τ) (o stored : Object σ τ) :
    s.Changes (s.replaced o stored) o.key
      (if (o.inPlaceOf stored).IsGone then none
        else some ((o.inPlaceOf stored).atVersion s.nextVersion)) := by
  have hw := changes_write s o.key (o.inPlaceOf stored)
  unfold replaced
  split
  · exact ⟨SortedMap.get?_erase_self _ _, fun k' hk =>
      ((changes_erase _ _).elsewhere k' hk).trans (hw.elsewhere k' hk)⟩
  · exact hw

/-- **A status write** keeps the stored metadata. -/
theorem updateStatus_eq_ok {s : Store σ τ} {o stored : Object σ τ}
    (h : s.current o = .ok stored) :
    s.updateStatus o = .ok (s.write o.key { o with metadata := stored.metadata }) := by
  simp [updateStatus, h, Except.map]

/-- **A change in place** is one write, where there is an object. -/
theorem edit_of_stored {s : Store σ τ} {k : ObjectKey} {o : Object σ τ}
    (h : s.objects.get? k = some o) (change : Object σ τ → Object σ τ) :
    s.edit k change = some (s.write k (change o)) := by
  rw [edit, h, Option.map_some]

theorem edit_of_absent {s : Store σ τ} {k : ObjectKey} (h : s.objects.get? k = none)
    (change : Object σ τ → Object σ τ) : s.edit k change = none := by
  rw [edit, h, Option.map_none]

/-- **A deletion request** drops an object without finalizers. -/
theorem requestDeletion_of_unguarded {s : Store σ τ} {k : ObjectKey} {o : Object σ τ}
    (now : Instant) (h : s.objects.get? k = some o) (hf : o.metadata.finalizerList = []) :
    s.requestDeletion now k = { s with objects := s.objects.erase k } := by
  simp [requestDeletion, h, hf]

/-- …and marks one with finalizers, unless it is marked already. -/
theorem requestDeletion_of_guarded {s : Store σ τ} {k : ObjectKey} {o : Object σ τ}
    (now : Instant) (h : s.objects.get? k = some o) (hf : o.metadata.finalizerList ≠ []) :
    s.requestDeletion now k =
      if o.metadata.isBeingDeleted then s else (s.write k (o.marked now)).2 := by
  have hne : o.metadata.finalizerList.isEmpty = false := by simpa using hf
  simp only [requestDeletion, h, hne]
  rfl

theorem requestDeletion_of_absent {s : Store σ τ} {k : ObjectKey} (now : Instant)
    (h : s.objects.get? k = none) : s.requestDeletion now k = s := by
  simp [requestDeletion, h]

/-- …so it leaves what `Object.withdrawn` says. -/
theorem changes_requestDeletion {s : Store σ τ} {k : ObjectKey} {o : Object σ τ} (now : Instant)
    (h : s.objects.get? k = some o) :
    s.Changes (s.requestDeletion now k) k (o.withdrawn now s.nextVersion) := by
  unfold Object.withdrawn
  split
  next hf =>
    rw [requestDeletion_of_unguarded now h hf]
    exact changes_erase s k
  next hf =>
    rw [requestDeletion_of_guarded now h hf]
    split
    · exact h ▸ changes_refl s k
    · exact changes_write s k (o.marked now)

/-! ## The calls that succeed -/

theorem perform_create {s : Store σ τ} {o : Object σ τ} (now : Instant)
    (h : s.objects.get? o.key = none) :
    s.perform now (.create o) = (.ok (o.asNew now s.nextVersion), (s.seed now o).2) := by
  simp only [perform, create_eq_ok h, settle]
  rfl

theorem perform_update {s : Store σ τ} {o stored : Object σ τ} (now : Instant)
    (h : s.current o = .ok stored) :
    s.perform now (.update o) =
      (.ok ((o.inPlaceOf stored).atVersion s.nextVersion), s.replaced o stored) := by
  simp only [perform, update_eq_ok h, settle]

theorem perform_updateStatus {s : Store σ τ} {o stored : Object σ τ} (now : Instant)
    (h : s.current o = .ok stored) :
    s.perform now (.updateStatus o) =
      (.ok (({ o with metadata := stored.metadata } : Object σ τ).atVersion s.nextVersion),
        (s.write o.key { o with metadata := stored.metadata }).2) := by
  simp only [perform, updateStatus_eq_ok h, settle]
  rfl

theorem perform_delete {s : Store σ τ} {o stored : Object σ τ} (now : Instant)
    (h : s.current o = .ok stored) :
    s.perform now (.delete o) = (.ok (), s.requestDeletion now o.key) := by
  simp only [perform, delete, h, Except.map, settle]

/-! ## The calls that are refused -/

section Refused

variable {s : Store σ τ} {o : Object σ τ} {e : Refusal} (now : Instant)

theorem perform_create_refused {stored : Object σ τ} (h : s.objects.get? o.key = some stored) :
    s.perform now (.create o) = (.error .alreadyExists, s) := by
  simp [perform, create, SortedMap.contains, h, settle]

theorem perform_update_refused (h : s.current o = .error e) :
    s.perform now (.update o) = (.error e, s) := by
  simp only [perform, update, h, Except.map, settle]

theorem perform_updateStatus_refused (h : s.current o = .error e) :
    s.perform now (.updateStatus o) = (.error e, s) := by
  simp only [perform, updateStatus, h, Except.map, settle]

theorem perform_delete_refused (h : s.current o = .error e) :
    s.perform now (.delete o) = (.error e, s) := by
  simp only [perform, delete, h, Except.map, settle]

theorem settle_of_error {α : Type} {r : Except Refusal (α × Store σ τ)}
    (h : (s.settle r).1 = .error e) : (s.settle r).2 = s := by
  cases r with
  | error e' => rfl
  | ok r => cases h

/-- **A refused call leaves the store as it was.** -/
theorem perform_of_error {now : Instant} {c : Call (Object σ τ)}
    (h : (s.perform now c).1 = .error e) : (s.perform now c).2 = s := by
  cases c with
  | get | list | listByLabel => cases h
  | create | update | updateStatus | delete => exact settle_of_error h

end Refused

/-! ## Listings -/

/-- **A listing holds what is stored in the namespace.** -/
theorem mem_list {s : Store σ τ} {ns : String} {o : Object σ τ} :
    o ∈ s.list ns ↔ ∃ k, k.nameSpace = ns ∧ s.objects.get? k = some o := by
  simp only [list, List.mem_map, List.mem_filter, decide_eq_true_eq]
  constructor
  · rintro ⟨⟨k, o'⟩, ⟨hmem, hns⟩, rfl⟩
    exact ⟨k, hns, SortedMap.get?_eq_some_iff.mpr hmem⟩
  · rintro ⟨k, hns, hget⟩
    exact ⟨(k, o), ⟨SortedMap.get?_eq_some_iff.mp hget, hns⟩, rfl⟩

theorem mem_list_of_get? {s : Store σ τ} {ns name : String} {o : Object σ τ}
    (h : s.objects.get? ⟨ns, name⟩ = some o) : o ∈ s.list ns :=
  mem_list.mpr ⟨⟨ns, name⟩, rfl, h⟩

theorem mem_listByLabel {s : Store σ τ} {ns label value : String} {o : Object σ τ} :
    o ∈ s.listByLabel ns label value ↔
      (∃ k, k.nameSpace = ns ∧ s.objects.get? k = some o) ∧
        o.metadata.label? label = some value := by
  simp [listByLabel, mem_list]

/-- In a keyed store a namespace is listed in strictly increasing order of names. -/
theorem pairwise_list {s : Store σ τ} (h : s.Keyed) (ns : String) :
    (s.list ns).Pairwise (fun a b => a.metadata.anyName < b.metadata.anyName) := by
  refine List.pairwise_map.mpr ((s.objects.increasing.filter _).imp_of_mem ?_)
  rintro ⟨k, o⟩ ⟨k', o'⟩ hmem hmem' hlt
  rw [List.mem_filter] at hmem hmem'
  have hk := h k o (SortedMap.get?_eq_some_iff.mpr hmem.1)
  have hk' := h k' o' (SortedMap.get?_eq_some_iff.mpr hmem'.1)
  have hns : k.nameSpace = k'.nameSpace := by
    have h₁ : k.nameSpace = ns := by simpa using hmem.2
    have h₂ : k'.nameSpace = ns := by simpa using hmem'.2
    exact h₁.trans h₂.symm
  rcases hlt with hlt | ⟨-, hlt⟩
  · exact absurd (hns ▸ hlt) (String.lt_irrefl _)
  · change o.key.name < o'.key.name
    rw [hk, hk']
    exact hlt

end Store

end ConfigMerge
