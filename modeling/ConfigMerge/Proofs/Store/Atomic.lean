import ConfigMerge.Proofs.Store.Collections

/-!
# Proofs/Store/Atomic — a write is made as a whole or not at all

A call asks something of what is stored in its place (`Store.Permits`).  When it gets that it is
carried out (`Store.Carries`): nothing changes but that place, and what replaces an object has its
uid and its times from that object.  When it does not, no object changes and no version is given
out.

Only a planned refusal can keep a permitted call from being carried out, and it leaves as little
behind (`FaultyStore.perform_all_or_nothing`).
-/

namespace ConfigMerge

variable {σ τ : Type}

/-! ## Replacements -/

namespace Object

/-- `o'` is what comes of `stored` when `o` replaces it: the uid and the times are those of
`stored`, whatever `o` says, and all else but the version is that of `o`. -/
structure Supersedes (o stored o' : Object σ τ) : Prop where
  uid : o'.metadata.uid = stored.metadata.uid
  creation : o'.metadata.creationTimestamp = stored.metadata.creationTimestamp
  deletion : o'.metadata.deletionTimestamp = stored.metadata.deletionTimestamp
  rest : o' = o.modifyMetadata ({ · with
    uid := o'.metadata.uid
    creationTimestamp := o'.metadata.creationTimestamp
    deletionTimestamp := o'.metadata.deletionTimestamp
    resourceVersion := o'.metadata.resourceVersion })

theorem supersedes_inPlaceOf (o stored : Object σ τ) (version : String) :
    o.Supersedes stored ((o.inPlaceOf stored).atVersion version) := ⟨rfl, rfl, rfl, rfl⟩

/-- The mark of what is stored and the finalizers of what replaces it decide whether it goes. -/
theorem isGone_inPlaceOf_iff {o stored : Object σ τ} :
    (o.inPlaceOf stored).IsGone ↔
      stored.metadata.isBeingDeleted ∧ o.metadata.finalizerList = [] :=
  and_congr Iff.rfl List.isEmpty_iff

end Object

namespace Store

variable {s s' : Store σ τ} {k : ObjectKey} {o stored : Object σ τ} {now : Instant}

/-! ## What a call asks for -/

/-- `stored` stands in the place of `o`, and `o` carries its version or none. -/
structure Meets (s : Store σ τ) (o stored : Object σ τ) : Prop where
  here : s.objects.get? o.key = some stored
  version : o.metadata.resourceVersion = none ∨
    o.metadata.resourceVersion = stored.metadata.resourceVersion

/-- What a call asks of a store.

* One that only reads asks for nothing.
* A creation asks for a free place.
* Any other write asks for an object in its place, of the version that it carries if it carries one.
-/
def Permits (s : Store σ τ) : Call (Object σ τ) → Prop
  | .get .. | .list _ | .listByLabel .. => True
  | .create o => s.objects.get? o.key = none
  | .update o | .updateStatus o | .delete o => ∃ stored, s.Meets o stored

theorem current_eq_ok_iff : s.current o = .ok stored ↔ s.Meets o stored := by
  constructor
  · intro h
    obtain ⟨hget, hcheck⟩ := of_current_eq_ok h
    refine ⟨hget, ?_⟩
    cases hv : o.metadata.resourceVersion with
    | none => exact Or.inl rfl
    | some v => exact Or.inr (hv ▸ hcheck (by rw [hv, Option.isSome_some]))
  · rintro ⟨hget, hversion⟩
    unfold current
    rw [hget]
    refine if_neg ?_
    rintro ⟨hcarried, hother⟩
    rcases hversion with hnone | hsame
    · rw [hnone] at hcarried
      cases hcarried
    · exact hother hsame

theorem exists_refusal_of_not_meets (h : ¬ ∃ stored, s.Meets o stored) :
    ∃ e, s.current o = .error e := by
  cases hc : s.current o with
  | error e => exact ⟨e, rfl⟩
  | ok stored => exact absurd ⟨stored, current_eq_ok_iff.mp hc⟩ h

/-! ## What a call does -/

/-- `s'` is `s` after the next version was given out: `o` carries it, and `x` is stored under `k`. -/
structure Issues (s s' : Store σ τ) (k : ObjectKey) (o : Object σ τ) (x : Option (Object σ τ)) :
    Prop extends Changes s s' k x where
  version : s'.version = s.version + 1
  carried : o.metadata.resourceVersion = some (toString s'.version)

theorem issues_write (s : Store σ τ) (k : ObjectKey) (o : Object σ τ) :
    s.Issues (s.write k o).2 k (o.atVersion s.nextVersion) (some (o.atVersion s.nextVersion)) :=
  ⟨changes_write s k o, rfl, rfl⟩

theorem issues_replaced (s : Store σ τ) (o stored : Object σ τ) :
    s.Issues (s.replaced o stored) o.key ((o.inPlaceOf stored).atVersion s.nextVersion)
      (if stored.metadata.isBeingDeleted ∧ o.metadata.finalizerList = [] then none
        else some ((o.inPlaceOf stored).atVersion s.nextVersion)) := by
  -- A version is given out even when the object goes.
  have hversion : (s.replaced o stored).version = s.version + 1 := by
    unfold replaced
    split <;> rfl
  have hchanges := changes_replaced s o stored
  simp only [Object.isGone_inPlaceOf_iff] at hchanges
  exact ⟨hchanges, hversion, by rw [hversion]; rfl⟩

/-- `s'` is `s` after the deletion of `stored` under `k` was requested.

* Without finalizers it goes.
* With finalizers it is marked, if it was not.
* No later call for its deletion does anything about it. -/
structure Withdraws (s s' : Store σ τ) (k : ObjectKey) (stored : Object σ τ) : Prop where
  dropped : stored.metadata.finalizerList = [] → s.Changes s' k none ∧ s'.version = s.version
  marked : stored.metadata.finalizerList ≠ [] → stored.metadata.isBeingDeleted = false →
    ∃ o', stored.HeldBack o' ∧ s.Issues s' k o' (some o')
  kept : stored.metadata.finalizerList ≠ [] → stored.metadata.isBeingDeleted = true → s' = s
  once : stored.metadata.finalizerList ≠ [] →
    ∀ now o, o.key = k → (s'.perform now (.delete o)).2 = s'

/-- A call for the deletion of what is marked and held back does nothing. -/
theorem perform_delete_of_marked (now : Instant) (h : s.objects.get? o.key = some stored)
    (hheld : stored.metadata.finalizerList ≠ []) (hmarked : stored.metadata.isBeingDeleted) :
    (s.perform now (.delete o)).2 = s := by
  cases hc : s.current o with
  | error e => rw [perform_delete_refused now hc]
  | ok found => rw [perform_delete now hc, requestDeletion_of_guarded now h hheld, if_pos hmarked]

/-- **A deletion request marks at most once.** -/
theorem withdraws_requestDeletion (now : Instant) (h : s.objects.get? k = some stored) :
    s.Withdraws (s.requestDeletion now k) k stored where
  dropped hfree := by
    rw [requestDeletion_of_unguarded now h hfree]
    exact ⟨changes_erase s k, rfl⟩
  marked hheld hlive := by
    have hunmarked : ¬ stored.metadata.isBeingDeleted := Bool.eq_false_iff.mp hlive
    have hwithdrawn : stored.withdrawn now s.nextVersion =
        some ((stored.marked now).atVersion s.nextVersion) := by
      rw [Object.withdrawn, if_neg hheld, if_neg hunmarked]
    rw [requestDeletion_of_guarded now h hheld, if_neg hunmarked]
    exact ⟨_, .of_withdrawn hwithdrawn, issues_write s k _⟩
  kept hheld hmarked := by rw [requestDeletion_of_guarded now h hheld, if_pos hmarked]
  once hheld now' o ho := by
    subst ho
    obtain ⟨o', ho', hback⟩ := Object.exists_withdrawn now s.nextVersion hheld
    have hstored := (changes_requestDeletion now h).here.trans ho'
    exact perform_delete_of_marked now' hstored (hback.finalizerList ▸ hheld) hback.marked

/-- What a call that is carried out makes of `s`, by what it answers.

* One that only reads changes nothing.
* A creation stores the new object, which it answers.
* An update stores what supersedes the stored object, or drops it when that was marked and no
  finalizer is left.
* A status update leaves the metadata but for the version.
* A deletion withdraws what is stored. -/
def Carries (s : Store σ τ) (now : Instant) :
    (c : Call (Object σ τ)) → c.Result → Store σ τ → Prop
  | .get .., _, s' => s' = s
  | .list _, _, s' => s' = s
  | .listByLabel .., _, s' => s' = s
  | .create o, a, s' => a = o.asNew now s.nextVersion ∧ s.Issues s' o.key a (some a)
  | .update o, a, s' => ∃ stored, s.Meets o stored ∧ o.Supersedes stored a ∧
      s.Issues s' o.key a
        (if stored.metadata.isBeingDeleted ∧ o.metadata.finalizerList = [] then none else some a)
  | .updateStatus o, a, s' => ∃ stored, s.Meets o stored ∧
      a = { o with metadata :=
        { stored.metadata with resourceVersion := a.metadata.resourceVersion } } ∧
      s.Issues s' o.key a (some a)
  | .delete o, _, s' => ∃ stored, s.Meets o stored ∧ s.Withdraws s' o.key stored

/-- **What is permitted is carried out.** -/
theorem carries_perform (now : Instant) {c : Call (Object σ τ)} (h : s.Permits c) :
    ∃ a, (s.perform now c).1 = .ok a ∧ s.Carries now c a (s.perform now c).2 := by
  cases c with
  | get nameSpace name => exact ⟨_, rfl, rfl⟩
  | list nameSpace => exact ⟨_, rfl, rfl⟩
  | listByLabel nameSpace label value => exact ⟨_, rfl, rfl⟩
  | create o =>
    rw [perform_create now h]
    exact ⟨_, rfl, rfl, issues_write s o.key _⟩
  | update o =>
    obtain ⟨stored, hmeets⟩ := h
    rw [perform_update now (current_eq_ok_iff.mpr hmeets)]
    exact ⟨_, rfl, stored, hmeets, o.supersedes_inPlaceOf stored _, issues_replaced s o stored⟩
  | updateStatus o =>
    obtain ⟨stored, hmeets⟩ := h
    rw [perform_updateStatus now (current_eq_ok_iff.mpr hmeets)]
    exact ⟨_, rfl, stored, hmeets, rfl, issues_write s o.key _⟩
  | delete o =>
    obtain ⟨stored, hmeets⟩ := h
    rw [perform_delete now (current_eq_ok_iff.mpr hmeets)]
    exact ⟨_, rfl, stored, hmeets, withdraws_requestDeletion now hmeets.here⟩

/-- …and what is not is refused. -/
theorem refuses_perform (now : Instant) {c : Call (Object σ τ)} (h : ¬ s.Permits c) :
    ∃ e, (s.perform now c).1 = .error e := by
  cases c with
  | get | list | listByLabel => exact absurd trivial h
  | create o =>
    obtain ⟨stored, hstored⟩ := Option.ne_none_iff_exists'.mp h
    rw [perform_create_refused now hstored]
    exact ⟨_, rfl⟩
  | update o =>
    obtain ⟨e, he⟩ := exists_refusal_of_not_meets h
    rw [perform_update_refused now he]
    exact ⟨e, rfl⟩
  | updateStatus o =>
    obtain ⟨e, he⟩ := exists_refusal_of_not_meets h
    rw [perform_updateStatus_refused now he]
    exact ⟨e, rfl⟩
  | delete o =>
    obtain ⟨e, he⟩ := exists_refusal_of_not_meets h
    rw [perform_delete_refused now he]
    exact ⟨e, rfl⟩

end Store

/-! ## Stores that may refuse -/

namespace FaultyStore

variable {s : FaultyStore σ τ} {c : Call (Object σ τ)}

theorem carries_perform (now : Instant) (hr : s.refusals c.verb = []) (h : s.store.Permits c) :
    ∃ a, (s.perform now c).1 = .ok a ∧ s.store.Carries now c a (s.perform now c).2.store := by
  obtain ⟨a, ha, hcarries⟩ := s.store.carries_perform now h
  rw [perform_of_unplanned now hr, ha]
  -- What is arranged is the answer of a listing alone, and `Carries` says nothing about that.
  cases c <;> exact ⟨_, rfl, hcarries⟩

theorem refuses_perform (now : Instant) (h : ¬ (s.refusals c.verb = [] ∧ s.store.Permits c)) :
    ∃ e, (s.perform now c).1 = .error e := by
  cases hr : s.refusals c.verb with
  | cons r rest =>
    rw [perform_of_planned now hr]
    exact ⟨r, rfl⟩
  | nil =>
    obtain ⟨e, he⟩ := s.store.refuses_perform now fun hpermits => h ⟨hr, hpermits⟩
    rw [perform_of_unplanned now hr, he]
    cases c <;> exact ⟨e, rfl⟩

/-- **A call is carried out as a whole or leaves no trace.**  It succeeds exactly when no refusal is
planned for it and the store permits it.  After an error the objects and the count of versions are
as they were; after a success the call has done in its own place what it is to do, and nothing
elsewhere.  No store is left out: the objects may have any names, with versions or without. -/
theorem perform_all_or_nothing (s : FaultyStore σ τ) (now : Instant) (c : Call (Object σ τ)) :
    ((∃ a, (s.perform now c).1 = .ok a) ↔ s.refusals c.verb = [] ∧ s.store.Permits c) ∧
      (∀ e, (s.perform now c).1 = .error e → (s.perform now c).2.store = s.store) ∧
      ∀ a, (s.perform now c).1 = .ok a →
        s.store.Carries now c a (s.perform now c).2.store := by
  have hnothing : ∀ e, (s.perform now c).1 = .error e → (s.perform now c).2.store = s.store :=
    fun _ he => (perform_of_error he).1
  by_cases h : s.refusals c.verb = [] ∧ s.store.Permits c
  · obtain ⟨a, ha, hcarries⟩ := carries_perform now h.1 h.2
    refine ⟨iff_of_true ⟨a, ha⟩ h, hnothing, fun a' ha' => ?_⟩
    obtain rfl : a = a' := Except.ok.inj (ha.symm.trans ha')
    exact hcarries
  · obtain ⟨e, he⟩ := refuses_perform now h
    have hfails : ∀ a, (s.perform now c).1 ≠ .ok a := fun a ha => nomatch he.symm.trans ha
    exact ⟨iff_of_false (fun ⟨a, ha⟩ => hfails a ha) h, hnothing,
      fun a ha => absurd ha (hfails a)⟩

end FaultyStore

end ConfigMerge
