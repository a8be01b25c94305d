import ConfigMerge.Proofs.Merge.Repair

/-!
# Proofs/Reconcile/Settle — the part of a pass that writes the fragment itself

After the merging part, a live fragment is left with the operator's finalizer and the fingerprint
of its content, and a deleting one without the finalizer, or not at all.  Nothing that counts for
the composites changes (`run_recordMerge`).
-/

namespace ConfigMerge

variable {σ τ φ κ ι : Type}

/-! ## Fingerprints are texts -/

theorem Sha256.length_hexWord (w : UInt32) : (hexWord w).length = 8 := by
  simp [hexWord]

theorem Sha256.hexDigest_ne_empty (text : String) : hexDigest text ≠ "" := by
  intro h
  have hlist := congrArg (fun t : String => t.toList.length) h
  simp [hexDigest, length_hexWord] at hlist

theorem FragmentStatus.fingerprint?_eq_some {text : String} (h : text ≠ "")
    (synced : Option String) :
    fingerprint? { contentFingerprint := some text, lastSyncedAt := synced } = some text := by
  simp [fingerprint?, h]

/-! ## Finalizers -/

namespace Metadata

variable {m m' : Metadata} {token : String}

/-- No change is called for when the token tells whether the object is being deleted. -/
theorem of_finalizerChange?_eq_none (h : m.finalizerChange? token = none) :
    m.hasFinalizer token = !m.isBeingDeleted := by
  unfold finalizerChange? at h
  cases hdel : m.isBeingDeleted <;> cases hfin : m.hasFinalizer token <;> simp_all

theorem finalizerChange?_eq_none (h : m.hasFinalizer token = !m.isBeingDeleted) :
    m.finalizerChange? token = none := by
  unfold finalizerChange?
  rw [h]
  cases m.isBeingDeleted <;> rfl

/-- A change sets the finalizers alone, and then the token tells. -/
theorem of_finalizerChange?_eq_some (h : m.finalizerChange? token = some m') :
    ∃ fs : List String, m' = { m with finalizers := some fs } ∧
      fs.contains token = !m.isBeingDeleted := by
  unfold finalizerChange? at h
  split at h
  next hdel hfin =>
    obtain rfl := Option.some.inj h
    exact ⟨_, rfl, by simp [hdel]⟩
  next => cases h
  next => cases h
  next hdel hfin =>
    obtain rfl := Option.some.inj h
    exact ⟨_, rfl, by simp [hdel]⟩

end Metadata

namespace Family

variable (F : Family φ κ ι)

/-- A fragment after its own pass: a live one is guarded and its content recorded, a deleting one is
guarded no longer. -/
def Settled (f : Fragment φ) : Prop :=
  f.metadata.hasFinalizer fragmentFinalizer = !f.metadata.isBeingDeleted ∧
    (f.metadata.isBeingDeleted = false → recorded? f = some (F.fingerprint f))

theorem fingerprint_ne_empty (f : Fragment φ) : F.fingerprint f ≠ "" :=
  Sha256.hexDigest_ne_empty _

theorem isChanged_congr {f f' : Fragment φ} (hspec : f.spec = f'.spec)
    (hstatus : f.status = f'.status) : F.isChanged f = F.isChanged f' := by
  rw [isChanged, recorded?, fingerprint, hspec, hstatus]
  rfl

theorem fingerprint_eq_of_bare_eq {f f' : Fragment φ} (h : f.bare = f'.bare) :
    F.fingerprint f = F.fingerprint f' := by
  rw [fingerprint, fingerprint, Object.spec_eq_of_bare_eq h]

section Settled

variable {F} {f g : Fragment φ} (hbare : g.bare = f.bare)
  (htoken : g.metadata.hasFinalizer fragmentFinalizer = !f.metadata.isBeingDeleted)

include hbare htoken

/-- A fragment that tells by its finalizer whether it is being deleted is settled once its content is
recorded… -/
theorem Settled.of_recorded (time version : String) :
    F.Settled (Object.atVersion { g with status := some {
      contentFingerprint := some (F.fingerprint f), lastSyncedAt := some time } } version) := by
  refine ⟨htoken.trans (congrArg _ (Object.isBeingDeleted_eq_of_bare_eq hbare).symm), fun _ => ?_⟩
  have hrecorded := FragmentStatus.fingerprint?_eq_some (F.fingerprint_ne_empty f) (some time)
  exact hrecorded.trans (congrArg some (F.fingerprint_eq_of_bare_eq hbare).symm)

/-- …or if there is none to record. -/
theorem Settled.of_not_due (hstatus : g.status = f.status)
    (hdue : ¬ (!f.metadata.isBeingDeleted && F.isChanged f) = true) : F.Settled g := by
  have hdel := Object.isBeingDeleted_eq_of_bare_eq hbare
  refine ⟨htoken.trans (congrArg _ hdel.symm), fun hlive => ?_⟩
  have hrecorded : recorded? f = some (F.fingerprint f) := by
    simpa [isChanged, hdel ▸ hlive] using hdue
  have hsame : recorded? g = recorded? f := congrArg (·.bind FragmentStatus.fingerprint?) hstatus
  rw [hsame, hrecorded, F.fingerprint_eq_of_bare_eq hbare]

end Settled

variable {F} in
/-- The content of a settled fragment is not to be recorded. -/
theorem Settled.not_due {f : Fragment φ} (h : F.Settled f) :
    (!f.metadata.isBeingDeleted && F.isChanged f) = false := by
  cases hdel : f.metadata.isBeingDeleted with
  | true => rfl
  | false => simp [isChanged, h.2 hdel]

end Family

namespace Collections

variable {s : Collections φ κ} (F : Family φ κ ι) (now : Instant)

/-- Looking at the finalizer writes at most the fragment, and nothing of it that counts.  The result
is what is stored, unless the fragment went. -/
theorem run_reconcileFinalizer (hs : s.fragments.Keyed) {k : ObjectKey} {f : Fragment φ}
    (hf : s.fragments.objects.get? k = some f) :
    ∃ settled t x,
      s.run F now (reconcileFinalizer Pass.updateFragment fragmentFinalizer f) =
        (.ok settled, { s with fragments := t }) ∧
      s.fragments.Changes t k x ∧
      (x = none ∧ f.metadata.isBeingDeleted = true ∨ x = some settled.object) ∧
      settled.object.bare = f.bare ∧ settled.object.status = f.status ∧
      settled.object.metadata.hasFinalizer fragmentFinalizer = !f.metadata.isBeingDeleted := by
  obtain rfl : f.key = k := hs k f hf
  rw [reconcileFinalizer_eq]
  cases hm : f.metadata.finalizerChange? fragmentFinalizer with
  | none =>
    refine ⟨⟨f, false⟩, s.fragments, some f, rfl, ?_, Or.inr rfl, rfl, rfl, ?_⟩
    · exact hf ▸ Store.changes_refl s.fragments f.key
    · exact Metadata.of_finalizerChange?_eq_none hm
  | some m =>
    obtain ⟨fs, rfl, htoken⟩ := Metadata.of_finalizerChange?_eq_some hm
    have hcurrent : s.fragments.current
        { f with metadata := { f.metadata with finalizers := some fs } } = .ok f :=
      Store.current_eq_ok hf rfl
    refine ⟨_, _, _, run_bind_of_ok (run_fragments F now (Store.perform_update now hcurrent) rfl),
      Store.changes_replaced s.fragments _ f, ?_, rfl, rfl, htoken⟩
    split
    next hgone => exact Or.inl ⟨rfl, hgone.1⟩
    next => exact Or.inr rfl

/-- A status write on what is stored changes the status and the version. -/
theorem run_updateStatus {k : ObjectKey} {g : Fragment φ} (hk : g.key = k)
    (hg : s.fragments.objects.get? k = some g) (status : Option FragmentStatus) :
    ∃ t, s.run F now (Pass.onFragments (κ := κ) (.updateStatus { g with status })) =
        (.ok ({ g with status }.atVersion s.fragments.nextVersion), { s with fragments := t }) ∧
      s.fragments.Changes t k (some ({ g with status }.atVersion s.fragments.nextVersion)) := by
  subst hk
  have hcurrent : s.fragments.current { g with status } = .ok g := Store.current_eq_ok hg rfl
  exact ⟨_, run_fragments F now (Store.perform_updateStatus now hcurrent) rfl,
    Store.changes_write s.fragments g.key { g with status }⟩

/-- **Settling a fragment succeeds and ends the pass**: it changes the fragment alone, and nothing
of it that counts. -/
theorem run_recordMerge (hs : s.fragments.Keyed) {k : ObjectKey} {f : Fragment φ}
    (hf : s.fragments.objects.get? k = some f) (outcome : MergeOutcome) :
    ∃ report t x,
      s.run F now (F.recordMerge now f outcome) = (.ok report, { s with fragments := t }) ∧
      report.disposition = .done ∧ s.fragments.Changes t k x ∧
      (x = none → f.metadata.isBeingDeleted = true) ∧
      ∀ f', x = some f' → f'.bare = f.bare ∧ F.Settled f' := by
  obtain ⟨settled, t, x, hrun, hchange, hx, hbare, hstatus, htoken⟩ :=
    run_reconcileFinalizer F now hs hf
  let report : Report :=
    { intent := some (F.intent f), merge := some outcome, finalizerChanged := settled.written }
  unfold Family.recordMerge
  rw [run_bind_of_ok hrun]
  by_cases hw : (!f.metadata.isBeingDeleted && F.isChanged f) = true
  · obtain ⟨hlive, -⟩ : f.metadata.isBeingDeleted = false ∧ F.isChanged f = true := by
      simpa using hw
    obtain rfl : x = some settled.object := hx.resolve_left fun hgone => by simp [hlive] at hgone
    let status : FragmentStatus :=
      { contentFingerprint := some (F.fingerprint f), lastSyncedAt := some (Rfc3339.nanos now) }
    obtain ⟨t', hwrite, hchange'⟩ := run_updateStatus (s := { s with fragments := t }) F now
      ((Object.key_eq_of_bare_eq hbare).trans (hs k f hf)) hchange.here (some status)
    refine ⟨{ report with statusWritten := true }, _, _, ?_, rfl, hchange.trans hchange', ?_, ?_⟩
    · rw [if_pos hw]
      exact run_bind_of_ok hwrite
    · intro hnone
      cases hnone
    · intro f' hf'
      obtain rfl := Option.some.inj hf'
      exact ⟨hbare, .of_recorded hbare htoken _ _⟩
  · refine ⟨report, t, x, ?_, rfl, hchange, fun hnone => ?_, fun f' hf' => ?_⟩
    · rw [if_neg hw, run_pure]
    · exact (hx.resolve_right (by simp [hnone])).2
    · obtain rfl : settled.object = f' := by
        rcases hx with ⟨hnone, -⟩ | hsome
        · rw [hnone] at hf'
          cases hf'
        · exact Option.some.inj (hsome.symm.trans hf')
      exact ⟨hbare, .of_not_due hbare htoken hstatus hw⟩

end Collections

end ConfigMerge
