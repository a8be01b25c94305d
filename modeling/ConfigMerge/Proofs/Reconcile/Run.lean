import ConfigMerge.Proofs.Reconcile.Settle

/-!
# Proofs/Reconcile/Run — what one undisturbed pass does

A pass over a stored fragment with a key is done (`run_reconcile`).  It leaves the composites of
that key, and of every key whose composite listed the fragment, as the stored fragments call for,
and the fragment settled; all other composites and fragments, and all that counts of the live ones,
stay as they were (`Reconciled`).
-/

namespace ConfigMerge

variable {φ κ ι : Type}

theorem Family.aggregationKey_eq_ok {F : Family φ κ ι} {f : Fragment φ} {key : String}
    (hlabel : f.metadata.label? F.keyLabel = some key) (hkey : key ≠ "") :
    F.aggregationKey f = .ok key := by
  rw [aggregationKey, hlabel, Option.filter_some_pos (by simpa using hkey)]

theorem Family.of_aggregationKey_eq_ok {F : Family φ κ ι} {f : Fragment φ} {key : String}
    (h : F.aggregationKey f = .ok key) :
    f.metadata.label? F.keyLabel = some key ∧ key ≠ "" := by
  unfold aggregationKey at h
  split at h
  next key' hkey' =>
    obtain rfl : key' = key := Except.ok.inj h
    simpa [Option.filter_eq_some_iff] using hkey'
  next => cases h

theorem Family.aggregationKey_congr (F : Family φ κ ι) {f f' : Fragment φ} (h : f.bare = f'.bare) :
    F.aggregationKey f = F.aggregationKey f' := by
  rw [aggregationKey, aggregationKey, Object.label?_eq_of_bare_eq h]

namespace Collections

variable {ns : String} {s s' : Collections φ κ} {F : Family φ κ ι}

/-- What is right stays right while the composite and the live fragments stay the same. -/
theorem Right.of_sameLive {key : String} (h : Right F ns s key)
    (hsame : Family.SameLive ns s.fragments s'.fragments) (hs : s.fragments.Keyed)
    (hs' : s'.fragments.Keyed) (hat : s'.compositeAt ns key = s.compositeAt ns key) :
    Right F ns s' key := by
  rw [Right, hat]
  exact (hsame.matches_iff F hs hs').mp h

/-- The keys whose composites a pass over a fragment merges: its own, and those that list it. -/
def Concerns (s : Collections φ κ) (ns key : String) (f : Fragment φ) (key' : String) : Prop :=
  key' = key ∨ ∃ uid, f.metadata.uid = some uid ∧ s.Lists ns uid key'

/-- What a pass over the fragment `f` with this name and key makes of `s`. -/
structure Reconciled (F : Family φ κ ι) (ns name key : String) (f : Fragment φ)
    (s s' : Collections φ κ) : Prop where
  tidy : s'.Tidy ns
  right : ∀ key', s.Concerns ns key f key' → Right F ns s' key'
  elsewhere : ∀ key', ¬ s.Concerns ns key f key' → s'.compositeAt ns key' = s.compositeAt ns key'
  sameLive : Family.SameLive ns s.fragments s'.fragments
  otherFragments : ∀ k, k ≠ ⟨ns, name⟩ →
    s'.fragments.objects.get? k = s.fragments.objects.get? k
  gone : s'.fragments.objects.get? ⟨ns, name⟩ = none → f.metadata.isBeingDeleted = true
  settled : ∀ f', s'.fragments.objects.get? ⟨ns, name⟩ = some f' → f'.bare = f.bare ∧ F.Settled f'

variable [DecidableEq κ] (F) (now : Instant)

/-- A pass whose merging part succeeds goes on to write the fragment. -/
theorem run_reconcile_of_merged {name key : String} {f : Fragment φ} {outcome : MergeOutcome}
    (hf : s.fragments.objects.get? ⟨ns, name⟩ = some f) (hkey : F.aggregationKey f = .ok key)
    (hmerge : s.run F now (F.mergeAll ns key f.metadata.uid) = (.ok outcome, s')) :
    s.run F now (F.reconcile now ns name) = s'.run F now (F.recordMerge now f outcome) := by
  have hget : s.run F now (Pass.onFragments (κ := κ) (.get ns name)) = (.ok (some f), s) :=
    run_fragments F now (t := s.fragments) (by rw [Store.perform, hf]) rfl
  unfold Family.reconcile
  rw [run_bind_of_ok hget]
  simp only [hkey]
  rw [run_bind_of_ok (run_liftM_ok F now key), run_bind_of_ok (run_attempt hmerge)]

/-- **A pass over a stored fragment is done**, whatever the composites were. -/
theorem run_reconcile (h : s.Tidy ns) {name key : String} {f : Fragment φ}
    (hf : s.fragments.objects.get? ⟨ns, name⟩ = some f)
    (hlabel : f.metadata.label? F.keyLabel = some key) (hkey : key ≠ "") :
    ∃ report s', s.run F now (F.reconcile now ns name) = (.ok report, s') ∧
      report.disposition = .done ∧ Reconciled F ns name key f s s' := by
  obtain ⟨outcome, s₁, hmerge, hrepairs⟩ := run_mergeAll F now h key f.metadata.uid
  have hf₁ : s₁.fragments.objects.get? ⟨ns, name⟩ = some f := by rw [hrepairs.fragments, hf]
  obtain ⟨report, t, x, hrecord, hdone, hchange, hgone, hsettled⟩ :=
    run_recordMerge F now hrepairs.tidy.fragments hf₁ outcome
  have hkeyed : t.Keyed := hrepairs.tidy.fragments.changes hchange fun f' hf' => by
    rw [Object.key_eq_of_bare_eq (hsettled f' hf').1, h.fragments _ f hf]
  have hsame : Family.SameLive ns s₁.fragments t :=
    .of_changes_bare hchange hf₁ hgone fun f' hf' => (hsettled f' hf').1
  refine ⟨report, { s₁ with fragments := t }, ?_, hdone, ?_⟩
  · rw [run_reconcile_of_merged F now hf (F.aggregationKey_eq_ok hlabel hkey) hmerge, hrecord]
  · exact {
      tidy := ⟨hkeyed, hrepairs.tidy.composites, hrepairs.tidy.unguarded⟩
      right := fun key' hk =>
        (hrepairs.right key' hk).of_sameLive hsame hrepairs.tidy.fragments hkeyed rfl
      elsewhere := hrepairs.elsewhere
      sameLive := hrepairs.fragments ▸ hsame
      otherFragments := fun k hk => by rw [hchange.elsewhere k hk, hrepairs.fragments]
      gone := fun hnone => hgone (hchange.here.symm.trans hnone)
      settled := fun f' hf' => hsettled f' (hchange.here.symm.trans hf') }

/-- A pass over a name at which nothing is stored is done at once. -/
theorem run_reconcile_of_absent {name : String}
    (hf : s.fragments.objects.get? ⟨ns, name⟩ = none) :
    s.run F now (F.reconcile now ns name) = (.ok .gone, s) := by
  have hget : s.run F now (Pass.onFragments (κ := κ) (.get ns name)) = (.ok none, s) :=
    run_fragments F now (t := s.fragments) (by rw [Store.perform, hf]) rfl
  rw [Family.reconcile, run_bind_of_ok hget, run_pure]

end Collections

end ConfigMerge
