import ConfigMerge.Proofs.Merge.Live
import ConfigMerge.Proofs.Merge.Single
import ConfigMerge.Proofs.Store.Collections

/-!
# Proofs/Merge/Repair — the merging part of a pass makes composites right and touches no others

On stores that refuse nothing, a merge leaves its key with the composite that its fragments call for
(`run_merge`).  `Repairs ks s s'` is what merges over the keys `ks` amount to: those keys are right
afterwards, and all else is as before (`run_mergeAll`).
-/

namespace ConfigMerge

variable {φ κ ι : Type}

namespace Collections

variable {ns : String} {s s' s'' : Collections φ κ}

/-- What is stored as the composite of a key. -/
def compositeAt (s : Collections φ κ) (ns key : String) : Option (Composite κ) :=
  s.composites.objects.get? ⟨ns, key⟩

/-- Everything is stored under its own key, and no composite of the namespace is held back when it
is deleted. -/
structure Tidy (ns : String) (s : Collections φ κ) : Prop where
  fragments : s.fragments.Keyed
  composites : s.composites.Keyed
  unguarded : ∀ key c, s.compositeAt ns key = some c →
    c.metadata.finalizerList = [] ∧ c.metadata.isBeingDeleted = false

theorem Tidy.of_list (hfragments : s.fragments.Keyed) (hcomposites : s.composites.Keyed)
    (h : ∀ c ∈ s.composites.list ns,
      c.metadata.finalizerList = [] ∧ c.metadata.isBeingDeleted = false) : s.Tidy ns :=
  ⟨hfragments, hcomposites, fun _ c hc => h c (Store.mem_list_of_get? hc)⟩

/-- The composite of a key is the one that the stored fragments call for. -/
def Right (F : Family φ κ ι) (ns : String) (s : Collections φ κ) (key : String) : Prop :=
  F.Matches key ns (F.live s.fragments ns key) (s.compositeAt ns key)

/-- The composites of the keys `ks` are right in `s'`, and all else is as in `s`. -/
structure Repairs (F : Family φ κ ι) (ns : String) (ks : String → Prop)
    (s s' : Collections φ κ) : Prop where
  tidy : s'.Tidy ns
  fragments : s'.fragments = s.fragments
  fragmentsReversed : s'.fragmentsReversed = s.fragmentsReversed
  right : ∀ key, ks key → Right F ns s' key
  elsewhere : ∀ key, ¬ ks key → s'.compositeAt ns key = s.compositeAt ns key

variable {F : Family φ κ ι} {ks ks' : String → Prop}

theorem Repairs.refl (h : s.Tidy ns) : Repairs F ns (fun _ => False) s s where
  tidy := h
  fragments := rfl
  fragmentsReversed := rfl
  right _ hk := hk.elim
  elsewhere _ _ := rfl

/-- Repairs add up: a key that is right stays so unless it is repaired again. -/
theorem Repairs.trans (h : Repairs F ns ks s s') (h' : Repairs F ns ks' s' s'') :
    Repairs F ns (fun key => ks key ∨ ks' key) s s'' where
  tidy := h'.tidy
  fragments := h'.fragments.trans h.fragments
  fragmentsReversed := h'.fragmentsReversed.trans h.fragmentsReversed
  right key hk := by
    by_cases hk' : ks' key
    · exact h'.right key hk'
    · have hright := h.right key (hk.resolve_right hk')
      rw [Right, h'.fragments, h'.elsewhere key hk']
      exact hright
  elsewhere key hk := by
    rw [not_or] at hk
    exact (h'.elsewhere key hk.2).trans (h.elsewhere key hk.1)

theorem Repairs.congr (h : Repairs F ns ks s s') (hks : ∀ key, ks key ↔ ks' key) :
    Repairs F ns ks' s s' := by
  obtain rfl : ks = ks' := funext fun key => propext (hks key)
  exact h

/-- A change of the composite of one key keeps composites tidy when the new one is. -/
theorem Tidy.of_changes (h : s.Tidy ns) {t : Store κ Empty} {key : String}
    {x : Option (Composite κ)} (hc : s.composites.Changes t ⟨ns, key⟩ x)
    (hx : ∀ c, x = some c → c.key = ⟨ns, key⟩ ∧ c.metadata.finalizerList = [] ∧
      c.metadata.isBeingDeleted = false) :
    Tidy ns { s with composites := t } where
  fragments := h.fragments
  composites := h.composites.changes hc fun c hcx => (hx c hcx).1
  unguarded key' c hget := by
    by_cases hk : key' = key
    · subst hk
      exact (hx c (hc.here.symm.trans hget)).2
    · refine h.unguarded key' c ((hc.elsewhere _ ?_).symm.trans hget)
      simpa using hk

end Collections

/-! ## One merge -/

namespace Collections

variable [DecidableEq κ] {ns : String} {s : Collections φ κ} (F : Family φ κ ι) (now : Instant)

/-- A merge makes of the composites what it makes of their store. -/
theorem run_mergedInto (h : s.composites.Keyed) (key : String) (l : List (Fragment φ)) :
    ∃ outcome, s.run F now (F.merge key ns l) =
      (.ok outcome, { s with composites := F.mergedInto now ns key l s.composites }) := by
  have hget : s.run F now (Pass.onComposites (φ := φ) (.get ns key)) =
      (.ok (s.compositeAt ns key), s) := rfl
  rw [F.merge_eq, run_bind_of_ok hget]
  obtain ⟨hmatch, hnothing⟩ | ⟨c, o, hwrite, honce⟩ :=
    F.mergeOnto_cases key ns l (s.compositeAt ns key)
  · rw [hnothing, F.mergedInto_of_matches now hmatch]
    exact ⟨_, run_pure F now _⟩
  · obtain ⟨a, hperform, harrange⟩ := hwrite.perform h now
    rw [honce, run_bind_of_ok (run_composites F now hperform (harrange _))]
    exact ⟨o, run_pure F now _⟩

/-- **A merge leaves the composite that its fragments call for**, by at most one write to its
key. -/
theorem run_merge (h : s.Tidy ns) (key : String) (l : List (Fragment φ)) :
    ∃ outcome t, ∃ x : Option (Composite κ),
      s.run F now (F.merge key ns l) = (.ok outcome, { s with composites := t }) ∧
      s.composites.Changes t ⟨ns, key⟩ x ∧ F.Matches key ns l x ∧
      ∀ c, x = some c → c.key = ⟨ns, key⟩ ∧ c.metadata.finalizerList = [] ∧
        c.metadata.isBeingDeleted = false := by
  obtain ⟨outcome, hrun⟩ := run_mergedInto F now h.composites key l
  obtain ⟨hmatch, hfree⟩ :=
    F.matches_mergedAt now s.composites.nextVersion ns key l (h.unguarded key)
  exact ⟨outcome, _, _, hrun, F.changes_mergedInto now ns key l h.composites, hmatch,
    fun c hc => ⟨F.key_of_mergedAt (fun c hc => h.composites _ c hc) hc, hfree c hc⟩⟩

/-! ## All merges of a pass -/

omit [DecidableEq κ] in
/-- The live fragments of a key as a pass sees them: in the order of the listing. -/
theorem run_liveFragments (s : Collections φ κ) (ns key : String) :
    ∃ l, s.run F now (F.liveFragments ns key) = (.ok l, s) ∧
      l.Perm (F.live s.fragments ns key) := by
  have hlist : s.run F now (Pass.onFragments (κ := κ) (.listByLabel ns F.keyLabel key)) =
      (.ok (if s.fragmentsReversed then (s.fragments.listByLabel ns F.keyLabel key).reverse
        else s.fragments.listByLabel ns F.keyLabel key), s) := rfl
  refine ⟨_, run_bind_of_ok hlist, List.Perm.filter _ ?_⟩
  split
  · exact List.reverse_perm _
  · exact .refl _

/-- **The composite of a key is right after it was merged.** -/
theorem run_mergeKey (h : s.Tidy ns) (key : String) :
    ∃ outcome s', s.run F now (F.mergeKey ns key) = (.ok outcome, s') ∧
      Repairs F ns (· = key) s s' := by
  obtain ⟨l, hlist, hperm⟩ := run_liveFragments F now s ns key
  obtain ⟨outcome, t, x, hrun, hchange, hmatch, hx⟩ := run_merge F now h key l
  refine ⟨outcome, { s with composites := t }, ?_, ?_⟩
  · rw [Family.mergeKey, run_bind_of_ok hlist, hrun]
  · refine ⟨h.of_changes hchange hx, rfl, rfl, ?_, fun key' hne => hchange.elsewhere _ ?_⟩
    · rintro key' rfl
      have hat : compositeAt { s with composites := t } ns key' = x := hchange.here
      rw [Right, hat]
      exact hmatch.of_perm hperm (hperm.symm.pairwise (F.namesDiffer_live h.fragments ns key')
        Ne.symm)
    · simpa using hne

theorem run_mergeEach (h : s.Tidy ns) (keys : List String) :
    ∃ s', s.run F now (F.mergeEach ns keys) = (.ok (), s') ∧
      Repairs F ns (· ∈ keys) s s' := by
  induction keys generalizing s with
  | nil => exact ⟨s, rfl, (Repairs.refl h).congr fun key => by simp⟩
  | cons key rest ih =>
    obtain ⟨outcome, s₁, hfirst, hright⟩ := run_mergeKey F now h key
    obtain ⟨s₂, hrest, hrights⟩ := ih hright.tidy
    refine ⟨s₂, ?_, (hright.trans hrights).congr fun key' => List.mem_cons.symm⟩
    rw [Family.mergeEach, run_bind_of_ok hfirst, hrest]

/-- A composite of the namespace lists the uid among its owners. -/
def Lists (s : Collections φ κ) (ns uid key : String) : Prop :=
  ∃ c, s.compositeAt ns key = some c ∧ ∃ o ∈ c.metadata.owners, o.uid = uid

omit [DecidableEq κ] in
theorem run_staleKeys (ns : String) (h : s.composites.Keyed) (uid key : String) :
    ∃ keys, s.run F now (Family.staleKeys ns uid key) = (.ok keys, s) ∧
      ∀ key', key' ∈ keys ↔ key' ≠ key ∧ s.Lists ns uid key' := by
  have hlist : s.run F now (Pass.onComposites (φ := φ) (.list ns)) =
      (.ok (s.composites.list ns), s) := rfl
  refine ⟨_, run_bind_of_ok hlist, fun key' => ?_⟩
  simp only [List.mem_map, List.mem_filter, Bool.and_eq_true, decide_eq_true_eq, List.any_eq_true,
    Store.mem_list]
  constructor
  · rintro ⟨c, ⟨⟨k, rfl, hget⟩, hne, howner⟩, rfl⟩
    have hk : c.key = k := h k c hget
    subst hk
    exact ⟨hne, c, hget, howner⟩
  · rintro ⟨hne, c, hget, howner⟩
    have hname : c.metadata.anyName = key' := congrArg ObjectKey.name (h _ c hget)
    exact ⟨c, ⟨⟨_, rfl, hget⟩, hname ▸ hne, howner⟩, hname⟩

theorem run_releaseStale (h : s.Tidy ns) (key : String) (uid : Option String) :
    ∃ s', s.run F now (F.releaseStale ns key uid) = (.ok (), s') ∧
      Repairs F ns (fun key' => key' ≠ key ∧ ∃ u, uid = some u ∧ s.Lists ns u key') s s' := by
  cases uid with
  | none => exact ⟨s, rfl, (Repairs.refl h).congr fun key' => by simp⟩
  | some u =>
    obtain ⟨keys, hstale, hkeys⟩ := run_staleKeys F now ns h.composites u key
    obtain ⟨s', hmerge, hright⟩ := run_mergeEach F now h keys
    refine ⟨s', ?_, hright.congr fun key' => by simp [hkeys]⟩
    rw [Family.releaseStale, run_bind_of_ok hstale, hmerge]

/-- **The merging part of a pass repairs exactly the fragment's own key and those that list it.** -/
theorem run_mergeAll (h : s.Tidy ns) (key : String) (uid : Option String) :
    ∃ outcome s', s.run F now (F.mergeAll ns key uid) = (.ok outcome, s') ∧
      Repairs F ns (fun key' => key' = key ∨ ∃ u, uid = some u ∧ s.Lists ns u key') s s' := by
  obtain ⟨outcome, s₁, hown, hright⟩ := run_mergeKey F now h key
  obtain ⟨s₂, hstale, hrights⟩ := run_releaseStale F now hright.tidy key uid
  refine ⟨outcome, s₂, ?_, (hright.trans hrights).congr fun key' => ?_⟩
  · rw [Family.mergeAll, run_bind_of_ok hown, run_bind_of_ok hstale, run_pure]
  · by_cases hk : key' = key
    · simp [hk]
    · -- away from the own key the composites are those that the pass found
      simp only [hk, false_or, ne_eq, not_false_eq_true, true_and, Lists, hright.elsewhere key' hk]

end Collections

end ConfigMerge
