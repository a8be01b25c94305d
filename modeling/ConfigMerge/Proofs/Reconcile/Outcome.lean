import ConfigMerge.Proofs.Merge.Resume
import ConfigMerge.Proofs.Reconcile.Idle

/-!
# Proofs/Reconcile/Outcome — the states that an undisturbed pass goes through

`Collections.reconciled` is what a pass makes of what is held, as a function.  `Collections.Leads`
says of a program where it ends and that all the states on its way have some property; a pass goes
through the merges of its keys, one after the other, then through the write of the finalizer and then
through that of the status (`Collections.leads_reconcile`).
-/

namespace ConfigMerge

variable {φ κ ι ρ υ : Type}

/-! ## The fragment itself -/

/-- The fragments after the finalizer of one of them was looked at. -/
def Store.guarded (t : Store φ FragmentStatus) (k : ObjectKey) : Store φ FragmentStatus :=
  match t.objects.get? k with
  | none => t
  | some f =>
    match f.metadata.finalizerChange? fragmentFinalizer with
    | none => t
    | some metadata => t.replaced { f with metadata } f

/-- The fragments after the content of one of them was recorded, if that was due. -/
def Store.recorded (F : Family φ κ ι) (now : Instant) (t : Store φ FragmentStatus)
    (k : ObjectKey) : Store φ FragmentStatus :=
  match t.objects.get? k with
  | none => t
  | some f =>
    if !f.metadata.isBeingDeleted && F.isChanged f then
      (t.write k { f with status := some {
        contentFingerprint := some (F.fingerprint f)
        lastSyncedAt := some (Rfc3339.nanos now) } }).2
    else t

namespace Store

variable {F : Family φ κ ι} {t : Store φ FragmentStatus} {k : ObjectKey}

theorem guarded_of_absent (h : t.objects.get? k = none) : t.guarded k = t := by
  rw [guarded, h]

/-- A fragment whose finalizer tells whether it is being deleted is left alone. -/
theorem guarded_of_token
    (h : ∀ f, t.objects.get? k = some f →
      f.metadata.hasFinalizer fragmentFinalizer = !f.metadata.isBeingDeleted) :
    t.guarded k = t := by
  cases hf : t.objects.get? k with
  | none => exact guarded_of_absent hf
  | some f =>
    simp only [guarded, hf, Metadata.finalizerChange?_eq_none (h f hf)]

theorem recorded_of_absent (now : Instant) (h : t.objects.get? k = none) :
    t.recorded F now k = t := by
  rw [recorded, h]

theorem recorded_of_stored (now : Instant) {f : Fragment φ} (h : t.objects.get? k = some f) :
    t.recorded F now k =
      if !f.metadata.isBeingDeleted && F.isChanged f then
        (t.write k { f with status := some {
          contentFingerprint := some (F.fingerprint f)
          lastSyncedAt := some (Rfc3339.nanos now) } }).2
      else t := by
  rw [recorded, h]

/-- A settled fragment is left alone. -/
theorem recorded_guarded_of_settled (now : Instant)
    (h : ∀ f, t.objects.get? k = some f → F.Settled f) :
    (t.guarded k).recorded F now k = t := by
  rw [guarded_of_token fun f hf => (h f hf).1]
  cases hf : t.objects.get? k with
  | none => exact recorded_of_absent now hf
  | some f =>
    rw [recorded_of_stored now hf, (h f hf).not_due]
    rfl

/-- Recordings at two times are alike. -/
theorem alike_recorded (F : Family φ κ ι) (t : Store φ FragmentStatus) (k : ObjectKey)
    (now now' : Instant) : (t.recorded F now k).Alike (t.recorded F now' k) := by
  cases hf : t.objects.get? k with
  | none =>
    rw [recorded_of_absent now hf, recorded_of_absent now' hf]
    exact .refl t
  | some f =>
    rw [recorded_of_stored now hf, recorded_of_stored now' hf]
    split
    · exact (Alike.refl t).write
        (Object.timeless_status_congr f (FragmentStatus.timeless_synced _ _ _))
    · exact .refl t

end Store

/-! ## States on the way -/

namespace Collections

variable (F : Family φ κ ι) (now : Instant)

/-- A program goes only through states that are `Q` and ends with `r` in the state `s'`. -/
def Leads (Q : Collections φ κ → Prop) (r : ρ) (s' : Collections φ κ) :
    Program (PassCall.Answer (φ := φ) (κ := κ)) ρ → Collections φ κ → Prop
  | .done r', s => r' = r ∧ s = s' ∧ Q s
  | .ask q next, s => Q s ∧ Leads Q r s' (next (s.answer F now q).1) (s.answer F now q).2

variable {F now} {Q : Collections φ κ → Prop} {s s' s'' : Collections φ κ}

theorem Leads.bind {p : Program (PassCall.Answer (φ := φ) (κ := κ)) ρ}
    {f : ρ → Program (PassCall.Answer (φ := φ) (κ := κ)) υ} {r : ρ} {r' : υ}
    (h : Leads F now Q r s' p s) (hf : Leads F now Q r' s'' (f r) s') :
    Leads F now Q r' s'' (p >>= f) s := by
  induction p generalizing s with
  | done r₀ =>
    obtain ⟨rfl, rfl, -⟩ := h
    exact hf
  | ask q next ih => exact ⟨h.1, ih _ h.2⟩

/-- A sequence goes through the states of its parts. -/
theorem Leads.bindE {p : Pass φ κ ρ} {f : ρ → Pass φ κ υ} {a : ρ} {r : Except Error υ}
    (h : Leads F now Q (.ok a) s' p.run s) (hf : Leads F now Q r s'' (f a).run s') :
    Leads F now Q r s'' (p >>= f).run s :=
  Leads.bind (f := ExceptT.bindCont f) h hf

theorem Leads.run_eq {p : Pass φ κ ρ} {r : Except Error ρ} (h : Leads F now Q r s' p.run s) :
    s.run F now p = (r, s') := by
  have hprogram : ∀ {p : Program (PassCall.Answer (φ := φ) (κ := κ)) (Except Error ρ)} {s},
      Leads F now Q r s' p s → p.run (answer F now) s = (r, s') := by
    intro p
    induction p with
    | done r₀ =>
      rintro s ⟨rfl, rfl, -⟩
      rfl
    | ask q next ih => exact fun h => ih _ h.2
  exact hprogram h

theorem leads_pure (a : ρ) (hQ : Q s) : Leads F now Q (.ok a) s (pure a : Pass φ κ ρ).run s :=
  ⟨rfl, rfl, hQ⟩

/-- A program that only reads stays where it is. -/
theorem OnlyReads.leads {p : Program (PassCall.Answer (φ := φ) (κ := κ)) ρ} {r : ρ}
    (h : s.OnlyReads F now r p) (hQ : Q s) : Leads F now Q r s p s := by
  induction p with
  | done r₀ => exact ⟨h, rfl, hQ⟩
  | ask q next ih =>
    refine ⟨hQ, ?_⟩
    rw [answer_of_isRead F now s h.1]
    exact ih _ h.2

/-- A call to the fragments that succeeds. -/
theorem leads_fragments {c : Call (Fragment φ)} {a : c.Result} {t : Store φ FragmentStatus}
    (h : s.fragments.perform now c = (.ok a, t))
    (hc : FaultyStore.arrange s.fragmentsReversed c (.ok a) = .ok a) (hQ : Q s)
    (hQ' : Q { s with fragments := t }) :
    Leads F now Q (.ok a) { s with fragments := t } (Pass.onFragments (κ := κ) c).run s := by
  have hrun : s.answer F now (.fragments c) = (.ok a, { s with fragments := t }) :=
    run_fragments F now h hc
  refine ⟨hQ, ?_⟩
  rw [hrun]
  exact ⟨rfl, rfl, hQ'⟩

/-- A call to the composites that succeeds. -/
theorem leads_composites {c : Call (Composite κ)} {a : c.Result} {t : Store κ Empty}
    (h : s.composites.perform now c = (.ok a, t))
    (hc : FaultyStore.arrange s.compositesReversed c (.ok a) = .ok a) (hQ : Q s)
    (hQ' : Q { s with composites := t }) :
    Leads F now Q (.ok a) { s with composites := t } (Pass.onComposites (φ := φ) c).run s := by
  have hrun : s.answer F now (.composites c) = (.ok a, { s with composites := t }) :=
    run_composites F now h hc
  refine ⟨hQ, ?_⟩
  rw [hrun]
  exact ⟨rfl, rfl, hQ'⟩

/-! ## The merging part -/

section Merging

variable [DecidableEq κ] {ns key : String}

/-- What a merge does about the composite that it has read goes from what is held to what the merge
makes of that. -/
theorem leads_mergeOnto (hs : s.composites.Keyed) (l : List (Fragment φ)) (hQ : Q s)
    (hQ' : Q { s with composites := F.mergedInto now ns key l s.composites }) :
    ∃ outcome, Leads F now Q (.ok outcome)
      { s with composites := F.mergedInto now ns key l s.composites }
      (F.mergeOnto key ns l (s.compositeAt ns key)).run s := by
  obtain ⟨hmatch, hnothing⟩ | ⟨c, o, hwrite, honce⟩ :=
    F.mergeOnto_cases key ns l (s.compositeAt ns key)
  · rw [hnothing, F.mergedInto_of_matches now hmatch]
    exact ⟨_, leads_pure _ hQ⟩
  · obtain ⟨a, hperform, harrange⟩ := hwrite.perform hs now
    rw [honce]
    exact ⟨o, (leads_composites hperform (harrange _) hQ hQ').bindE (leads_pure o hQ')⟩

/-- **A merge goes from what it finds to what it makes of that.** -/
theorem leads_merge (hs : s.composites.Keyed) {l : List (Fragment φ)} {t : Store κ Empty}
    (ht : t = F.mergedInto now ns key l s.composites) (hQ : Q s)
    (hQ' : Q { s with composites := t }) :
    ∃ outcome, Leads F now Q (.ok outcome) { s with composites := t }
      (F.merge key ns l).run s := by
  subst ht
  rw [F.merge_eq]
  have hget : s.OnlyReads F now (.ok (s.compositeAt ns key))
      (Pass.onComposites (φ := φ) (.get ns key)).run := onlyReads_composites rfl rfl
  obtain ⟨outcome, h⟩ := leads_mergeOnto hs l hQ hQ'
  exact ⟨outcome, (hget.leads hQ).bindE h⟩

theorem leads_mergeKey (hs : s.Keyed) (hQ : Q s) (hQ' : Q (s.merged F now ns key)) :
    ∃ outcome, Leads F now Q (.ok outcome) (s.merged F now ns key) (F.mergeKey ns key).run s := by
  obtain ⟨l, hlist, hperm⟩ := onlyReads_liveFragments F now s ns key
  have hmerged : F.mergedInto now ns key (F.live s.fragments ns key) s.composites =
      F.mergedInto now ns key l s.composites :=
    F.mergedInto_of_perm now hperm.symm (F.namesDiffer_live hs.fragments ns key)
  obtain ⟨outcome, hmerge⟩ := leads_merge hs.composites hmerged hQ hQ'
  exact ⟨outcome, (hlist.leads hQ).bindE hmerge⟩

/-- Merges of keys, one after the other, go through what the first of them make. -/
theorem leads_mergeEach (hs : s.Keyed) {keys : List String}
    (hQ : ∀ done rest, keys = done ++ rest → Q (s.mergedEach F now ns done)) :
    Leads F now Q (.ok ()) (s.mergedEach F now ns keys) (F.mergeEach ns keys).run s := by
  induction keys generalizing s with
  | nil => exact leads_pure () (hQ [] [] rfl)
  | cons key rest ih =>
    obtain ⟨outcome, hfirst⟩ := leads_mergeKey hs (hQ [] _ rfl) (hQ [key] rest rfl)
    refine hfirst.bindE (ih (hs.merged F now ns key) fun done rest' hrest => ?_)
    exact hQ (key :: done) rest' (congrArg (key :: ·) hrest)

/-- **The merging part of a pass goes through its keys in order.** -/
theorem leads_mergeAll (hs : s.Keyed) {uid : Option String}
    (hQ : ∀ done rest, s.order ns key uid = done ++ rest → Q (s.mergedEach F now ns done)) :
    ∃ outcome, Leads F now Q (.ok outcome) (s.mergedEach F now ns (s.order ns key uid))
      (F.mergeAll ns key uid).run s := by
  have hstart : Q s := hQ [] _ rfl
  have hown : Q (s.merged F now ns key) := hQ [key] _ rfl
  obtain ⟨outcome, hmerge⟩ := leads_mergeKey hs hstart hown
  have hs' := hs.merged F now ns key
  have hstale : (s.merged F now ns key).staleNames ns key uid = s.staleNames ns key uid :=
    staleNames_merged hs uid
  have hrelease : Leads F now Q (.ok ()) (s.mergedEach F now ns (s.order ns key uid))
      (F.releaseStale ns key uid).run (s.merged F now ns key) := by
    cases uid with
    | none => exact leads_pure () hown
    | some u =>
      have hread : (s.merged F now ns key).OnlyReads F now
          (.ok ((s.merged F now ns key).staleNames ns key (some u)))
          (Family.staleKeys ns u key : Pass φ κ _).run := ⟨rfl, rfl⟩
      rw [hstale] at hread
      refine (hread.leads hown).bindE (leads_mergeEach hs' fun done rest hrest => ?_)
      exact hQ (key :: done) rest (congrArg (key :: ·) hrest)
  refine ⟨outcome, hmerge.bindE (hrelease.bindE (leads_pure outcome ?_))⟩
  exact hQ _ [] (List.append_nil _).symm

end Merging

/-! ## The part that writes the fragment -/

variable (F now)

/-- Looking at the finalizer goes from what is held to that with the fragment guarded.  The result
is what is stored then, unless the fragment went. -/
theorem leads_reconcileFinalizer (hs : s.fragments.Keyed) {k : ObjectKey} {f : Fragment φ}
    (hf : s.fragments.objects.get? k = some f) (hQ : Q s)
    (hQ' : Q { s with fragments := s.fragments.guarded k }) :
    ∃ settled x,
      Leads F now Q (.ok settled) { s with fragments := s.fragments.guarded k }
        (reconcileFinalizer Pass.updateFragment fragmentFinalizer f : Pass φ κ _).run s ∧
      s.fragments.Changes (s.fragments.guarded k) k x ∧
      (x = none ∧ f.metadata.isBeingDeleted = true ∨ x = some settled.object) ∧
      settled.object.bare = f.bare ∧ settled.object.status = f.status ∧
      settled.object.metadata.hasFinalizer fragmentFinalizer = !f.metadata.isBeingDeleted := by
  suffices h : ∃ settled, Leads F now Q (.ok settled) { s with fragments := s.fragments.guarded k }
      (reconcileFinalizer Pass.updateFragment fragmentFinalizer f : Pass φ κ _).run s by
    obtain ⟨settled, hleads⟩ := h
    obtain ⟨settled', t, x, hrun, hfacts⟩ := run_reconcileFinalizer F now hs hf
    rw [hleads.run_eq] at hrun
    obtain ⟨rfl, ht⟩ : settled = settled' ∧ s.fragments.guarded k = t := by simpa using hrun
    exact ⟨settled, x, hleads, ht ▸ hfacts⟩
  rw [reconcileFinalizer_eq]
  cases hm : f.metadata.finalizerChange? fragmentFinalizer with
  | none =>
    have hsame : s.fragments.guarded k = s.fragments := by simp only [Store.guarded, hf, hm]
    rw [hsame]
    exact ⟨_, leads_pure _ hQ⟩
  | some m =>
    have hnew : s.fragments.guarded k = s.fragments.replaced { f with metadata := m } f := by
      simp only [Store.guarded, hf, hm]
    rw [hnew] at hQ' ⊢
    obtain ⟨fs, rfl, -⟩ := Metadata.of_finalizerChange?_eq_some hm
    have hcurrent : s.fragments.current
        { f with metadata := { f.metadata with finalizers := some fs } } = .ok f :=
      Store.current_eq_ok ((hs k f hf).symm ▸ hf) rfl
    exact ⟨_, (leads_fragments (Store.perform_update now hcurrent) rfl hQ hQ').bindE
      (leads_pure _ hQ')⟩

/-- **The part of a pass that writes the fragment** goes through the write of the finalizer and that
of the status. -/
theorem leads_recordMerge (hs : s.fragments.Keyed) {k : ObjectKey} {f : Fragment φ}
    (hf : s.fragments.objects.get? k = some f) (outcome : MergeOutcome) (hQ : Q s)
    (hQ' : Q { s with fragments := s.fragments.guarded k })
    (hQ'' : Q { s with fragments := (s.fragments.guarded k).recorded F now k }) :
    ∃ report, Leads F now Q (.ok report)
      { s with fragments := (s.fragments.guarded k).recorded F now k }
      (F.recordMerge now f outcome : Pass φ κ Report).run s := by
  obtain ⟨settled, x, hleads, hchange, hx, hbare, hstatus, -⟩ :=
    leads_reconcileFinalizer F now hs hf hQ hQ'
  have hdue : (!settled.object.metadata.isBeingDeleted && F.isChanged settled.object) =
      (!f.metadata.isBeingDeleted && F.isChanged f) := by
    rw [Object.isBeingDeleted_eq_of_bare_eq hbare,
      F.isChanged_congr (Object.spec_eq_of_bare_eq hbare) hstatus]
  let report : Report :=
    { intent := some (F.intent f), merge := some outcome, finalizerChanged := settled.written }
  unfold Family.recordMerge
  by_cases hw : (!f.metadata.isBeingDeleted && F.isChanged f) = true
  · obtain ⟨hlive, -⟩ : f.metadata.isBeingDeleted = false ∧ F.isChanged f = true := by
      simpa using hw
    have hg : (s.fragments.guarded k).objects.get? k = some settled.object :=
      hchange.here.trans (hx.resolve_left fun hgone => by simp [hlive] at hgone)
    obtain rfl : settled.object.key = k := (Object.key_eq_of_bare_eq hbare).trans (hs k f hf)
    rw [Store.recorded_of_stored now hg, if_pos (hdue.trans hw),
      F.fingerprint_eq_of_bare_eq hbare] at hQ'' ⊢
    have hcurrent : (s.fragments.guarded _).current { settled.object with status := some {
        contentFingerprint := some (F.fingerprint f)
        lastSyncedAt := some (Rfc3339.nanos now) } } = .ok settled.object :=
      Store.current_eq_ok hg rfl
    have hwrite := leads_fragments (F := F) (Store.perform_updateStatus now hcurrent) rfl hQ' hQ''
    refine ⟨{ report with statusWritten := true }, hleads.bindE ?_⟩
    rw [if_pos hw]
    exact hwrite.bindE (leads_pure _ hQ'')
  · have hsame : (s.fragments.guarded k).recorded F now k = s.fragments.guarded k := by
      rcases hx with hgone | hg
      · exact Store.recorded_of_absent now (hchange.here.trans hgone.1)
      · rw [Store.recorded_of_stored now (hchange.here.trans hg), if_neg (hdue ▸ hw)]
    rw [hsame]
    refine ⟨report, hleads.bindE ?_⟩
    rw [if_neg hw]
    exact leads_pure _ hQ'

variable {F} in
/-- It changes the fragment alone, and leaves it settled, with nothing changed that counts. -/
theorem changes_recorded_guarded (hs : s.fragments.Keyed) {k : ObjectKey} {f : Fragment φ}
    (hf : s.fragments.objects.get? k = some f) :
    ∃ x, s.fragments.Changes ((s.fragments.guarded k).recorded F now k) k x ∧
      (x = none → f.metadata.isBeingDeleted = true) ∧
      ∀ f', x = some f' → f'.bare = f.bare ∧ F.Settled f' := by
  obtain ⟨report, hleads⟩ :=
    leads_recordMerge F now (Q := fun _ => True) hs hf .unchanged trivial trivial trivial
  obtain ⟨report', t, x, hrun, -, hfacts⟩ := run_recordMerge F now hs hf .unchanged
  rw [hleads.run_eq] at hrun
  obtain ⟨-, rfl⟩ : report = report' ∧ _ = t := by simpa using hrun
  exact ⟨x, hfacts⟩

/-! ## A whole pass -/

section Reconcile

variable [DecidableEq κ]

/-- What a pass over the fragment of a name makes of the collections. -/
def reconciled (ns name : String) (s : Collections φ κ) : Collections φ κ :=
  match s.fragments.objects.get? ⟨ns, name⟩ with
  | none => s
  | some f =>
    match F.aggregationKey f with
    | .error _ => s
    | .ok key =>
      { s.mergedEach F now ns (s.order ns key f.metadata.uid) with
        fragments := (s.fragments.guarded ⟨ns, name⟩).recorded F now ⟨ns, name⟩ }

variable {ns name key : String} {f : Fragment φ}

theorem reconciled_of_absent (hf : s.fragments.objects.get? ⟨ns, name⟩ = none) :
    s.reconciled F now ns name = s := by
  rw [reconciled, hf]

theorem reconciled_of_error {e : Error} (hf : s.fragments.objects.get? ⟨ns, name⟩ = some f)
    (hkey : F.aggregationKey f = .error e) : s.reconciled F now ns name = s := by
  simp only [reconciled, hf, hkey]

theorem reconciled_of_key (hf : s.fragments.objects.get? ⟨ns, name⟩ = some f)
    (hkey : F.aggregationKey f = .ok key) :
    s.reconciled F now ns name =
      { s.mergedEach F now ns (s.order ns key f.metadata.uid) with
        fragments := (s.fragments.guarded ⟨ns, name⟩).recorded F now ⟨ns, name⟩ } := by
  simp only [reconciled, hf, hkey]

/-- **An undisturbed pass ends with what `reconciled` says**, and on its way merges its keys in
order, guards the fragment and records its content. -/
theorem leads_reconcile (hs : s.Keyed) (hQ : Q s)
    (hway : ∀ f key, s.fragments.objects.get? ⟨ns, name⟩ = some f → F.aggregationKey f = .ok key →
      (∀ done rest, s.order ns key f.metadata.uid = done ++ rest → Q (s.mergedEach F now ns done)) ∧
      Q { s.mergedEach F now ns (s.order ns key f.metadata.uid) with
        fragments := s.fragments.guarded ⟨ns, name⟩ } ∧
      Q { s.mergedEach F now ns (s.order ns key f.metadata.uid) with
        fragments := (s.fragments.guarded ⟨ns, name⟩).recorded F now ⟨ns, name⟩ }) :
    ∃ r, Leads F now Q r (s.reconciled F now ns name) (F.reconcile now ns name).run s := by
  unfold Family.reconcile
  cases hf : s.fragments.objects.get? ⟨ns, name⟩ with
  | none =>
    have hget : s.OnlyReads F now (.ok none) (Pass.onFragments (κ := κ) (.get ns name)).run :=
      onlyReads_fragments rfl (congrArg Except.ok hf)
    rw [reconciled_of_absent F now hf]
    exact ⟨_, (hget.leads hQ).bindE (leads_pure _ hQ)⟩
  | some f =>
    have hget : s.OnlyReads F now (.ok (some f))
        (Pass.onFragments (κ := κ) (.get ns name)).run :=
      onlyReads_fragments rfl (congrArg Except.ok hf)
    cases hkey : F.aggregationKey f with
    | error e =>
      rw [reconciled_of_error F now hf hkey]
      refine ⟨.error e, (hget.leads hQ).bindE ?_⟩
      simp only [hkey]
      exact ⟨rfl, rfl, hQ⟩
    | ok key =>
      obtain ⟨hmerging, hguarded, hrecorded⟩ := hway f key hf hkey
      obtain ⟨outcome, hmerge⟩ := leads_mergeAll hs hmerging
      have hend := hmerging _ [] (List.append_nil _).symm
      rw [reconciled_of_key F now hf hkey]
      -- the merges have left the fragments alone
      generalize hm : s.mergedEach F now ns (s.order ns key f.metadata.uid) = m at *
      have hfragments : m.fragments = s.fragments := hm ▸ mergedEach_fragments s _
      rw [← hfragments] at hf hguarded hrecorded ⊢
      obtain ⟨report, hrecord⟩ :=
        leads_recordMerge F now (hfragments ▸ hs.fragments) hf outcome hend hguarded hrecorded
      refine ⟨.ok report, (hget.leads hQ).bindE ?_⟩
      simp only [hkey]
      change Leads F now Q _ _ ((F.mergeAll ns key f.metadata.uid).attempt >>= _).run s
      rw [Pass.run_attempt_bind]
      exact hmerge.bind hrecord

end Reconcile

end Collections

end ConfigMerge
