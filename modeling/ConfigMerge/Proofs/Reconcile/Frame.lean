import ConfigMerge.Proofs.Reconcile.Outcome

/-!
# Proofs/Reconcile/Frame — what a pass leaves as it was, wherever it ends

The states on the way of a pass differ from the first one in the fragment of the name and in the
composites that this is concerned with, and there only in what a pass is to write
(`Collections.Spares`).  An error in answer to a call ends a pass in one of these states, so the same
holds of what is stored after a pass that met any refusals, whatever it returned
(`Stores.reconcile_spares`).
-/

namespace ConfigMerge

variable {φ κ ι ρ : Type}

/-! ## Metadata -/

namespace Metadata

/-- The finalizers that are not the operator's, in order. -/
def foreignFinalizers (m : Metadata) : List String :=
  m.finalizerList.filter (· ≠ fragmentFinalizer)

/-- The metadata without finalizers and version, which a pass may write to a fragment. -/
def exceptFinalizers (m : Metadata) : Metadata :=
  { m with finalizers := none, resourceVersion := none }

/-- The metadata without owners and version, which a merge may write to a composite. -/
def exceptOwners (m : Metadata) : Metadata :=
  { m with ownerReferences := none, resourceVersion := none }

variable {m m' : Metadata}

/-- A change adds or removes the operator's token alone. -/
theorem foreignFinalizers_of_change (h : m.finalizerChange? fragmentFinalizer = some m') :
    m'.foreignFinalizers = m.foreignFinalizers := by
  unfold finalizerChange? at h
  split at h
  next =>
    obtain rfl := Option.some.inj h
    simp [foreignFinalizers, finalizerList]
  next => cases h
  next => cases h
  next =>
    obtain rfl := Option.some.inj h
    simp [foreignFinalizers, finalizerList]

/-- …and removes it from a list that has it. -/
theorem finalizerList_ne_nil_of_change (h : m.finalizerChange? fragmentFinalizer = some m')
    (hdel : m.isBeingDeleted) : m.finalizerList ≠ [] := by
  intro hnil
  simp [finalizerChange?, hdel, hasFinalizer, hnil] at h

end Metadata

/-! ## The fragments -/

namespace Store

variable {k : ObjectKey} {t t' : Store φ FragmentStatus}

/-- `t'` is `t` but for what a pass writes to the fragment at `k`, which goes only when it is being
deleted and the operator's finalizer was its last one. -/
structure SparesFragments (k : ObjectKey) (t t' : Store φ FragmentStatus) : Prop where
  elsewhere : ∀ k', k' ≠ k → t'.objects.get? k' = t.objects.get? k'
  absent : t.objects.get? k = none → t'.objects.get? k = none
  stays : ∀ f f', t.objects.get? k = some f → t'.objects.get? k = some f' →
    f'.spec = f.spec ∧ f'.metadata.exceptFinalizers = f.metadata.exceptFinalizers ∧
      f'.metadata.foreignFinalizers = f.metadata.foreignFinalizers
  goes : ∀ f, t.objects.get? k = some f → t'.objects.get? k = none →
    f.metadata.isBeingDeleted ∧ f.metadata.finalizerList ≠ [] ∧
      f.metadata.foreignFinalizers = []

theorem SparesFragments.refl (k : ObjectKey) (t : Store φ FragmentStatus) :
    t.SparesFragments k t where
  elsewhere _ _ := rfl
  absent := id
  stays f f' hf hf' := by
    obtain rfl : f = f' := Option.some.inj (hf.symm.trans hf')
    exact ⟨rfl, rfl, rfl⟩
  goes f hf hnone := by
    rw [hf] at hnone
    cases hnone

/-- One more write at the key, which changes no more than it may, or drops the object when it may. -/
theorem SparesFragments.changes (h : t.SparesFragments k t') {t'' : Store φ FragmentStatus}
    {x : Option (Fragment φ)} (hchange : t'.Changes t'' k x) {f' : Fragment φ}
    (hf' : t'.objects.get? k = some f')
    (hstays : ∀ g, x = some g → g.spec = f'.spec ∧
      g.metadata.exceptFinalizers = f'.metadata.exceptFinalizers ∧
        g.metadata.foreignFinalizers = f'.metadata.foreignFinalizers)
    (hgoes : x = none → ∀ f, t.objects.get? k = some f → f.metadata.isBeingDeleted ∧
      f.metadata.finalizerList ≠ [] ∧ f.metadata.foreignFinalizers = []) :
    t.SparesFragments k t'' where
  elsewhere k' hk := (hchange.elsewhere k' hk).trans (h.elsewhere k' hk)
  absent hnone := by
    rw [h.absent hnone] at hf'
    cases hf'
  stays f g hf hg := by
    obtain ⟨hspec, hmetadata, hforeign⟩ := h.stays f f' hf hf'
    obtain ⟨hspec', hmetadata', hforeign'⟩ := hstays g (hchange.here.symm.trans hg)
    exact ⟨hspec'.trans hspec, hmetadata'.trans hmetadata, hforeign'.trans hforeign⟩
  goes f hf hgone := hgoes (hchange.here.symm.trans hgone) f hf

/-- The write of the finalizer. -/
theorem sparesFragments_guarded (ht : t.Keyed) (k : ObjectKey) :
    t.SparesFragments k (t.guarded k) := by
  cases hf : t.objects.get? k with
  | none =>
    rw [guarded_of_absent hf]
    exact .refl k t
  | some f =>
    cases hm : f.metadata.finalizerChange? fragmentFinalizer with
    | none =>
      have hsame : t.guarded k = t := by simp only [guarded, hf, hm]
      rw [hsame]
      exact .refl k t
    | some m =>
      obtain ⟨fs, rfl, -⟩ := Metadata.of_finalizerChange?_eq_some hm
      have hforeign := Metadata.foreignFinalizers_of_change hm
      obtain rfl : f.key = k := ht k f hf
      have hnew : t.guarded f.key =
          t.replaced { f with metadata := { f.metadata with finalizers := some fs } } f := by
        simp only [guarded, hf, hm]
      rw [hnew]
      refine (SparesFragments.refl f.key t).changes (changes_replaced t _ f) hf (fun g hg => ?_)
        fun hgone f' hf' => ?_
      · split at hg
        · cases hg
        · obtain rfl := Option.some.inj hg
          exact ⟨rfl, rfl, hforeign⟩
      · obtain rfl : f = f' := Option.some.inj (hf.symm.trans hf')
        split at hgone
        next h =>
          obtain rfl : fs = [] := List.isEmpty_iff.mp h.2
          exact ⟨h.1, Metadata.finalizerList_ne_nil_of_change hm h.1, hforeign.symm⟩
        next => cases hgone

/-- The write of the status. -/
theorem SparesFragments.recorded (h : t.SparesFragments k t') (F : Family φ κ ι) (now : Instant) :
    t.SparesFragments k (t'.recorded F now k) := by
  cases hf' : t'.objects.get? k with
  | none =>
    rw [recorded_of_absent now hf']
    exact h
  | some f' =>
    rw [recorded_of_stored now hf']
    split
    next =>
      refine h.changes (changes_write t' k _) hf' (fun g hg => ?_) nofun
      obtain rfl := Option.some.inj hg
      exact ⟨rfl, rfl, rfl⟩
    next => exact h

end Store

/-! ## The composites -/

namespace Family

variable [DecidableEq κ] {F : Family φ κ ι} {now : Instant} {version ns key : String}
  {l : List (Fragment φ)} {c c' : Composite κ}

/-- A merge over fragments writes only the content and the owners of a composite; one over none only
marks it. -/
theorem exceptOwners_of_mergedAt (h : F.mergedAt now version ns key l (some c) = some c') :
    c'.metadata.exceptOwners = c.metadata.exceptOwners ∨ c.HeldBack c' ∧ l = [] := by
  obtain ⟨hl, hmerged⟩ | ⟨-, -, hmerged⟩ | ⟨-, -, hmerged⟩ :=
    F.mergedAt_stored now version ns key l c
  · exact Or.inr ⟨.of_withdrawn (hmerged.symm.trans h), hl⟩
  · obtain rfl := Option.some.inj (hmerged.symm.trans h)
    exact Or.inl rfl
  · have hnew := hmerged.symm.trans h
    split at hnew
    · cases hnew
    · obtain rfl := Option.some.inj hnew
      exact Or.inl rfl

/-- A merge drops only composites that nobody holds back. -/
theorem finalizerList_of_mergedAt (h : F.mergedAt now version ns key l (some c) = none) :
    c.metadata.finalizerList = [] := by
  obtain ⟨-, hmerged⟩ | ⟨-, -, hmerged⟩ | ⟨-, -, hmerged⟩ :=
    F.mergedAt_stored now version ns key l c
  · exact Object.withdrawn_eq_none_iff.mp (hmerged.symm.trans h)
  · cases hmerged.symm.trans h
  · have hgone := hmerged.symm.trans h
    split at hgone
    next hc => exact List.isEmpty_iff.mp hc.2
    next => cases hgone

end Family

namespace Collections

variable {F : Family φ κ ι} {now : Instant} {ns name key : String} {s s' : Collections φ κ}

/-- Composites `t` are those of `s` but for what a pass over the fragment of a name writes: of the
composites that the fragment is concerned with, the content and the owners of those that stay, or the
mark for deletion where no live fragment calls for the composite. -/
structure SparesComposites (F : Family φ κ ι) (ns name : String) (s : Collections φ κ)
    (t : Store κ Empty) : Prop where
  elsewhere : ∀ k, k.nameSpace ≠ ns ∨ ¬ ConcernedAt F s ns name k.name →
    t.objects.get? k = s.composites.objects.get? k
  stays : ∀ k c c', s.composites.objects.get? k = some c → t.objects.get? k = some c' →
    c'.metadata.exceptOwners = c.metadata.exceptOwners ∨
      c.HeldBack c' ∧ F.live s.fragments ns k.name = []
  goes : ∀ k c, s.composites.objects.get? k = some c → t.objects.get? k = none →
    c.metadata.finalizerList = []

theorem SparesComposites.refl (F : Family φ κ ι) (ns name : String) (s : Collections φ κ) :
    s.SparesComposites F ns name s.composites where
  elsewhere _ _ := rfl
  stays k c c' hc hc' := by
    obtain rfl : c = c' := Option.some.inj (hc.symm.trans hc')
    exact Or.inl rfl
  goes k c hc hnone := by
    rw [hc] at hnone
    cases hnone

/-- What a pass over the fragment of a name leaves as it was: all but what it is to write, and all
when the fragment has no key. -/
structure Spares (F : Family φ κ ι) (ns name : String) (s s' : Collections φ κ) : Prop where
  fragments : s.fragments.SparesFragments ⟨ns, name⟩ s'.fragments
  composites : s.SparesComposites F ns name s'.composites
  keyless : (∀ f, s.fragments.objects.get? ⟨ns, name⟩ = some f →
    (f.metadata.label? F.keyLabel).getD "" = "") → s' = s

theorem Spares.refl (F : Family φ κ ι) (ns name : String) (s : Collections φ κ) :
    Spares F ns name s s :=
  ⟨.refl _ _, .refl F ns name s, fun _ => rfl⟩

/-- The keys that a pass merges are those that its fragment is concerned with. -/
theorem concernedAt_of_mem_order (hs : s.composites.Keyed) {f : Fragment φ}
    (hf : s.fragments.objects.get? ⟨ns, name⟩ = some f) (hkey : F.aggregationKey f = .ok key)
    {key' : String} (h : key' ∈ s.order ns key f.metadata.uid) : ConcernedAt F s ns name key' := by
  refine ⟨f, hf, (List.mem_cons.mp h).imp (fun heq => ?_) fun hstale => ?_⟩
  · exact heq ▸ (Family.of_aggregationKey_eq_ok hkey).1
  · exact ((mem_staleNames F hs).mp hstale).2

variable [DecidableEq κ]

/-- Merges of keys that the fragment is concerned with, each once. -/
theorem sparesComposites_mergedEach (hs : s.Keyed) {keys : List String} (hnodup : keys.Nodup)
    (hkeys : ∀ key ∈ keys, ConcernedAt F s ns name key) :
    s.SparesComposites F ns name (s.mergedEach F now ns keys).composites where
  elsewhere k hk := by
    refine get?_mergedEach hs fun key hkey heq => ?_
    subst heq
    exact hk.elim (· rfl) (· (hkeys key hkey))
  stays k c c' hc hc' := by
    rcases get?_mergedEach_cases F now ns hs hnodup k with hsame | ⟨-, -, version, hmerged⟩
    · obtain rfl : c' = c := Option.some.inj (hc'.symm.trans (hsame.trans hc))
      exact Or.inl rfl
    · rw [hc', hc] at hmerged
      exact Family.exceptOwners_of_mergedAt hmerged.symm
  goes k c hc hgone := by
    rcases get?_mergedEach_cases F now ns hs hnodup k with hsame | ⟨-, -, version, hmerged⟩
    · rw [hgone, hc] at hsame
      cases hsame
    · rw [hgone, hc] at hmerged
      exact Family.finalizerList_of_mergedAt hmerged.symm

/-- **Every state on the way of a pass is spared.** -/
theorem leads_spares (hs : s.Keyed) (F : Family φ κ ι) (now : Instant) (ns name : String) :
    ∃ r, Leads F now (Spares F ns name s) r (s.reconciled F now ns name)
      (F.reconcile now ns name).run s := by
  refine leads_reconcile F now hs (.refl F ns name s) fun f key hf hkey => ?_
  obtain ⟨hlabel, hne⟩ := Family.of_aggregationKey_eq_ok hkey
  have hkeyless {s' : Collections φ κ} (h : ∀ f, s.fragments.objects.get? ⟨ns, name⟩ = some f →
      (f.metadata.label? F.keyLabel).getD "" = "") : s' = s := by
    have hnone := h f hf
    rw [hlabel] at hnone
    exact absurd hnone hne
  have hnodup := nodup_order hs.composites ns key f.metadata.uid
  have hconcerned {done rest : List String} (hdone : s.order ns key f.metadata.uid = done ++ rest) :
      s.SparesComposites F ns name (s.mergedEach F now ns done).composites := by
    rw [hdone] at hnodup
    refine sparesComposites_mergedEach hs hnodup.of_append_left fun key' hkey' => ?_
    exact concernedAt_of_mem_order hs.composites hf hkey (hdone ▸ List.mem_append_left rest hkey')
  have hend := hconcerned (List.append_nil _).symm
  have hguarded := Store.sparesFragments_guarded hs.fragments ⟨ns, name⟩
  refine ⟨fun done rest hdone => ⟨?_, hconcerned hdone, hkeyless⟩, ⟨hguarded, hend, hkeyless⟩,
    hguarded.recorded F now, hend, hkeyless⟩
  rw [mergedEach_fragments]
  exact .refl _ _

end Collections

/-! ## Passes that meet refusals -/

namespace Stores

/-- **Whatever is refused, a program that stops at an error ends in a state on its way.** -/
theorem held_of_leads {F : Family φ κ ι} {now : Instant} {B : Error → ρ → Prop}
    {Q : Collections φ κ → Prop} {p : Program (PassCall.Answer (φ := φ) (κ := κ)) ρ}
    (hp : p.StopsWith B) {s : Stores φ κ} {r : ρ} {s' : Collections φ κ}
    (h : Collections.Leads F now Q r s' p s.collections) :
    Q (p.run (answer F now) s).2.collections := by
  induction p generalizing s with
  | done r' => exact h.2.2
  | ask q next ih =>
    rw [Program.run]
    rcases answer_cases F now s q with ⟨e, hrefused, hheld⟩ | ⟨hanswer, hheld⟩
    · obtain ⟨r', hr', -⟩ := hp.1 e
      rw [hrefused, hr']
      exact hheld ▸ h.1
    · refine ih _ (hp.2 _) ?_
      rw [hanswer, hheld]
      exact h.2

variable [DecidableEq κ]

/-- **A pass touches nothing else**: whatever refusals it meets and whatever it returns, it leaves all
other fragments, all composites that its fragment is not concerned with, and of the others what a pass
is not to write. -/
theorem reconcile_spares (F : Family φ κ ι) (now : Instant) (ns name : String) (s : Stores φ κ)
    (hfragments : s.fragments.store.Keyed) (hcomposites : s.composites.store.Keyed) :
    Collections.Spares F ns name s.collections
      (s.run F now (F.reconcile now ns name)).2.collections := by
  obtain ⟨r, hleads⟩ :=
    Collections.leads_spares (s := s.collections) ⟨hfragments, hcomposites⟩ F now ns name
  exact held_of_leads (F.stopsWith_reconcile now ns name) hleads

/-- A pass that was refused the finalizer, after two writes to composites. -/
theorem reconcile_spares_refused :
    let s := { disordered with
      fragments := disordered.fragments.planRefusal .update .conflict }
    let result := s.run .routes ⟨1, 0⟩ (Family.routes.reconcile ⟨1, 0⟩ "default" "moved")
    s.fragments.store.Keyed ∧ s.composites.store.Keyed ∧
      (¬ IsDone result.1 ∧ result.2.composites.writes = 2) ∧
      Collections.Spares .routes "default" "moved" s.collections result.2.collections := by
  intro s result
  have hfragments : s.fragments.store.Keyed := by decide +kernel
  have hcomposites : s.composites.store.Keyed := by decide +kernel
  have hresult : ¬ IsDone result.1 ∧ result.2.composites.writes = 2 := by decide +kernel
  exact ⟨hfragments, hcomposites, hresult,
    reconcile_spares .routes ⟨1, 0⟩ "default" "moved" s hfragments hcomposites⟩

end Stores

end ConfigMerge
