import ConfigMerge.Proofs.Reconcile.History

/-!
# Proofs/Reconcile/Owners — reconciling what was touched is enough, but for vanished owners

In a history whose touched fragments are all settled, everything is in order exactly when no
composite lists a fragment that is not stored any more (`History.inOrder_iff_ownersStored`).  Such
an owner comes about in one way only: a fragment that a sibling's pass has merged is dropped by a
deletion request before its own first pass has guarded it (`History.orphan_left_behind`).

The invariant of a history is `Linked`: every composite is the one that some set of fragments called
for when it was last merged, and that set differs from the stored fragments only in unsettled ones
and in ones that have vanished.
-/

namespace ConfigMerge

variable {φ κ ι : Type}

theorem Family.Named.of_bare_eq {F : Family φ κ ι} {name : String} {f f' : Fragment φ}
    (h : F.Named name f) (hbare : f'.bare = f.bare) : F.Named name f' := by
  have hbare' : F.Named name f.bare := ⟨h.name, h.uid, h.label⟩
  rw [← hbare] at hbare'
  exact ⟨hbare'.name, hbare'.uid, hbare'.label⟩

/-- A composite that agrees with fragments lists each of them that has a name and a uid. -/
theorem Family.Matches.mem_owners {F : Family φ κ ι} {ns key : String} {l : List (Fragment φ)}
    {c : Composite κ} (h : F.Matches key ns l (some c)) {g : Fragment φ} (hg : g ∈ l)
    (hnamed : F.Named g.metadata.anyName g) :
    ∃ o ∈ c.metadata.owners, o.name = g.metadata.anyName ∧ g.metadata.uid = some o.uid := by
  obtain ⟨uid, huid⟩ := Option.isSome_iff_exists.mp hnamed.uid
  have howner := F.ownerReference?_of_named hnamed.name huid
  rw [h.2.2]
  exact ⟨_, F.mem_owners_expected.mpr ⟨g, hg, howner⟩, rfl, huid⟩

namespace Collections

/-- The fragments from which a composite was last merged, as far as they are still to be trusted. -/
structure Snapshot (F : Family φ κ ι) (ns : String) (unsettled : String → Prop)
    (s : Collections φ κ) (key : String) (c : Composite κ) (merged : List (Fragment φ)) :
    Prop where
  calls : F.Matches key ns merged (some c)
  sorted : merged.Pairwise (fun a b => a.metadata.anyName < b.metadata.anyName)
  named : ∀ g ∈ merged, F.Named g.metadata.anyName g
  isLive : ∀ g ∈ merged, F.IsLive key g
  complete : ∀ f ∈ F.live s.fragments ns key, ¬ unsettled f.metadata.anyName →
    ∃ g ∈ merged, g.bare = f.bare
  sound : ∀ g ∈ merged, ¬ unsettled g.metadata.anyName →
    ∀ f, s.fragments.objects.get? ⟨ns, g.metadata.anyName⟩ = some f →
      f.metadata.uid = g.metadata.uid → f.bare = g.bare

/-- Every composite stems from a snapshot, and without a composite nothing is settled. -/
structure Linked (F : Family φ κ ι) (ns : String) (unsettled : String → Prop)
    (s : Collections φ κ) : Prop where
  tidy : s.Tidy ns
  named : ∀ name f, s.fragments.objects.get? ⟨ns, name⟩ = some f → F.Named name f
  present : ∀ key c, s.compositeAt ns key = some c →
    ∃ merged, Snapshot F ns unsettled s key c merged
  absent : ∀ key, s.compositeAt ns key = none →
    ∀ f ∈ F.live s.fragments ns key, unsettled f.metadata.anyName

variable {F : Family φ κ ι} {ns : String} {s s' : Collections φ κ}
  {unsettled unsettled' : String → Prop}

theorem Linked.congr (h : Linked F ns unsettled s) (hu : ∀ name, unsettled name ↔ unsettled' name) :
    Linked F ns unsettled' s := by
  obtain rfl : unsettled = unsettled' := funext fun name => propext (hu name)
  exact h

/-! ## Operations -/

/-- **A changed fragment is unsettled, and nothing else is changed.** -/
theorem Linked.operate (h : Linked F ns unsettled s) {t : Store φ FragmentStatus} {name : String}
    {x : Option (Fragment φ)} (hc : s.fragments.Changes t ⟨ns, name⟩ x)
    (hx : ∀ f, x = some f → f.key = ⟨ns, name⟩ ∧ F.Named name f) :
    Linked F ns (fun name' => name' = name ∨ unsettled name') { s with fragments := t } := by
  have hkeyed : t.Keyed := h.tidy.fragments.changes hc fun f hf => (hx f hf).1
  have hother : ∀ name' : String, name' ≠ name →
      t.objects.get? ⟨ns, name'⟩ = s.fragments.objects.get? ⟨ns, name'⟩ :=
    fun name' hne => hc.elsewhere _ (by simpa using hne)
  have hlive : ∀ key f, f ∈ F.live t ns key → f.metadata.anyName ≠ name →
      f ∈ F.live s.fragments ns key := by
    intro key f hf hne
    rw [F.mem_live_iff_get? hkeyed, hother _ hne] at hf
    exact (F.mem_live_iff_get? h.tidy.fragments).mpr hf
  exact {
    tidy := ⟨hkeyed, h.tidy.composites, h.tidy.unguarded⟩
    named := fun name' f hf => by
      by_cases hne : name' = name
      · subst hne
        exact (hx f (hc.here.symm.trans hf)).2
      · exact h.named name' f ((hother _ hne).symm.trans hf)
    present := fun key c hat => by
      obtain ⟨merged, hm⟩ := h.present key c hat
      refine ⟨merged, { hm with complete := fun f hf hu => ?_, sound := fun g hg hu f hf => ?_ }⟩
      · rw [not_or] at hu
        exact hm.complete f (hlive key f hf hu.1) hu.2
      · rw [not_or] at hu
        exact hm.sound g hg hu.2 f ((hother _ hu.1).symm.trans hf)
    absent := fun key hat f hf => by
      by_cases hne : f.metadata.anyName = name
      · exact Or.inl hne
      · exact Or.inr (h.absent key hat f (hlive key f hf hne)) }

/-! ## Passes -/

/-- The live fragments themselves are a snapshot of what was just merged. -/
theorem Snapshot.of_right {key : String} {c : Composite κ} (hs : s.fragments.Keyed)
    (hnamed : ∀ name f, s.fragments.objects.get? ⟨ns, name⟩ = some f → F.Named name f)
    (hright : Right F ns s key) (hc : s.compositeAt ns key = some c) :
    Snapshot F ns unsettled s key c (F.live s.fragments ns key) where
  calls := by rw [← hc]; exact hright
  sorted := F.pairwise_live hs ns key
  named g hg := hnamed _ g ((F.mem_live_iff_get? hs).mp hg).1
  isLive g hg := ((F.mem_live_iff_get? hs).mp hg).2
  complete f hf _ := ⟨f, hf, rfl⟩
  sound g hg _ f hf _ := by
    obtain rfl : f = g :=
      Option.some.inj (hf.symm.trans ((F.mem_live_iff_get? hs).mp hg).1)
    rfl

/-- A pass leaves the live fragments of other keys as they were. -/
theorem Reconciled.mem_live {name key key' : String} {f g : Fragment φ}
    (hpass : Reconciled F ns name key f s s') (hs : s.fragments.Keyed)
    (hlabel : f.metadata.label? F.keyLabel = some key) (hk : key' ≠ key)
    (hg : g ∈ F.live s'.fragments ns key') :
    g.metadata.anyName ≠ name ∧ g ∈ F.live s.fragments ns key' := by
  obtain ⟨hget, hlive⟩ := (F.mem_live_iff_get? hpass.tidy.fragments).mp hg
  have hne : g.metadata.anyName ≠ name := by
    intro heq
    have hbare := (hpass.settled g (heq ▸ hget)).1
    have hlabel' : g.metadata.label? F.keyLabel = some key :=
      (Object.label?_eq_of_bare_eq hbare _).trans hlabel
    exact hk (Option.some.inj (hlive.1.symm.trans hlabel'))
  refine ⟨hne, (F.mem_live_iff_get? hs).mpr ⟨?_, hlive⟩⟩
  rw [← hpass.otherFragments _ (by simpa using hne)]
  exact hget

/-- **A pass settles its fragment**: the composites that it was concerned with are merged afresh,
and none of the others says anything of it. -/
theorem Linked.pass (h : Linked F ns unsettled s) {name key : String} {f : Fragment φ}
    (hlabel : f.metadata.label? F.keyLabel = some key)
    (hf : s.fragments.objects.get? ⟨ns, name⟩ = some f)
    (hpass : Reconciled F ns name key f s s') :
    Linked F ns (fun name' => name' ≠ name ∧ unsettled name') s' := by
  have hother : ∀ name' : String, name' ≠ name →
      s'.fragments.objects.get? ⟨ns, name'⟩ = s.fragments.objects.get? ⟨ns, name'⟩ :=
    fun name' hne => hpass.otherFragments _ (by simpa using hne)
  have hnamed : ∀ name' f', s'.fragments.objects.get? ⟨ns, name'⟩ = some f' →
      F.Named name' f' := by
    intro name' f' hf'
    by_cases hne : name' = name
    · subst hne
      exact (h.named _ f hf).of_bare_eq (hpass.settled f' hf').1
    · exact h.named name' f' ((hother _ hne).symm.trans hf')
  refine ⟨hpass.tidy, hnamed, fun key' c hat => ?_, fun key' hat g hg => ?_⟩
  · by_cases hc : s.Concerns ns key f key'
    · exact ⟨_, .of_right hpass.tidy.fragments hnamed (hpass.right key' hc) hat⟩
    · have hk : key' ≠ key := fun heq => hc (Or.inl heq)
      rw [hpass.elsewhere key' hc] at hat
      obtain ⟨merged, hm⟩ := h.present key' c hat
      refine ⟨merged, { hm with
        complete := fun g hg hu => ?_
        sound := fun g hg hu f' hf' hu' => ?_ }⟩
      · obtain ⟨hne, hg'⟩ := hpass.mem_live h.tidy.fragments hlabel hk hg
        exact hm.complete g hg' fun hug => hu ⟨hne, hug⟩
      · by_cases hne : g.metadata.anyName = name
        · -- the composite would list the fragment, and so have been merged afresh
          obtain ⟨o, ho, -, huid⟩ := hm.calls.mem_owners hg (hm.named g hg)
          have hbare := (hpass.settled f' (hne ▸ hf')).1
          have huid' : f.metadata.uid = some o.uid := by
            rw [← huid, ← hu', ← Object.bare_uid, ← hbare, Object.bare_uid]
          exact absurd (Or.inr ⟨o.uid, huid', c, hat, o, ho, rfl⟩) hc
        · exact hm.sound g hg (fun hug => hu ⟨hne, hug⟩) f' ((hother _ hne).symm.trans hf') hu'
  · by_cases hc : s.Concerns ns key f key'
    · have hright := hpass.right key' hc
      rw [Right, hat] at hright
      exact absurd (hright ▸ hg) List.not_mem_nil
    · have hk : key' ≠ key := fun heq => hc (Or.inl heq)
      rw [hpass.elsewhere key' hc] at hat
      obtain ⟨hne, hg'⟩ := hpass.mem_live h.tidy.fragments hlabel hk hg
      exact ⟨hne, h.absent key' hat g hg'⟩

/-- A pass over a fragment that is not there settles its name. -/
theorem Linked.pass_absent (h : Linked F ns unsettled s) {name : String}
    (hf : s.fragments.objects.get? ⟨ns, name⟩ = none) :
    Linked F ns (fun name' => name' ≠ name ∧ unsettled name') s := by
  have hne : ∀ f name', s.fragments.objects.get? ⟨ns, name'⟩ = some f → name' ≠ name := by
    rintro f name' hf' rfl
    rw [hf] at hf'
    cases hf'
  refine ⟨h.tidy, h.named, fun key c hat => ?_, fun key hat g hg => ?_⟩
  · obtain ⟨merged, hm⟩ := h.present key c hat
    refine ⟨merged, { hm with
      complete := fun g hg hu => ?_
      sound := fun g hg hu f' hf' hu' => ?_ }⟩
    · have hget := ((F.mem_live_iff_get? h.tidy.fragments).mp hg).1
      exact hm.complete g hg fun hug => hu ⟨hne g _ hget, hug⟩
    · exact hm.sound g hg (fun hug => hu ⟨hne f' _ hf', hug⟩) f' hf' hu'
  · have hget := ((F.mem_live_iff_get? h.tidy.fragments).mp hg).1
    exact ⟨hne g _ hget, h.absent key hat g hg⟩

/-! ## Everything settled -/

/-- Every fragment that a composite of the namespace lists as an owner is stored. -/
def OwnersStored (ns : String) (s : Collections φ κ) : Prop :=
  ∀ key c, s.compositeAt ns key = some c → ∀ o ∈ c.metadata.owners,
    ∃ f, s.fragments.objects.get? ⟨ns, o.name⟩ = some f ∧ f.metadata.uid = some o.uid

/-- The owners of a composite that is right are stored. -/
theorem Right.exists_owner {key : String} {c : Composite κ} (h : Right F ns s key)
    (hs : s.fragments.Keyed) (hc : s.compositeAt ns key = some c) {o : OwnerReference}
    (ho : o ∈ c.metadata.owners) :
    ∃ f, s.fragments.objects.get? ⟨ns, o.name⟩ = some f ∧ f.metadata.uid = some o.uid := by
  rw [Right, hc] at h
  rw [h.2.2, Family.mem_owners_expected] at ho
  obtain ⟨f, hf, howner⟩ := ho
  obtain ⟨hname, huid⟩ := F.of_ownerReference?_eq howner
  have hany : f.metadata.anyName = o.name := by rw [Metadata.anyName, hname, Option.getD_some]
  exact ⟨f, hany ▸ ((F.mem_live_iff_get? hs).mp hf).1, huid⟩

/-- **With everything settled, everything is right exactly when no composite lists a fragment that
has vanished.** -/
theorem Linked.right_iff_ownersStored (h : Linked F ns (fun _ => False) s) :
    (∀ key, Right F ns s key) ↔ OwnersStored ns s := by
  refine ⟨fun hright key c hc o ho => (hright key).exists_owner h.tidy.fragments hc ho,
    fun howners key => ?_⟩
  cases hat : s.compositeAt ns key with
  | none =>
    rw [Right, hat]
    exact List.eq_nil_iff_forall_not_mem.mpr fun f hf => h.absent key hat f hf
  | some c =>
    obtain ⟨merged, hm⟩ := h.present key c hat
    have hsame : merged.map Object.bare = (F.live s.fragments ns key).map Object.bare := by
      refine Family.eq_of_mem_iff (List.pairwise_map.mpr hm.sorted)
        (List.pairwise_map.mpr (F.pairwise_live h.tidy.fragments ns key)) fun b => ?_
      simp only [List.mem_map]
      constructor
      · rintro ⟨g, hg, rfl⟩
        obtain ⟨o, ho, hname, huid⟩ := hm.calls.mem_owners hg (hm.named g hg)
        obtain ⟨f, hf, hfuid⟩ := howners key c hat o ho
        rw [hname] at hf
        have hbare := hm.sound g hg not_false f hf (hfuid.trans huid.symm)
        have hlive : F.IsLive key f.bare := hbare ▸ hm.isLive g hg
        have hany : f.metadata.anyName = g.metadata.anyName := by
          rw [← Object.bare_anyName, hbare, Object.bare_anyName]
        exact ⟨f, (F.mem_live_iff_get? h.tidy.fragments).mpr ⟨hany ▸ hf, hlive⟩, hbare⟩
      · rintro ⟨f, hf, rfl⟩
        exact hm.complete f hf not_false
    rw [Right, hat]
    exact (Family.matches_congr_bare hsame).mp hm.calls

/-- Owners stay stored through an operation that keeps the fragment's uid, or is on one that no
composite lists. -/
theorem OwnersStored.operate (h : OwnersStored ns s) {t : Store φ FragmentStatus} {name : String}
    {x : Option (Fragment φ)} (hc : s.fragments.Changes t ⟨ns, name⟩ x)
    (hkeeps : ∀ f, s.fragments.objects.get? ⟨ns, name⟩ = some f →
      (∃ f', t.objects.get? ⟨ns, name⟩ = some f' ∧ f'.metadata.uid = f.metadata.uid) ∨
        ∀ key uid, f.metadata.uid = some uid → ¬ s.Lists ns uid key) :
    OwnersStored ns { s with fragments := t } := by
  intro key c hat o ho
  obtain ⟨f, hf, huid⟩ := h key c hat o ho
  by_cases hne : o.name = name
  · rw [hne] at hf ⊢
    rcases hkeeps f hf with ⟨f', hf', huid'⟩ | hfree
    · exact ⟨f', hf', huid'.trans huid⟩
    · exact absurd ⟨c, hat, o, ho, rfl⟩ (hfree key o.uid huid)
  · exact ⟨f, (hc.elsewhere _ (by simpa using hne)).trans hf, huid⟩

/-- …and through a pass: what it drops is listed by none of the composites that it leaves alone. -/
theorem OwnersStored.pass (h : OwnersStored ns s) {name key : String} {f : Fragment φ}
    (hf : s.fragments.objects.get? ⟨ns, name⟩ = some f)
    (hpass : Reconciled F ns name key f s s') : OwnersStored ns s' := by
  intro key' c hat o ho
  by_cases hc : s.Concerns ns key f key'
  · exact (hpass.right key' hc).exists_owner hpass.tidy.fragments hat ho
  · rw [hpass.elsewhere key' hc] at hat
    obtain ⟨g, hg, huid⟩ := h key' c hat o ho
    have hne : o.name ≠ name := by
      intro heq
      rw [heq] at hg
      obtain rfl : g = f := Option.some.inj (hg.symm.trans hf)
      exact hc (Or.inr ⟨o.uid, huid, c, hat, o, ho, rfl⟩)
    exact ⟨g, (hpass.otherFragments _ (by simpa using hne)).trans hg, huid⟩

end Collections

/-! ## Histories -/

namespace History

variable [DecidableEq κ] {F : Family φ κ ι} {ns : String} {h : History φ κ}

/-- What every history keeps. -/
structure Sound (F : Family φ κ ι) (ns : String) (h : History φ κ) : Prop where
  undisturbed : h.stores.Undisturbed
  linked : Collections.Linked F ns (· ∈ h.unsettled) h.stores.collections
  owners : h.orphaned = false → Collections.OwnersStored ns h.stores.collections

omit [DecidableEq κ] in
theorem Sound.start {s : Stores φ κ} (hs : s.Fresh) : Sound F ns { stores := s } where
  undisturbed := hs.undisturbed
  linked :=
    { tidy :=
        ⟨fun k o ho => absurd ((hs.fragments k).symm.trans ho) (by simp),
          fun k o ho => absurd ((hs.composites k).symm.trans ho) (by simp),
          fun key c hc => absurd ((hs.composites _).symm.trans hc) (by simp)⟩
      named := fun name f hf => absurd ((hs.fragments _).symm.trans hf) (by simp)
      present := fun key c hc => absurd ((hs.composites _).symm.trans hc) (by simp)
      absent := fun key _ f hf => by
        obtain ⟨⟨k, -, hget⟩, -⟩ := F.mem_live.mp hf
        exact absurd ((hs.fragments k).symm.trans hget) (by simp) }
  owners _ key c hc := absurd ((hs.composites _).symm.trans hc) (by simp)

omit [DecidableEq κ] in
/-- A fragment that goes without leaving an orphan is listed by no composite. -/
theorem not_lists_of_orphans_eq_false {s : Stores φ κ} {name : String} {f : Fragment φ}
    (h : s.orphans ns (.requestDeletion name) = false)
    (hf : s.fragments.store.objects.get? ⟨ns, name⟩ = some f)
    (hfin : f.metadata.finalizerList = []) (key uid : String) (huid : f.metadata.uid = some uid) :
    ¬ s.collections.Lists ns uid key := by
  rintro ⟨c, hc, o, ho, rfl⟩
  simp only [Stores.orphans, hf, Option.any_some, hfin, List.isEmpty_nil, Bool.true_and,
    List.any_eq_false] at h
  exact h c (Store.mem_list_of_get? hc) (List.any_eq_true.mpr ⟨o, ho, by simp [huid]⟩)

omit [DecidableEq κ] in
/-- **One operation keeps a history sound.** -/
theorem Sound.operate (h' : Sound F ns h) {now : Instant} {op : UserOperation φ}
    (hop : op.Proper F ns) {t : Store φ FragmentStatus}
    (ht : op.apply F ns now h.stores.fragments.store = some t) :
    Sound F ns
      { stores := { h.stores with fragments := { h.stores.fragments with store := t } }
        unsettled := op.name :: h.unsettled
        orphaned := h.orphaned || h.stores.orphans ns op } := by
  obtain ⟨x, hchange, hx⟩ := UserOperation.changes_of_apply ht h'.linked.tidy.fragments hop
    (h'.linked.named op.name)
  refine ⟨⟨h'.undisturbed.fragments, h'.undisturbed.composites⟩,
    (h'.linked.operate hchange hx).congr fun name => List.mem_cons.symm, fun horphaned => ?_⟩
  obtain ⟨hbefore, hnow⟩ := Bool.or_eq_false_iff.mp horphaned
  refine (h'.owners hbefore).operate hchange fun f hf => ?_
  refine (UserOperation.uid_of_apply ht hop hf).imp_right ?_
  rintro ⟨hrequest, hfin⟩
  rw [hrequest] at hnow
  exact not_lists_of_orphans_eq_false hnow hf hfin

/-- **One pass keeps a history sound.** -/
theorem Sound.pass (h' : Sound F ns h) (now : Instant) (name : String) :
    Sound F ns (h.step F ns now (.pass name)) := by
  obtain ⟨hresult, hheld, hcalm⟩ :=
    Stores.run_of_undisturbed F now h'.undisturbed (F.reconcile now ns name)
  have hstep : IsDone (h.stores.run F now (F.reconcile now ns name)).1 ∧
      Collections.Linked F ns (fun name' => name' ≠ name ∧ name' ∈ h.unsettled)
        (h.stores.run F now (F.reconcile now ns name)).2.collections ∧
      (h.orphaned = false → Collections.OwnersStored ns
        (h.stores.run F now (F.reconcile now ns name)).2.collections) := by
    rw [hresult, hheld]
    cases hf : h.stores.collections.fragments.objects.get? ⟨ns, name⟩ with
    | none =>
      rw [Collections.run_reconcile_of_absent F now hf]
      exact ⟨rfl, h'.linked.pass_absent hf, h'.owners⟩
    | some f =>
      have hlabel := (h'.linked.named name f hf).label
      cases hl : f.metadata.label? F.keyLabel with
      | none => simp [hl] at hlabel
      | some key =>
        obtain ⟨report, s', hrun, hdone, hpass⟩ :=
          Collections.run_reconcile F now h'.linked.tidy hf hl (by simpa [hl] using hlabel)
        rw [hrun]
        exact ⟨hdone, h'.linked.pass hl hf hpass, fun ho => (h'.owners ho).pass hf hpass⟩
  obtain ⟨hdone, hlinked, howners⟩ := hstep
  refine ⟨hcalm, hlinked.congr fun name' => ?_, howners⟩
  simp only [step, if_pos hdone, List.mem_filter, decide_eq_true_eq]
  exact and_comm

theorem Sound.step (h' : Sound F ns h) (now : Instant) {e : Event φ} (he : e.Proper F ns) :
    Sound F ns (h.step F ns now e) := by
  cases e with
  | pass name => exact h'.pass now name
  | operate op =>
    cases ht : op.apply F ns now h.stores.fragments.store with
    | none =>
      simp only [History.step, ht]
      exact h'
    | some t =>
      simp only [History.step, ht]
      exact h'.operate he ht

/-- **Every history of proper events is sound.** -/
theorem Sound.run (h' : Sound F ns h) {events : List (Instant × Event φ)}
    (hproper : ∀ e ∈ events, e.2.Proper F ns) : Sound F ns (h.run F ns events) := by
  induction events generalizing h with
  | nil => exact h'
  | cons e rest ih =>
    exact ih (h'.step e.1 (hproper e (by simp))) fun e' he' => hproper e' (by simp [he'])

/-- **Reconciling what was touched is enough, unless a composite lists a fragment that has
vanished**; and none does unless a deletion request dropped a fragment that was listed but not yet
guarded. -/
theorem inOrder_iff_ownersStored (F : Family φ κ ι) (ns : String) {s : Stores φ κ} (hs : s.Fresh)
    (events : List (Instant × Event φ)) (hproper : ∀ e ∈ events, e.2.Proper F ns)
    (hsettled : (run F ns { stores := s } events).unsettled = []) :
    ((run F ns { stores := s } events).stores.InOrder F ns ↔
        Collections.OwnersStored ns (run F ns { stores := s } events).stores.collections) ∧
      ((run F ns { stores := s } events).orphaned = false →
        (run F ns { stores := s } events).stores.InOrder F ns) := by
  have hstart : Sound F ns { stores := s } := .start hs
  have hsound := hstart.run hproper
  have hlinked : Collections.Linked F ns (fun _ => False)
      (run F ns { stores := s } events).stores.collections :=
    hsound.linked.congr fun name => by simp [hsettled]
  have hiff : (run F ns { stores := s } events).stores.InOrder F ns ↔
      Collections.OwnersStored ns (run F ns { stores := s } events).stores.collections :=
    hlinked.right_iff_ownersStored
  exact ⟨hiff, fun horphaned => hiff.mpr (hsound.owners horphaned)⟩

/-- Two fragments of one key, passes over some of them, a deletion request for the second, and the
pass that follows it. -/
def deletionAfter (reconciled : List String) : List (Instant × Event RouteSpec) :=
  [(⟨0, 0⟩, .operate (.create (.ofPathPrefix "r1" "svc-a" "/one"))),
    (⟨1, 0⟩, .operate (.create (.ofPathPrefix "r2" "svc-a" "/two")))]
  ++ reconciled.map (fun name => (⟨2, 0⟩, .pass name))
  ++ [(⟨3, 0⟩, .operate (.requestDeletion "r2")), (⟨4, 0⟩, .pass "r2")]

/-- A fragment that is deleted after its own pass leaves nothing behind. -/
theorem inOrder_of_guarded_deletion :
    (∀ e ∈ deletionAfter ["r1", "r2"], e.2.Proper .routes "default") ∧
      (run .routes "default" { stores := {} } (deletionAfter ["r1", "r2"])).unsettled = [] ∧
      (run .routes "default" { stores := {} } (deletionAfter ["r1", "r2"])).stores.InOrder
        .routes "default" := by
  have hfresh : Stores.Fresh ({} : Stores RouteSpec RouterSpec) :=
    ⟨⟨fun _ => rfl, fun _ => rfl⟩, fun _ => rfl, fun _ => rfl⟩
  have hproper : ∀ e ∈ deletionAfter ["r1", "r2"], e.2.Proper .routes "default" := by
    decide +kernel
  have hsettled : (run .routes "default" { stores := {} }
      (deletionAfter ["r1", "r2"])).unsettled = [] := by decide +kernel
  exact ⟨hproper, hsettled, (inOrder_iff_ownersStored .routes "default" hfresh _ hproper hsettled).2
    (by decide +kernel)⟩

/-- **An item can outlive its fragment**: everything is settled, and the composite still holds the
fragment that was deleted before its own first pass. -/
theorem orphan_left_behind :
    (∀ e ∈ deletionAfter ["r1"], e.2.Proper .routes "default") ∧
      (run .routes "default" { stores := {} } (deletionAfter ["r1"])).unsettled = [] ∧
      ¬ (run .routes "default" { stores := {} } (deletionAfter ["r1"])).stores.InOrder
        .routes "default" := by
  refine ⟨by decide +kernel, by decide +kernel, fun hright => ?_⟩
  exact absurd (hright "svc-a") (by decide +kernel)

end History

end ConfigMerge
