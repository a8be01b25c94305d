import ConfigMerge.Proofs.Reconcile.Run

/-!
# Proofs/Reconcile/Convergence — one pass over every fragment, in any order, makes everything right

Passes over all fragments of a namespace, one after the other and in any order, end with exactly the
composites that the live fragments call for (`reconcileEach_converges`), from whatever the
composites were: drifted, orphaned by a relabelled fragment or not there at all.

The invariant is `Progress`: a composite that is not right yet is still the one from the start, and
no fragment visited so far was concerned with it.
-/

namespace ConfigMerge

variable {φ κ ι : Type}

/-- Passes over fragments of a namespace, one after the other, each at its own time. -/
def Stores.reconcileEach [DecidableEq κ] (F : Family φ κ ι) (ns : String) :
    List (Instant × String) → Stores φ κ → List (Except Error Report) × Stores φ κ
  | [], s => ([], s)
  | (now, name) :: rest, s =>
    let (result, s) := s.run F now (F.reconcile now ns name)
    let (results, s) := reconcileEach F ns rest s
    (result :: results, s)

namespace Collections

variable {ns : String} {s₀ s s' : Collections φ κ} {F : Family φ κ ι}

/-- A fragment stored at the start is concerned with a key: by its label or as an owner. -/
def ConcernedAt (F : Family φ κ ι) (s₀ : Collections φ κ) (ns name key : String) : Prop :=
  ∃ f, s₀.fragments.objects.get? ⟨ns, name⟩ = some f ∧
    (f.metadata.label? F.keyLabel = some key ∨
      ∃ uid, f.metadata.uid = some uid ∧ s₀.Lists ns uid key)

/-- A fragment that was concerned with a key at the start is so later, as long as nothing that counts
of it has changed and the composite of the key is still the same. -/
theorem ConcernedAt.concerns {name key key' : String} (h : ConcernedAt F s₀ ns name key')
    {f f₀ : Fragment φ} (hf₀ : s₀.fragments.objects.get? ⟨ns, name⟩ = some f₀)
    (hbare : f.bare = f₀.bare) (hlabel : f.metadata.label? F.keyLabel = some key)
    (hat : s.compositeAt ns key' = s₀.compositeAt ns key') : s.Concerns ns key f key' := by
  obtain ⟨g, hg, hconcern⟩ := h
  obtain rfl : f₀ = g := Option.some.inj (hf₀.symm.trans hg)
  refine hconcern.imp (fun hl => ?_) fun ⟨uid, huid, hlist⟩ => ⟨uid, ?_, ?_⟩
  · exact Option.some.inj (hl.symm.trans ((Object.label?_eq_of_bare_eq hbare _).symm.trans hlabel))
  · exact (Object.uid_eq_of_bare_eq hbare).trans huid
  · rw [Lists, hat]
    exact hlist

/-- Where `s` stands, with passes over the names in `visited` made since `s₀`. -/
structure Progress (F : Family φ κ ι) (ns : String) (s₀ : Collections φ κ)
    (visited : String → Prop) (s : Collections φ κ) : Prop where
  tidy : s.Tidy ns
  sameLive : Family.SameLive ns s₀.fragments s.fragments
  origin : ∀ name f, s.fragments.objects.get? ⟨ns, name⟩ = some f →
    ∃ f₀, s₀.fragments.objects.get? ⟨ns, name⟩ = some f₀ ∧ f.bare = f₀.bare
  unvisited : ∀ name, ¬ visited name →
    s.fragments.objects.get? ⟨ns, name⟩ = s₀.fragments.objects.get? ⟨ns, name⟩
  settled : ∀ name f, visited name → s.fragments.objects.get? ⟨ns, name⟩ = some f → F.Settled f
  right : ∀ key, Right F ns s key ∨ s.compositeAt ns key = s₀.compositeAt ns key ∧
    ∀ name, visited name → ¬ ConcernedAt F s₀ ns name key

theorem Progress.start (h : s₀.Tidy ns) : Progress F ns s₀ (fun _ => False) s₀ where
  tidy := h
  sameLive := .refl ns _
  origin _ f hf := ⟨f, hf, rfl⟩
  unvisited _ _ := rfl
  settled _ _ hv := hv.elim
  right _ := Or.inr ⟨rfl, fun _ hv => hv.elim⟩

theorem Progress.congr {visited visited' : String → Prop} (h : Progress F ns s₀ visited s)
    (hv : ∀ name, visited name ↔ visited' name) : Progress F ns s₀ visited' s := by
  obtain rfl : visited = visited' := funext fun name => propext (hv name)
  exact h

/-- A visit that finds nothing changes nothing: the fragment was never there or went when it was
visited. -/
theorem Progress.visit_absent {visited : String → Prop} (h : Progress F ns s₀ visited s)
    {name : String} (hnone : s.fragments.objects.get? ⟨ns, name⟩ = none) :
    Progress F ns s₀ (fun name' => name' = name ∨ visited name') s where
  tidy := h.tidy
  sameLive := h.sameLive
  origin := h.origin
  unvisited name' hv := h.unvisited name' fun hv' => hv (Or.inr hv')
  settled name' f hv hf := by
    rcases hv with rfl | hv
    · rw [hnone] at hf
      cases hf
    · exact h.settled name' f hv hf
  right key := by
    refine (h.right key).imp_right fun ⟨hat, hfree⟩ => ⟨hat, fun name' hv => ?_⟩
    by_cases hold : visited name'
    · exact hfree name' hold
    · obtain rfl : name' = name := hv.resolve_right hold
      rintro ⟨f, hf, -⟩
      rw [← h.unvisited name' hold, hnone] at hf
      cases hf

/-- **What one visit does**: the composites that the fragment is concerned with become right, and
those that were right stay so. -/
theorem Progress.visit {visited : String → Prop} (h : Progress F ns s₀ visited s)
    {name key : String} {f : Fragment φ}
    (hf : s.fragments.objects.get? ⟨ns, name⟩ = some f)
    (hlabel : f.metadata.label? F.keyLabel = some key)
    (hpass : Reconciled F ns name key f s s') :
    Progress F ns s₀ (fun name' => name' = name ∨ visited name') s' := by
  obtain ⟨f₀, hf₀, hbare⟩ := h.origin name f hf
  exact {
    tidy := hpass.tidy
    sameLive := h.sameLive.trans hpass.sameLive
    origin := fun name' f' hf' => by
      by_cases hk : name' = name
      · subst hk
        exact ⟨f₀, hf₀, (hpass.settled f' hf').1.trans hbare⟩
      · refine h.origin name' f' ((hpass.otherFragments _ ?_).symm.trans hf')
        simpa using hk
    unvisited := fun name' hv => by
      rw [not_or] at hv
      refine (hpass.otherFragments _ ?_).trans (h.unvisited name' hv.2)
      simpa using hv.1
    settled := fun name' f' hv hf' => by
      by_cases hk : name' = name
      · subst hk
        exact (hpass.settled f' hf').2
      · refine h.settled name' f' (hv.resolve_left hk)
          ((hpass.otherFragments _ ?_).symm.trans hf')
        simpa using hk
    right := fun key' => by
      by_cases hc : s.Concerns ns key f key'
      · exact Or.inl (hpass.right key' hc)
      · have hat := hpass.elsewhere key' hc
        refine (h.right key').imp (fun hright => ?_) fun ⟨hat₀, hfree⟩ => ⟨hat.trans hat₀, ?_⟩
        · exact hright.of_sameLive hpass.sameLive h.tidy.fragments hpass.tidy.fragments hat
        · rintro name' (rfl | hv)
          · exact fun hconcern => hc (hconcern.concerns hf₀ hbare hlabel hat₀)
          · exact hfree name' hv }

/-- Once every fragment was visited, a composite that was claimed at the start is right, and so is
the absence of one. -/
theorem Progress.right_of_forall {visited : String → Prop} (h : Progress F ns s₀ visited s)
    (hall : ∀ name f, s₀.fragments.objects.get? ⟨ns, name⟩ = some f → visited name)
    (hclaimed : ∀ key c, s₀.compositeAt ns key = some c → ∃ name, ConcernedAt F s₀ ns name key)
    (key : String) : Right F ns s key := by
  rcases h.right key with hright | ⟨hat, hfree⟩
  · exact hright
  · have hnobody : ∀ name, ¬ ConcernedAt F s₀ ns name key := by
      rintro name ⟨f, hf, hconcern⟩
      exact hfree name (hall name f hf) ⟨f, hf, hconcern⟩
    rw [Right, hat]
    cases hc : s₀.compositeAt ns key with
    | some c =>
      obtain ⟨name, hname⟩ := hclaimed key c hc
      exact absurd hname (hnobody name)
    | none =>
      refine List.eq_nil_iff_forall_not_mem.mpr fun f hf => ?_
      obtain ⟨hget, hlabel, -⟩ := (F.mem_live_iff_get? h.tidy.fragments).mp hf
      obtain ⟨f₀, hf₀, hbare⟩ := h.origin _ f hget
      exact hnobody _ ⟨f₀, hf₀, Or.inl ((Object.label?_eq_of_bare_eq hbare _).symm.trans hlabel)⟩

end Collections

/-! ## All visits -/

/-- Stores that passes can bring in order: fragments have keys, and the composites, whatever they
hold, are claimed by fragments and not held back when they are deleted. -/
structure Stores.Reconcilable (F : Family φ κ ι) (ns : String) (s : Stores φ κ) : Prop where
  undisturbed : s.Undisturbed
  fragments : s.fragments.store.Keyed
  composites : s.composites.store.Keyed
  labelled : ∀ f ∈ s.fragments.store.list ns, (f.metadata.label? F.keyLabel).getD "" ≠ ""
  unguarded : ∀ c ∈ s.composites.store.list ns,
    c.metadata.finalizerList = [] ∧ c.metadata.isBeingDeleted = false
  claimed : ∀ c ∈ s.composites.store.list ns, ∃ f ∈ s.fragments.store.list ns,
    f.metadata.label? F.keyLabel = some c.metadata.anyName ∨
      ∃ o ∈ c.metadata.owners, f.metadata.uid = some o.uid

/-- Each key of a namespace has a composite exactly when live fragments carry it, with the content
and the owners that these call for. -/
def Stores.InOrder (F : Family φ κ ι) (ns : String) (s : Stores φ κ) : Prop :=
  ∀ key, F.Matches key ns (F.live s.fragments.store ns key)
    (s.composites.store.objects.get? ⟨ns, key⟩)

/-- `s'` is in order, has the live fragments of `s`, each guarded and with its content recorded, and
guards no fragment that is being deleted. -/
structure Stores.Converged (F : Family φ κ ι) (ns : String) (s s' : Stores φ κ) : Prop where
  inOrder : s'.InOrder F ns
  live : ∀ key, (F.live s'.fragments.store ns key).map Object.bare =
    (F.live s.fragments.store ns key).map Object.bare
  settled : ∀ f ∈ s'.fragments.store.list ns, F.Settled f

/-- A pass ended and asks for no other one. -/
def IsDone : Except Error Report → Prop
  | .ok report => report.disposition = .done
  | .error _ => False

instance : DecidablePred IsDone
  | .ok report => inferInstanceAs (Decidable (report.disposition = .done))
  | .error _ => inferInstanceAs (Decidable False)

namespace Stores

variable [DecidableEq κ] {F : Family φ κ ι} {ns : String} {s s₀ : Stores φ κ}

omit [DecidableEq κ] in
theorem Reconcilable.tidy (h : s.Reconcilable F ns) : s.collections.Tidy ns :=
  .of_list h.fragments h.composites h.unguarded

omit [DecidableEq κ] in
theorem Reconcilable.label (h : s.Reconcilable F ns) {name : String} {f : Fragment φ}
    (hf : s.fragments.store.objects.get? ⟨ns, name⟩ = some f) :
    ∃ key, f.metadata.label? F.keyLabel = some key ∧ key ≠ "" := by
  have hne := h.labelled f (Store.mem_list_of_get? hf)
  cases hl : f.metadata.label? F.keyLabel with
  | none => simp [hl] at hne
  | some key => exact ⟨key, rfl, by simpa [hl] using hne⟩

omit [DecidableEq κ] in
/-- A composite that is claimed has a fragment that is concerned with its key. -/
theorem Reconcilable.concernedAt (h : s.Reconcilable F ns) {key : String} {c : Composite κ}
    (hc : s.collections.compositeAt ns key = some c) :
    ∃ name, Collections.ConcernedAt F s.collections ns name key := by
  obtain ⟨f, hf, hclaim⟩ := h.claimed c (Store.mem_list_of_get? hc)
  obtain ⟨k, rfl, hget⟩ := Store.mem_list.mp hf
  have hname : c.metadata.anyName = key := congrArg ObjectKey.name (h.composites _ c hc)
  refine ⟨k.name, f, hget, hclaim.imp (fun hl => hname ▸ hl) ?_⟩
  rintro ⟨o, ho, huid⟩
  exact ⟨o.uid, huid, c, hc, o, ho, rfl⟩

/-- **Every pass of a series is done**, and the series makes progress at each of its names. -/
theorem reconcileEach_progress (h₀ : s₀.Reconcilable F ns) (order : List (Instant × String))
    {visited : String → Prop} (hs : s.Undisturbed)
    (h : Collections.Progress F ns s₀.collections visited s.collections) :
    (∀ r ∈ (s.reconcileEach F ns order).1, IsDone r) ∧
      Collections.Progress F ns s₀.collections
        (fun name => visited name ∨ name ∈ order.map Prod.snd)
        (s.reconcileEach F ns order).2.collections := by
  induction order generalizing s visited with
  | nil =>
    exact ⟨fun r hr => absurd hr List.not_mem_nil, h.congr fun name => by simp⟩
  | cons head rest ih =>
    obtain ⟨now, name⟩ := head
    obtain ⟨hresult, hheld, hcalm⟩ := run_of_undisturbed F now hs (F.reconcile now ns name)
    have hstep : IsDone (s.run F now (F.reconcile now ns name)).1 ∧
        Collections.Progress F ns s₀.collections (fun name' => name' = name ∨ visited name')
          (s.run F now (F.reconcile now ns name)).2.collections := by
      rw [hresult, hheld]
      cases hf : s.collections.fragments.objects.get? ⟨ns, name⟩ with
      | none =>
        rw [Collections.run_reconcile_of_absent F now hf]
        exact ⟨rfl, h.visit_absent hf⟩
      | some f =>
        obtain ⟨f₀, hf₀, hbare⟩ := h.origin name f hf
        obtain ⟨key, hlabel, hkey⟩ := h₀.label hf₀
        rw [← Object.label?_eq_of_bare_eq hbare] at hlabel
        obtain ⟨report, s', hrun, hdone, hpass⟩ :=
          Collections.run_reconcile F now h.tidy hf hlabel hkey
        rw [hrun]
        exact ⟨hdone, h.visit hf hlabel hpass⟩
    obtain ⟨hrest, hprogress⟩ := ih hcalm hstep.2
    refine ⟨fun r hr => ?_, hprogress.congr fun name' => ?_⟩
    · rcases List.mem_cons.mp hr with rfl | hr
      · exact hstep.1
      · exact hrest r hr
    · simp only [List.map_cons, List.mem_cons]
      tauto

/-- **Passes over all fragments of a namespace, in any order, bring everything in order.** -/
theorem reconcileEach_converges (F : Family φ κ ι) (ns : String) (s : Stores φ κ)
    (order : List (Instant × String)) (h : s.Reconcilable F ns)
    (hall : ∀ f ∈ s.fragments.store.list ns, f.metadata.anyName ∈ order.map Prod.snd) :
    (∀ r ∈ (s.reconcileEach F ns order).1, IsDone r) ∧
      s.Converged F ns (s.reconcileEach F ns order).2 := by
  obtain ⟨hdone, hprogress⟩ := reconcileEach_progress h order h.undisturbed (.start h.tidy)
  set s' := (s.reconcileEach F ns order).2
  have hvisited : ∀ name f, s.fragments.store.objects.get? ⟨ns, name⟩ = some f →
      name ∈ order.map Prod.snd := by
    intro name f hf
    have hname : f.metadata.anyName = name := congrArg ObjectKey.name (h.fragments _ f hf)
    exact hname ▸ hall f (Store.mem_list_of_get? hf)
  refine ⟨hdone, fun key => ?_, fun key => ?_, fun f hf => ?_⟩
  · exact hprogress.right_of_forall (fun name f hf => Or.inr (hvisited name f hf))
      (fun key c hc => h.concernedAt hc) key
  · exact (hprogress.sameLive.map_bare_live F h.fragments hprogress.tidy.fragments key).symm
  · obtain ⟨k, rfl, hget⟩ := Store.mem_list.mp hf
    obtain ⟨f₀, hf₀, -⟩ := hprogress.origin k.name f hget
    exact hprogress.settled k.name f (Or.inr (hvisited _ f₀ hf₀)) hget

/-- One live fragment, which a composite of another key still lists, and one that is being deleted,
whose composite somebody has emptied. -/
def disordered : Stores RouteSpec RouterSpec where
  fragments.store :=
    let moved := Fragment.ofPathPrefix "moved" "svc-a" "/moved"
    let going := Fragment.ofPathPrefix "going" "svc-b" "/going"
    let marked := going.modifyMetadata ({ · with
      finalizers := some [fragmentFinalizer], deletionTimestamp := some ⟨0, false⟩ })
    (((({} : Store RouteSpec FragmentStatus).seed ⟨0, 0⟩ moved).2).seed ⟨0, 0⟩ marked).2
  composites.store :=
    let moved : OwnerReference :=
      ⟨"v1alpha1", "ConsulServiceRoute", "moved", "uid-moved-1", none, none⟩
    let left : Composite RouterSpec :=
      { metadata :=
          { name := some "svc-old", nameSpace := some "default", ownerReferences := some [moved] }
        spec := ⟨[.ofPathPrefix "moved" "/moved"]⟩ }
    let emptied : Composite RouterSpec :=
      { metadata := { name := some "svc-b", nameSpace := some "default" }, spec := ⟨[]⟩ }
    (((({} : Store RouterSpec Empty).seed ⟨0, 0⟩ left).2).seed ⟨0, 0⟩ emptied).2

theorem reconcileEach_converges_disordered :
    disordered.Reconcilable .routes "default" ∧
      (∀ f ∈ disordered.fragments.store.list "default", f.metadata.anyName ∈ ["going", "moved"]) ∧
      disordered.Converged .routes "default"
        (disordered.reconcileEach .routes "default" [(⟨1, 0⟩, "going"), (⟨2, 0⟩, "moved")]).2 := by
  have h : disordered.Reconcilable .routes "default" :=
    { undisturbed := ⟨fun _ => rfl, fun _ => rfl⟩
      fragments := by decide +kernel
      composites := by decide +kernel
      labelled := by decide +kernel
      unguarded := by decide +kernel
      claimed := by decide +kernel }
  have hall : ∀ f ∈ disordered.fragments.store.list "default",
      f.metadata.anyName ∈ ["going", "moved"] := by decide +kernel
  exact ⟨h, hall, (reconcileEach_converges .routes "default" disordered
    [(⟨1, 0⟩, "going"), (⟨2, 0⟩, "moved")] h hall).2⟩

end Stores

end ConfigMerge
