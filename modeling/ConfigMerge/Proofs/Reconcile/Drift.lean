import ConfigMerge.Proofs.Reconcile.Convergence
import ConfigMerge.Proofs.Reconcile.Interruption
import ConfigMerge.Reconcile.Watch

/-!
# Proofs/Reconcile/Drift — a composite that was changed is restored through its owners

What a merge writes as owners is what the watch of composites reads back: a reference to each live
fragment, of the family's kind and version.  So however a composite has drifted, as long as these
references stay (`Family.Drift`), its event names the live fragments of its key
(`Family.Drift.ownersOf_perm`), and a pass over any one of them merges the composite again
(`Collections.matches_reconciled`).
-/

namespace ConfigMerge

variable {φ κ ι : Type}

/-! ## References that are read back -/

namespace Family

variable (F : Family φ κ ι)

/-- Whether an owner is a fragment of the family, at its version. -/
def isOwn (o : OwnerReference) : Bool :=
  o.kind = F.fragments.kind.name && o.apiVersion = F.fragments.kind.apiVersion

/-- `c'` is `c` after somebody has changed it at will, other than its name, whether it is being
deleted, and its references to the family's fragments. -/
structure Drift (c c' : Composite κ) : Prop where
  key : c'.key = c.key
  isBeingDeleted : c'.metadata.isBeingDeleted = c.metadata.isBeingDeleted
  owners : (c'.metadata.owners.filter F.isOwn).Perm (c.metadata.owners.filter F.isOwn)

variable {F} {key ns : String} {l : List (Fragment φ)} {c c' : Composite κ}

/-- The owners of an expected composite are the fragments, by name, and all the family's own. -/
theorem filter_isOwn_owners_expected
    (h : ∀ f ∈ l, f.metadata.name.isSome ∧ f.metadata.uid.isSome) :
    (F.expected key ns l).metadata.owners.filter F.isOwn =
      (byName l).map fun f => F.referenceTo f.metadata.anyName (f.metadata.uid.getD "") := by
  have hnamed : ∀ f ∈ byName l, f.metadata.name.isSome ∧ f.metadata.uid.isSome := fun f hf =>
    h f ((byName_perm l).mem_iff.mp hf)
  rw [owners_expected, F.filterMap_ownerReference? hnamed, List.filter_eq_self]
  intro o ho
  obtain ⟨f, -, rfl⟩ := List.mem_map.mp ho
  simp [isOwn, referenceTo]

/-- **The event of a drifted composite names the fragments that it was merged from**, each once and
in its own namespace. -/
theorem Drift.ownersOf_perm (h : F.Drift c c') (hmatch : F.Matches key ns l (some c))
    (hnamed : ∀ f ∈ l, f.metadata.name.isSome ∧ f.metadata.uid.isSome) :
    (F.ownersOf c').Perm (l.map fun f => ⟨f.metadata.anyName, c'.metadata.nameSpace⟩) := by
  have howners := h.owners
  rw [hmatch.2.2, filter_isOwn_owners_expected hnamed] at howners
  calc (F.ownersOf c')
      = (c'.metadata.owners.filter F.isOwn).map fun o => ⟨o.name, c'.metadata.nameSpace⟩ := rfl
    List.Perm _ (((byName l).map fun f =>
        F.referenceTo f.metadata.anyName (f.metadata.uid.getD "")).map
          fun o => ⟨o.name, c'.metadata.nameSpace⟩) := howners.map _
    _ = (byName l).map fun f => ⟨f.metadata.anyName, c'.metadata.nameSpace⟩ := List.map_map
    List.Perm _ (l.map fun f => ⟨f.metadata.anyName, c'.metadata.nameSpace⟩) :=
      (byName_perm l).map _

end Family

/-! ## A pass over one of them -/

namespace Collections

variable [DecidableEq κ] {F : Family φ κ ι} {ns name key : String} {s : Collections φ κ}
  {f : Fragment φ}

/-- A pass over a fragment with a key is done. -/
theorem run_reconcile_of_key (now : Instant) (hs : s.Keyed)
    (hf : s.fragments.objects.get? ⟨ns, name⟩ = some f) (hkey : F.aggregationKey f = .ok key) :
    ∃ report, (s.run F now (F.reconcile now ns name)).1 = .ok report ∧
      report.disposition = .done := by
  obtain ⟨outcome, hmerge⟩ : ∃ outcome, Leads F now (fun _ => True) (.ok outcome)
      (s.mergedEach F now ns (s.order ns key f.metadata.uid))
      (F.mergeAll ns key f.metadata.uid).run s := leads_mergeAll hs fun _ _ _ => trivial
  have hfragments : (s.mergedEach F now ns (s.order ns key f.metadata.uid)).fragments =
      s.fragments := mergedEach_fragments s _
  obtain ⟨report, t, x, hrecord, hdone, -⟩ :=
    run_recordMerge F now (hfragments ▸ hs.fragments) (hfragments ▸ hf) outcome
  refine ⟨report, ?_, hdone⟩
  rw [run_reconcile_of_merged F now hf hkey hmerge.run_eq, hrecord]

/-- **A pass over a live fragment leaves the composite of its key right.** -/
theorem matches_reconciled (now : Instant) (hs : s.Sound) (hf : f ∈ F.live s.fragments ns key)
    (hkey : key ≠ "") :
    F.Matches key ns (F.live s.fragments ns key)
      ((s.reconciled F now ns f.metadata.anyName).compositeAt ns key) := by
  obtain ⟨hget, hlabel, -⟩ := (F.mem_live_iff_get? hs.fragments).mp hf
  have hkept : KeptAt F ns (s.mergedEach F now ns (s.order ns key f.metadata.uid)) key :=
    keptAt_mergedEach hs List.mem_cons_self
  rw [KeptAt, mergedEach_fragments] at hkept
  rw [reconciled_of_key F now hget (F.aggregationKey_eq_ok hlabel hkey)]
  exact hkept.resolve_right fun hgone => List.ne_nil_of_mem hf hgone.1

end Collections

/-! ## After drift -/

/-- Stores whose composites can be restored through their owners: everything is stored under its own
key, fragments can be referred to, and no composite is being deleted. -/
structure Stores.Watchable (ns : String) (s : Stores φ κ) : Prop where
  undisturbed : s.Undisturbed
  fragments : s.fragments.store.Keyed
  composites : s.composites.store.Keyed
  named : ∀ f ∈ s.fragments.store.list ns, f.metadata.name.isSome ∧ f.metadata.uid.isSome
  staying : ∀ k c, s.composites.store.objects.get? k = some c →
    c.metadata.isBeingDeleted = false

namespace Stores

variable {F : Family φ κ ι} {ns key : String} {s : Stores φ κ} {c c' : Composite κ}

theorem Watchable.named_live (h : s.Watchable ns) :
    ∀ f ∈ F.live s.fragments.store ns key, f.metadata.name.isSome ∧ f.metadata.uid.isSome := by
  intro f hf
  exact h.named f (Store.mem_list_of_get? ((F.mem_live_iff_get? h.fragments).mp hf).1)

/-- What a pass finds after drift is sound. -/
theorem Watchable.sound_write (h : s.Watchable ns)
    (hc : s.composites.store.objects.get? ⟨ns, key⟩ = some c) (hdrift : F.Drift c c') :
    Collections.Sound { s.collections with
      composites := (s.composites.store.write ⟨ns, key⟩ c').2 } := by
  have hstays : ∀ k o, s.composites.store.objects.get? k = some o → ¬ o.IsGone := by
    intro k o ho hgone
    exact absurd (hgone.1.symm.trans (h.staying k o ho)) (by decide)
  refine ⟨h.fragments, Store.Sound.changes ⟨h.composites, hstays⟩ (Store.changes_write _ _ _) ?_⟩
  rintro _ ⟨rfl⟩
  refine ⟨hdrift.key.trans (h.composites _ c hc), fun hgone => ?_⟩
  have hdeleted : c.metadata.isBeingDeleted = true := hdrift.isBeingDeleted.symm.trans hgone.1
  exact absurd (hdeleted.symm.trans (h.staying _ c hc)) (by decide)

variable [DecidableEq κ]

/-- A pass over a live fragment is done, and leaves of the composite of its key what the live
fragments call for. -/
theorem run_reconcile_of_live (hcalm : s.Undisturbed) (hs : s.collections.Sound)
    {f : Fragment φ} (hf : f ∈ F.live s.fragments.store ns key) (hkey : key ≠ "") (now : Instant) :
    let pass := s.run F now (F.reconcile now ns f.metadata.anyName)
    IsDone pass.1 ∧ ∃ restored, pass.2.composites.store.objects.get? ⟨ns, key⟩ = some restored ∧
      restored.spec = (F.expected key ns (F.live s.fragments.store ns key)).spec ∧
      restored.metadata.owners =
        (F.expected key ns (F.live s.fragments.store ns key)).metadata.owners := by
  intro pass
  obtain ⟨hget, hlabel, -⟩ := (F.mem_live_iff_get? hs.fragments).mp hf
  obtain ⟨hresult, -⟩ := run_of_undisturbed F now hcalm (F.reconcile now ns f.metadata.anyName)
  obtain ⟨hheld, -⟩ := run_reconcile_undisturbed F now ns f.metadata.anyName hcalm hs
  constructor
  · obtain ⟨report, hreport, hdone⟩ := Collections.run_reconcile_of_key (F := F) now hs.keyed hget
      (F.aggregationKey_eq_ok hlabel hkey)
    rw [hresult, hreport]
    exact hdone
  · have hmatch : F.Matches key ns (F.live s.fragments.store ns key)
        (pass.2.collections.compositeAt ns key) :=
      hheld ▸ Collections.matches_reconciled now hs hf hkey
    cases hrestored : pass.2.collections.compositeAt ns key with
    | none =>
      rw [hrestored] at hmatch
      exact absurd hmatch (List.ne_nil_of_mem hf)
    | some restored =>
      rw [hrestored] at hmatch
      exact ⟨restored, hrestored, hmatch.2⟩

/-- **However a composite drifts, its owners restore it**: as long as it keeps its references to the
family's fragments, they name exactly the live fragments of its key, each once and in its namespace,
and one pass over any single one of them leaves the spec and the owners that these call for. -/
theorem reconcile_restores_drifted (F : Family φ κ ι) (h : s.Watchable ns) (hkey : key ≠ "")
    (hc : s.composites.store.objects.get? ⟨ns, key⟩ = some c)
    (hmatch : F.Matches key ns (F.live s.fragments.store ns key) (some c))
    {change : Composite κ → Composite κ} (hdrift : F.Drift c (change c)) :
    let live := F.live s.fragments.store ns key
    ∃ drifted t, s.composites.store.edit ⟨ns, key⟩ change = some (drifted, t) ∧
      (F.ownersOf drifted).Perm
        (live.map fun f => ⟨f.metadata.anyName, drifted.metadata.nameSpace⟩) ∧
      (F.ownersOf drifted).Nodup ∧ drifted.metadata.effectiveNamespace = ns ∧
      ∀ owner ∈ F.ownersOf drifted, ∀ now,
        let pass := { s with composites.store := t }.run F now (F.reconcile now ns owner.name)
        IsDone pass.1 ∧ ∃ restored, pass.2.composites.store.objects.get? ⟨ns, key⟩ = some restored ∧
          restored.spec = (F.expected key ns live).spec ∧
          restored.metadata.owners = (F.expected key ns live).metadata.owners := by
  intro live
  have howners := hdrift.ownersOf_perm hmatch h.named_live
  have hsound := h.sound_write hc hdrift
  refine ⟨_, _, Store.edit_of_stored hc change, howners, ?_, ?_, fun owner howner now => ?_⟩
  · refine howners.nodup_iff.mpr (List.Pairwise.map _ ?_ (F.namesDiffer_live h.fragments ns key))
    intro f g hne heq
    exact hne (congrArg FragmentRef.name heq)
  · exact congrArg ObjectKey.nameSpace (hdrift.key.trans (h.composites _ c hc))
  · obtain ⟨f, hf, rfl⟩ := List.mem_map.mp (howners.mem_iff.mp howner)
    have hcalm : Undisturbed { s with composites.store := (s.composites.store.write ⟨ns, key⟩
        (change c)).2 } := ⟨h.undisturbed.fragments, h.undisturbed.composites⟩
    exact run_reconcile_of_live hcalm hsound hf hkey now

/-- Two routes of a service and the router that they call for. -/
def routed : Stores RouteSpec RouterSpec :=
  let fragments : Store RouteSpec FragmentStatus :=
    (((({} : Store RouteSpec FragmentStatus).seed ⟨0, 0⟩
      (Fragment.ofPathPrefix "api" "shop" "/api")).2).seed ⟨0, 0⟩
      (Fragment.ofPathPrefix "web" "shop" "/")).2
  let router : Composite RouterSpec :=
    Family.routes.expected "shop" "default" (Family.routes.live fragments "default" "shop")
  { fragments.store := fragments
    composites.store := (({} : Store RouterSpec Empty).seed ⟨0, 0⟩ router).2 }

/-- A router without its routes, and with an owner of another kind. -/
def emptied (c : Composite RouterSpec) : Composite RouterSpec :=
  let other : OwnerReference := ⟨"v1", "ConfigMap", "web", "uid-web-9", none, none⟩
  { c with
    spec := ⟨[]⟩
    metadata := { c.metadata with ownerReferences := some (other :: c.metadata.owners) } }

theorem drift_emptied (c : Composite RouterSpec) : Family.routes.Drift c (emptied c) where
  key := rfl
  isBeingDeleted := rfl
  owners := .of_eq (List.filter_cons_of_neg (by decide))

theorem reconcile_restores_drifted_emptied :
    ∃ drifted t, routed.composites.store.edit ⟨"default", "shop"⟩ emptied = some (drifted, t) ∧
      ((Family.routes.ownersOf drifted).map (·.name)).Perm ["api", "web"] ∧
      ∀ name ∈ ["api", "web"], ∃ restored,
        ({ routed with composites.store := t }.run .routes ⟨1, 0⟩
            (Family.routes.reconcile ⟨1, 0⟩ "default" name)).2.composites.store.objects.get?
          ⟨"default", "shop"⟩ = some restored ∧
        restored.spec = ⟨[.ofPathPrefix "api" "/api", .ofPathPrefix "web" "/"]⟩ := by
  have hstaying : ∀ e ∈ routed.composites.store.objects.entries,
      e.2.metadata.isBeingDeleted = false := by decide +kernel
  have h : routed.Watchable "default" :=
    { undisturbed := ⟨fun _ => rfl, fun _ => rfl⟩
      fragments := by decide +kernel
      composites := by decide +kernel
      named := by decide +kernel
      staying := fun k c hc => hstaying (k, c) (SortedMap.get?_eq_some_iff.mp hc) }
  have hmatch : Family.routes.Matches "shop" "default"
      (Family.routes.live routed.fragments.store "default" "shop")
      (routed.composites.store.objects.get? ⟨"default", "shop"⟩) := by decide +kernel
  obtain ⟨c, hc⟩ : ∃ c, routed.composites.store.objects.get? ⟨"default", "shop"⟩ = some c :=
    Option.isSome_iff_exists.mp (by decide +kernel)
  obtain ⟨drifted, t, hedit, howners, -, -, hpass⟩ := reconcile_restores_drifted .routes h
    (by decide) hc (hc ▸ hmatch) (drift_emptied c)
  have hnames := howners.map FragmentRef.name
  rw [List.map_map] at hnames
  refine ⟨drifted, t, hedit, hnames, fun name hname => ?_⟩
  obtain ⟨owner, howner, rfl⟩ := List.mem_map.mp (hnames.mem_iff.mpr hname)
  obtain ⟨-, restored, hrestored, hspec, -⟩ := hpass owner howner ⟨1, 0⟩
  exact ⟨restored, hrestored, hspec.trans (by decide +kernel)⟩

end Stores

end ConfigMerge
