import ConfigMerge.Proofs.Merge.Resume
import ConfigMerge.Proofs.Reconcile.Idle

/-!
# Proofs/Reconcile/Membership — which composites list a fragment after a pass that was done

Where fragments are told apart by their uids, the composite that live fragments call for lists each of
them at one position and holds its item there (`Family.listsOnce_of_matches`).  After a pass that was
done the composites that listed its fragment are right, so only that of the fragment's key can still
list it, and only when the fragment is live (`Collections.Reconciled.key_of_lists`).
-/

namespace ConfigMerge

variable {σ τ φ κ ι : Type}

/-! ## Uids tell apart -/

/-- Every object has a name and a uid, and no two of them the same uid. -/
structure Store.Identified (t : Store σ τ) : Prop where
  named : ∀ k o, t.objects.get? k = some o → o.metadata.name.isSome ∧ o.metadata.uid.isSome
  distinct : ∀ k k' o o', t.objects.get? k = some o → t.objects.get? k' = some o' →
    o.metadata.uid = o'.metadata.uid → k = k'

theorem Store.identified_iff {t : Store σ τ} :
    t.Identified ↔
      (∀ e ∈ t.objects.entries, e.2.metadata.name.isSome ∧ e.2.metadata.uid.isSome) ∧
      ∀ e ∈ t.objects.entries, ∀ e' ∈ t.objects.entries,
        e.2.metadata.uid = e'.2.metadata.uid → e.1 = e'.1 := by
  simp only [← SortedMap.get?_eq_some_iff, Prod.forall]
  exact ⟨fun h => ⟨h.named, fun k o ho k' o' => h.distinct k k' o o' ho⟩,
    fun h => ⟨h.1, fun k k' o o' ho ho' => h.2 k o ho k' o' ho'⟩⟩

/-- Stored objects with one uid are one object. -/
theorem Store.Identified.eq_of_uid {t : Store σ τ} (h : t.Identified) {k k' : ObjectKey}
    {o o' : Object σ τ} (ho : t.objects.get? k = some o) (ho' : t.objects.get? k' = some o')
    (huid : o.metadata.uid = o'.metadata.uid) : o = o' := by
  obtain rfl := h.distinct k k' o o' ho ho' huid
  exact Option.some.inj (ho.symm.trans ho')

instance (t : Store σ τ) : Decidable t.Identified := decidable_of_iff _ Store.identified_iff.symm

/-! ## The position of a fragment -/

namespace Family

variable {F : Family φ κ ι} {key ns uid : String} {l : List (Fragment φ)}

/-- A composite lists a uid at one position among its owners, and has there an item. -/
def ListsOnce (F : Family φ κ ι) (uid : String) (item : ι) (c : Composite κ) : Prop :=
  ∃ i : Nat, (∀ j, (c.metadata.owners[j]?).map OwnerReference.uid = some uid ↔ j = i) ∧
    (F.items c.spec)[i]? = some item

/-- The uid at a position is that of the fragment there, by name. -/
theorem uid_getElem?_owners {c : Composite κ} (hc : F.Matches key ns l (some c))
    (hnamed : ∀ g ∈ l, g.metadata.name.isSome ∧ g.metadata.uid.isSome) (i : Nat) :
    (c.metadata.owners[i]?).map (fun o => some o.uid) =
      ((byName l)[i]?).map (·.metadata.uid) := by
  have hlisted : c.metadata.owners.map (fun o => some o.uid) = (byName l).map (·.metadata.uid) := by
    have hnamed' : ∀ g ∈ byName l, g.metadata.name.isSome ∧ g.metadata.uid.isSome := fun g hg =>
      hnamed g ((byName_perm l).mem_iff.mp hg)
    rw [hc.2.2, owners_expected, F.filterMap_ownerReference? hnamed', List.map_map]
    refine List.map_congr_left fun g hg => ?_
    obtain ⟨uid, huid⟩ := Option.isSome_iff_exists.mp (hnamed' g hg).2
    simp only [Function.comp_apply, referenceTo, huid, Option.getD_some]
  rw [← List.getElem?_map, hlisted, List.getElem?_map]

/-- **A composite that agrees with fragments lists each of them once**, when the uids differ, and
holds its item at the same position. -/
theorem listsOnce_of_matches {c : Composite κ} (hc : F.Matches key ns l (some c))
    (hnodup : l.Nodup) (hnamed : ∀ g ∈ l, g.metadata.name.isSome ∧ g.metadata.uid.isSome)
    (hdistinct : ∀ g ∈ l, ∀ g' ∈ l, g.metadata.uid = g'.metadata.uid → g = g')
    {f : Fragment φ} (hf : f ∈ l) (huid : f.metadata.uid = some uid) :
    F.ListsOnce uid (F.item f.spec) c := by
  have hperm := byName_perm l
  obtain ⟨i, hi⟩ := List.mem_iff_getElem?.mp (hperm.mem_iff.mpr hf)
  refine ⟨i, fun j => ?_, ?_⟩
  · have hat := uid_getElem?_owners hc hnamed j
    constructor
    · intro hj
      obtain ⟨o, ho, rfl⟩ := Option.map_eq_some_iff.mp hj
      rw [ho] at hat
      obtain ⟨g, hg, hguid⟩ := Option.map_eq_some_iff.mp hat.symm
      have hmem : g ∈ l := hperm.mem_iff.mp (List.mem_of_getElem? hg)
      obtain rfl : f = g := hdistinct f hf g hmem (huid.trans hguid.symm)
      obtain ⟨hlt, -⟩ := List.getElem?_eq_some_iff.mp hi
      have hinj := List.getElem?_inj (j := j) hlt (hperm.nodup_iff.mpr hnodup)
      exact (hinj.mp (hi.trans hg.symm)).symm
    · rintro rfl
      rw [hi] at hat
      obtain ⟨o, ho, hou⟩ := Option.map_eq_some_iff.mp hat
      rw [ho]
      exact hou.trans huid
  · rw [hc.2.1, items_expected, List.getElem?_map, hi]
    rfl

end Family

/-! ## After a pass -/

namespace Collections.Reconciled

variable {F : Family φ κ ι} {ns name key uid : String} {f : Fragment φ} {s s' : Collections φ κ}

/-- A pass changes nothing that counts of any fragment, and adds none. -/
theorem origin (h : Reconciled F ns name key f s s')
    (hf : s.fragments.objects.get? ⟨ns, name⟩ = some f) {k : ObjectKey} {g : Fragment φ}
    (hg : s'.fragments.objects.get? k = some g) :
    ∃ g₀, s.fragments.objects.get? k = some g₀ ∧ g.bare = g₀.bare := by
  by_cases hk : k = ⟨ns, name⟩
  · subst hk
    exact ⟨f, hf, (h.settled g hg).1⟩
  · exact ⟨g, (h.otherFragments k hk).symm.trans hg, rfl⟩

/-- …so fragments stay identified. -/
theorem identified (h : Reconciled F ns name key f s s')
    (hf : s.fragments.objects.get? ⟨ns, name⟩ = some f) (hs : s.fragments.Identified) :
    s'.fragments.Identified where
  named k g hg := by
    obtain ⟨g₀, hg₀, hbare⟩ := h.origin hf hg
    have hnamed : g₀.bare.metadata.name.isSome ∧ g₀.bare.metadata.uid.isSome := hs.named k g₀ hg₀
    rw [← hbare] at hnamed
    exact hnamed
  distinct k k' g g' hg hg' huid := by
    obtain ⟨g₀, hg₀, hbare⟩ := h.origin hf hg
    obtain ⟨g₀', hg₀', hbare'⟩ := h.origin hf hg'
    refine hs.distinct k k' g₀ g₀' hg₀ hg₀' ?_
    rw [← Object.uid_eq_of_bare_eq hbare, huid, Object.uid_eq_of_bare_eq hbare']

/-- **Only the composite of its own key lists a fragment after its pass**, and only when the fragment
is live. -/
theorem key_of_lists (h : Reconciled F ns name key f s s') (hs : s.fragments.Identified)
    (hf : s.fragments.objects.get? ⟨ns, name⟩ = some f)
    (hlabel : f.metadata.label? F.keyLabel = some key) (huid : f.metadata.uid = some uid)
    {key' : String} (hlists : s'.Lists ns uid key') :
    key' = key ∧ f.metadata.isBeingDeleted = false := by
  by_cases hc : s.Concerns ns key f key'
  · obtain ⟨c, hget, o, ho, rfl⟩ := hlists
    have hright := h.right key' hc
    rw [Right, hget] at hright
    obtain ⟨-, -, howners⟩ := hright
    rw [howners] at ho
    obtain ⟨g, hg, howner⟩ := F.mem_owners_expected.mp ho
    obtain ⟨hstored, hglabel, hglive⟩ := (F.mem_live_iff_get? h.tidy.fragments).mp hg
    obtain ⟨g₀, hg₀, hbare⟩ := h.origin hf hstored
    -- the uid says that it is the fragment of the pass
    have hsame : g₀.metadata.uid = f.metadata.uid := by
      rw [← Object.uid_eq_of_bare_eq hbare, (F.of_ownerReference?_eq howner).2, huid]
    obtain rfl := hs.eq_of_uid hg₀ hf hsame
    rw [Object.label?_eq_of_bare_eq hbare, hlabel] at hglabel
    rw [Object.isBeingDeleted_eq_of_bare_eq hbare] at hglive
    exact ⟨(Option.some.inj hglabel).symm, hglive⟩
  · rw [Lists, h.elsewhere key' hc] at hlists
    exact absurd (Or.inr ⟨uid, huid, hlists⟩) hc

/-- A live fragment is among the live ones of its key after the pass, and the same in all that counts. -/
theorem exists_live (h : Reconciled F ns name key f s s')
    (hlabel : f.metadata.label? F.keyLabel = some key)
    (hlive : f.metadata.isBeingDeleted = false) :
    ∃ f' ∈ F.live s'.fragments ns key, f'.bare = f.bare := by
  cases hf' : s'.fragments.objects.get? ⟨ns, name⟩ with
  | none =>
    rw [h.gone hf'] at hlive
    cases hlive
  | some f' =>
    have hbare := (h.settled f' hf').1
    have hkey : f'.key = ⟨ns, name⟩ := h.tidy.fragments _ f' hf'
    have hname : f'.metadata.anyName = name := congrArg ObjectKey.name hkey
    refine ⟨f', (F.mem_live_iff_get? h.tidy.fragments).mpr ⟨hname ▸ hf', ?_, ?_⟩, hbare⟩
    · exact (Object.label?_eq_of_bare_eq hbare _).trans hlabel
    · rw [Object.isBeingDeleted_eq_of_bare_eq hbare, hlive]

/-- **The composite of the key lists a live fragment once**, with its item at the same position. -/
theorem listsOnce (h : Reconciled F ns name key f s s') (hs : s.fragments.Identified)
    (hf : s.fragments.objects.get? ⟨ns, name⟩ = some f)
    (hlabel : f.metadata.label? F.keyLabel = some key) (huid : f.metadata.uid = some uid)
    (hlive : f.metadata.isBeingDeleted = false) :
    ∃ c, s'.compositeAt ns key = some c ∧ F.ListsOnce uid (F.item f.spec) c := by
  have hidentified := h.identified hf hs
  obtain ⟨f', hmem, hbare⟩ := h.exists_live hlabel hlive
  have hstored {g : Fragment φ} (hg : g ∈ F.live s'.fragments ns key) :=
    ((F.mem_live_iff_get? h.tidy.fragments).mp hg).1
  have hright := h.right key (Or.inl rfl)
  rw [Right] at hright
  cases hc : s'.compositeAt ns key with
  | none =>
    rw [hc] at hright
    rw [show F.live s'.fragments ns key = [] from hright] at hmem
    cases hmem
  | some c =>
    rw [hc] at hright
    have honce := Family.listsOnce_of_matches hright (F.nodup_live h.tidy.fragments ns key)
      (fun g hg => hidentified.named _ g (hstored hg))
      (fun g hg g' hg' => hidentified.eq_of_uid (hstored hg) (hstored hg')) hmem
      ((Object.uid_eq_of_bare_eq hbare).trans huid)
    exact ⟨c, rfl, Object.spec_eq_of_bare_eq hbare ▸ honce⟩

end Collections.Reconciled

namespace Stores

variable [DecidableEq κ]

/-- **Membership after a pass that was done**, whatever the composites were: the composite of its key
lists a live fragment once, with its item at the same position, and no other composite of the
namespace lists it; none lists a fragment that is being deleted, which has lost its finalizer. -/
theorem reconcile_membership (F : Family φ κ ι) (now : Instant) (ns name : String) (s : Stores φ κ)
    (hfragments : s.fragments.store.Keyed) (hcomposites : s.composites.store.Keyed)
    (hidentified : s.fragments.store.Identified)
    (hunguarded : ∀ c ∈ s.composites.store.list ns,
      c.metadata.finalizerList = [] ∧ c.metadata.isBeingDeleted = false)
    {f : Fragment φ} (hf : s.fragments.store.objects.get? ⟨ns, name⟩ = some f) {key : String}
    (hlabel : f.metadata.label? F.keyLabel = some key)
    (hdone : IsDone (s.run F now (F.reconcile now ns name)).1) :
    let s' := (s.run F now (F.reconcile now ns name)).2.collections
    ∃ uid, f.metadata.uid = some uid ∧
      if f.metadata.isBeingDeleted then
        (∀ key', ¬ s'.Lists ns uid key') ∧
          ∀ f', s'.fragments.objects.get? ⟨ns, name⟩ = some f' →
            f'.metadata.hasFinalizer fragmentFinalizer = false
      else
        (∃ c, s'.compositeAt ns key = some c ∧ F.ListsOnce uid (F.item f.spec) c) ∧
          ∀ key', s'.Lists ns uid key' → key' = key := by
  intro s'
  have htidy : s.collections.Tidy ns := .of_list hfragments hcomposites hunguarded
  obtain ⟨hresult, hheld⟩ := collections_of_isDone F now hdone
  rw [hresult] at hdone
  obtain ⟨key₀, hlabel₀, hkey⟩ := Collections.label_of_isDone hf hdone
  obtain rfl : key₀ = key := Option.some.inj (hlabel₀.symm.trans hlabel)
  obtain ⟨report, t, hrun, -, hpass⟩ := Collections.run_reconcile F now htidy hf hlabel hkey
  obtain rfl : s' = t := hheld.trans (congrArg Prod.snd hrun)
  obtain ⟨uid, huid⟩ := Option.isSome_iff_exists.mp (hidentified.named _ f hf).2
  refine ⟨uid, huid, ?_⟩
  have honly {key' : String} (hlists : s'.Lists ns uid key') :=
    hpass.key_of_lists hidentified hf hlabel huid hlists
  split
  next hdel =>
    refine ⟨fun key' hlists => ?_, fun f' hf' => ?_⟩
    · rw [(honly hlists).2] at hdel
      cases hdel
    · obtain ⟨hbare, hsettled⟩ := hpass.settled f' hf'
      rw [hsettled.1, Object.isBeingDeleted_eq_of_bare_eq hbare, hdel]
      rfl
  next hlive =>
    have hlive' : f.metadata.isBeingDeleted = false := by simpa using hlive
    exact ⟨hpass.listsOnce hidentified hf hlabel huid hlive', fun key' hlists => (honly hlists).1⟩

/-- The pass that moved a fragment from one composite to another one. -/
theorem reconcile_membership_moved :
    let s' := (disordered.run .routes ⟨1, 0⟩
      (Family.routes.reconcile ⟨1, 0⟩ "default" "moved")).2.collections
    disordered.collections.staleNames "default" "svc-a" (some "uid-moved-1") = ["svc-old"] ∧
    (∃ c item, s'.compositeAt "default" "svc-a" = some c ∧
      Family.routes.ListsOnce "uid-moved-1" item c) ∧
    ∀ key', s'.Lists "default" "uid-moved-1" key' → key' = "svc-a" := by
  intro s'
  have hfacts : (disordered.fragments.store.objects.get? ⟨"default", "moved"⟩).map
      (fun f => (f.metadata.label? Family.routes.keyLabel, f.metadata.uid,
        f.metadata.isBeingDeleted)) = some (some "svc-a", some "uid-moved-1", false) := by
    decide +kernel
  obtain ⟨f, hf, hmeta⟩ := Option.map_eq_some_iff.mp hfacts
  obtain ⟨hlabel, huid, hlive⟩ : f.metadata.label? Family.routes.keyLabel = some "svc-a" ∧
      f.metadata.uid = some "uid-moved-1" ∧ f.metadata.isBeingDeleted = false := by
    simpa using hmeta
  have hmember := reconcile_membership .routes ⟨1, 0⟩ "default" "moved" disordered
    (by decide +kernel) (by decide +kernel) (by decide +kernel) (by decide +kernel) hf hlabel
    (by decide +kernel)
  obtain ⟨uid, huid', hplace⟩ := hmember
  obtain rfl : uid = "uid-moved-1" := Option.some.inj (huid'.symm.trans huid)
  rw [hlive] at hplace
  obtain ⟨⟨c, hc, honce⟩, hothers⟩ := hplace
  exact ⟨by decide +kernel, ⟨c, _, hc, honce⟩, hothers⟩

end Stores

end ConfigMerge
