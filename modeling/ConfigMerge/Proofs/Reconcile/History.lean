import ConfigMerge.Proofs.Reconcile.Convergence

/-!
# Proofs/Reconcile/History — users' operations on fragments, mixed with passes

A `History` runs users' operations on the fragments of a namespace and whole passes, in any order.
It keeps the names of the fragments that were touched and not reconciled since, and whether a
deletion request ever dropped a fragment at once that a composite listed.
-/

namespace ConfigMerge

variable {φ κ ι : Type}

/-! ## Histories -/

/-- A user's operation on a fragment of the namespace. -/
inductive UserOperation (φ : Type) where
  | create (f : Fragment φ)
  | edit (name : String) (spec : φ)
  | relabel (name key : String)
  | requestDeletion (name : String)

namespace UserOperation

/-- The name of the fragment. -/
def name : UserOperation φ → String
  | .create f => f.metadata.anyName
  | .edit name _ | .relabel name _ | .requestDeletion name => name

/-- A fragment is created in the namespace with a name, and only labels with a value are set. -/
def Proper (F : Family φ κ ι) (ns : String) : UserOperation φ → Prop
  | .create f => f.metadata.name.isSome ∧ f.metadata.effectiveNamespace = ns ∧
      (f.metadata.label? F.keyLabel).getD "" ≠ ""
  | .relabel _ key => key ≠ ""
  | .edit .. | .requestDeletion _ => True

instance (F : Family φ κ ι) (ns : String) : DecidablePred (Proper F ns)
  | .create _ => inferInstanceAs (Decidable (_ ∧ _ ∧ _))
  | .relabel _ key => inferInstanceAs (Decidable (key ≠ ""))
  | .edit .. | .requestDeletion _ => inferInstanceAs (Decidable True)

/-- The fragments after an operation, or nothing when the store refuses it. -/
def apply (F : Family φ κ ι) (ns : String) (now : Instant) (s : Store φ FragmentStatus) :
    UserOperation φ → Option (Store φ FragmentStatus)
  | .create f => (s.create now f).toOption.map (·.2)
  | .edit name spec => (s.edit ⟨ns, name⟩ ({ · with spec })).map (·.2)
  | .relabel name key =>
    (s.edit ⟨ns, name⟩ (·.modifyMetadata (·.withLabel F.keyLabel key))).map (·.2)
  | .requestDeletion name =>
    (s.objects.get? ⟨ns, name⟩).map fun _ => s.requestDeletion now ⟨ns, name⟩

end UserOperation

/-- An operation, or a pass over the fragment of a name. -/
inductive Event (φ : Type) where
  | operate (operation : UserOperation φ)
  | pass (name : String)

/-- The operations among the events are proper. -/
def Event.Proper (F : Family φ κ ι) (ns : String) : Event φ → Prop
  | .operate operation => operation.Proper F ns
  | .pass _ => True

instance (F : Family φ κ ι) (ns : String) : DecidablePred (Event.Proper F ns)
  | .operate operation => inferInstanceAs (Decidable (operation.Proper F ns))
  | .pass _ => inferInstanceAs (Decidable True)

/-- Where a run of events stands. -/
structure History (φ κ : Type) where
  stores : Stores φ κ
  unsettled : List String := []
  orphaned : Bool := false

/-- The operation drops a fragment at once that a composite of the namespace lists. -/
def Stores.orphans (s : Stores φ κ) (ns : String) : UserOperation φ → Bool
  | .requestDeletion name =>
    (s.fragments.store.objects.get? ⟨ns, name⟩).any fun f =>
      f.metadata.finalizerList.isEmpty && (s.composites.store.list ns).any fun c =>
        c.metadata.owners.any fun o => f.metadata.uid = some o.uid
  | _ => false

namespace History

variable [DecidableEq κ] (F : Family φ κ ι) (ns : String)

/-- One event at some time.  A refused operation touches nothing; a pass that is done settles its
fragment. -/
def step (h : History φ κ) (now : Instant) : Event φ → History φ κ
  | .operate operation =>
    match operation.apply F ns now h.stores.fragments.store with
    | none => h
    | some fragments =>
      { stores := { h.stores with fragments := { h.stores.fragments with store := fragments } }
        unsettled := operation.name :: h.unsettled
        orphaned := h.orphaned || h.stores.orphans ns operation }
  | .pass name =>
    let (result, stores) := h.stores.run F now (F.reconcile now ns name)
    { h with
      stores
      unsettled := if IsDone result then h.unsettled.filter (· ≠ name) else h.unsettled }

/-- A run of events. -/
def run (h : History φ κ) (events : List (Instant × Event φ)) : History φ κ :=
  events.foldl (fun h e => h.step F ns e.1 e.2) h

end History

/-- Nothing is stored, and nothing will be refused. -/
structure Stores.Fresh (s : Stores φ κ) : Prop where
  undisturbed : s.Undisturbed
  fragments : ∀ k, s.fragments.store.objects.get? k = none
  composites : ∀ k, s.composites.store.objects.get? k = none

/-! ## What an operation does -/

/-- A stored fragment with a name, a uid and a key. -/
structure Family.Named (F : Family φ κ ι) (name : String) (f : Fragment φ) : Prop where
  name : f.metadata.name = some name
  uid : f.metadata.uid.isSome
  label : (f.metadata.label? F.keyLabel).getD "" ≠ ""

theorem Metadata.label?_withLabel (m : Metadata) (label value : String) :
    (m.withLabel label value).label? label = some value :=
  SortedMap.get?_insert_self _ _ _

namespace UserOperation

variable {F : Family φ κ ι} {ns : String} {now : Instant} {s t : Store φ FragmentStatus}

theorem of_edit {k : ObjectKey} {change : Fragment φ → Fragment φ}
    (h : (s.edit k change).map (·.2) = some t) :
    ∃ f, s.objects.get? k = some f ∧ t = (s.write k (change f)).2 := by
  simp only [Store.edit, Option.map_map, Option.map_eq_some_iff] at h
  obtain ⟨f, hf, rfl⟩ := h
  exact ⟨f, hf, rfl⟩

/-- **An operation changes one fragment**, and leaves one with a name, a uid and a key or none. -/
theorem changes_of_apply {op : UserOperation φ} (h : op.apply F ns now s = some t)
    (hs : s.Keyed) (hop : op.Proper F ns)
    (hnamed : ∀ f, s.objects.get? ⟨ns, op.name⟩ = some f → F.Named op.name f) :
    ∃ x, s.Changes t ⟨ns, op.name⟩ x ∧
      ∀ f, x = some f → f.key = ⟨ns, op.name⟩ ∧ F.Named op.name f := by
  cases op with
  | create f =>
    obtain ⟨hname, hns, hlabel⟩ := hop
    have hkey : f.key = ⟨ns, f.metadata.anyName⟩ := by rw [← hns]; rfl
    cases hc : s.create now f with
    | error e => simp [apply, hc, Except.toOption] at h
    | ok r =>
      obtain ⟨o, s'⟩ := r
      obtain ⟨-, rfl⟩ := Store.of_create_eq_ok hc
      obtain rfl : (s.seed now f).2 = t := by simpa [apply, hc, Except.toOption] using h
      refine ⟨_, hkey ▸ Store.changes_seed s now f, fun g hg => ?_⟩
      obtain rfl := Option.some.inj hg
      refine ⟨hkey, ?_, rfl, hlabel⟩
      obtain ⟨name, hname⟩ := Option.isSome_iff_exists.mp hname
      change f.metadata.name = some f.metadata.anyName
      rw [Metadata.anyName, hname, Option.getD_some]
  | edit name spec =>
    obtain ⟨f, hf, rfl⟩ := of_edit h
    refine ⟨_, Store.changes_write s _ _, fun g hg => ?_⟩
    obtain rfl := Option.some.inj hg
    exact ⟨hs _ f hf, (hnamed f hf).name, (hnamed f hf).uid, (hnamed f hf).label⟩
  | relabel name key =>
    obtain ⟨f, hf, rfl⟩ := of_edit h
    refine ⟨_, Store.changes_write s _ _, fun g hg => ?_⟩
    obtain rfl := Option.some.inj hg
    refine ⟨hs _ f hf, (hnamed f hf).name, (hnamed f hf).uid, ?_⟩
    change ((f.metadata.withLabel F.keyLabel key).label? F.keyLabel).getD "" ≠ ""
    rw [Metadata.label?_withLabel]
    exact hop
  | requestDeletion name =>
    obtain ⟨f, hf, rfl⟩ := Option.map_eq_some_iff.mp h
    by_cases hfin : f.metadata.finalizerList = []
    · rw [Store.requestDeletion_of_unguarded now hf hfin]
      exact ⟨none, Store.changes_erase s _, by simp⟩
    · rw [Store.requestDeletion_of_guarded now hf hfin]
      split
      · refine ⟨some f, hf ▸ Store.changes_refl s _, fun g hg => ?_⟩
        obtain rfl := Option.some.inj hg
        exact ⟨hs _ _ hf, hnamed _ hf⟩
      · refine ⟨_, Store.changes_write s _ _, fun g hg => ?_⟩
        obtain rfl := Option.some.inj hg
        exact ⟨hs _ f hf, (hnamed f hf).name, (hnamed f hf).uid, (hnamed f hf).label⟩

/-- A fragment outlasts an operation on it with its uid, unless its deletion is requested before it
is guarded. -/
theorem uid_of_apply {op : UserOperation φ} (h : op.apply F ns now s = some t)
    (hop : op.Proper F ns) {f : Fragment φ} (hf : s.objects.get? ⟨ns, op.name⟩ = some f) :
    (∃ f', t.objects.get? ⟨ns, op.name⟩ = some f' ∧ f'.metadata.uid = f.metadata.uid) ∨
      op = .requestDeletion op.name ∧ f.metadata.finalizerList = [] := by
  cases op with
  | create g =>
    cases hc : s.create now g with
    | error e => simp [apply, hc, Except.toOption] at h
    | ok r =>
      obtain ⟨habsent, -⟩ := Store.of_create_eq_ok hc
      have hkey : g.key = ⟨ns, g.metadata.anyName⟩ := by rw [← hop.2.1]; rfl
      rw [hkey] at habsent
      exact absurd (habsent.symm.trans hf) (by simp)
  | edit name spec | relabel name key =>
    obtain ⟨f', hf', rfl⟩ := of_edit h
    obtain rfl : f = f' := Option.some.inj (hf.symm.trans hf')
    exact Or.inl ⟨_, (Store.changes_write s _ _).here, rfl⟩
  | requestDeletion name =>
    obtain ⟨f', -, rfl⟩ := Option.map_eq_some_iff.mp h
    by_cases hfin : f.metadata.finalizerList = []
    · exact Or.inr ⟨rfl, hfin⟩
    · rw [Store.requestDeletion_of_guarded (k := ⟨ns, name⟩) now hf hfin]
      split
      · exact Or.inl ⟨f, hf, rfl⟩
      · exact Or.inl ⟨_, (Store.changes_write s _ _).here, rfl⟩

end UserOperation

end ConfigMerge
