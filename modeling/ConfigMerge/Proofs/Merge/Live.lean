import ConfigMerge.Proofs.Merge.Expected
import ConfigMerge.Reconcile.Pass
import Mathlib.Data.List.Nodup

/-!
# Proofs/Merge/Live — the stored fragments that make up the composite of a key

`Family.live` lists the fragments of a key that are not being deleted, by name.  Two stores that
agree on the live fragments at every name (`Family.SameLive`) call for the same composites.
-/

namespace ConfigMerge

variable {φ κ ι : Type}

namespace Family

variable (F : Family φ κ ι)

/-- A fragment of a key that is not being deleted. -/
def IsLive (key : String) (f : Fragment φ) : Prop :=
  f.metadata.label? F.keyLabel = some key ∧ f.metadata.isBeingDeleted = false

instance (key : String) (f : Fragment φ) : Decidable (F.IsLive key f) :=
  inferInstanceAs (Decidable (_ ∧ _))

/-- The live fragments of a key, by name. -/
def live (s : Store φ FragmentStatus) (ns key : String) : List (Fragment φ) :=
  (s.listByLabel ns F.keyLabel key).filter (!·.metadata.isBeingDeleted)

variable {s s' : Store φ FragmentStatus} {ns key : String}

theorem mem_live {f : Fragment φ} :
    f ∈ F.live s ns key ↔
      (∃ k : ObjectKey, k.nameSpace = ns ∧ s.objects.get? k = some f) ∧ F.IsLive key f := by
  simp [live, Store.mem_listByLabel, IsLive, and_assoc]

theorem anyName_ne_of_lt {f g : Fragment φ} (h : f.metadata.anyName < g.metadata.anyName) :
    f.metadata.anyName ≠ g.metadata.anyName := by
  intro heq
  rw [heq] at h
  exact String.lt_irrefl _ h

/-- In a keyed store the names of live fragments say where they are stored. -/
theorem mem_live_iff_get? (h : s.Keyed) {f : Fragment φ} :
    f ∈ F.live s ns key ↔
      s.objects.get? ⟨ns, f.metadata.anyName⟩ = some f ∧ F.IsLive key f := by
  rw [mem_live]
  refine and_congr_left fun _ => ⟨?_, fun hget => ⟨_, rfl, hget⟩⟩
  rintro ⟨k, rfl, hget⟩
  have hk : f.key = k := h k f hget
  subst hk
  exact hget

theorem pairwise_live (h : s.Keyed) (ns key : String) :
    (F.live s ns key).Pairwise (fun a b => a.metadata.anyName < b.metadata.anyName) :=
  ((Store.pairwise_list h ns).filter _).filter _

theorem namesDiffer_live (h : s.Keyed) (ns key : String) : NamesDiffer (F.live s ns key) :=
  (F.pairwise_live h ns key).imp anyName_ne_of_lt

theorem nodup_of_pairwise {l : List (Fragment φ)}
    (hl : l.Pairwise (fun a b => a.metadata.anyName < b.metadata.anyName)) : l.Nodup := by
  refine hl.imp ?_
  rintro f g hlt rfl
  exact String.lt_irrefl _ hlt

theorem nodup_live (h : s.Keyed) (ns key : String) : (F.live s ns key).Nodup :=
  nodup_of_pairwise (F.pairwise_live h ns key)

/-- Fragments in strictly increasing order of names are determined by which they are. -/
theorem eq_of_mem_iff {l l' : List (Fragment φ)}
    (hl : l.Pairwise (fun a b => a.metadata.anyName < b.metadata.anyName))
    (hl' : l'.Pairwise (fun a b => a.metadata.anyName < b.metadata.anyName))
    (h : ∀ f, f ∈ l ↔ f ∈ l') : l = l' := by
  refine List.Perm.eq_of_pairwise (fun a b _ _ hab hba => ?_) hl hl'
    ((List.perm_ext_iff_of_nodup (nodup_of_pairwise hl) (nodup_of_pairwise hl')).mpr h)
  exact absurd (String.lt_trans hab hba) (String.lt_irrefl _)

/-! ## Stores with the same live fragments -/

/-- The part that counts of the live fragment at a key, if there is one. -/
def liveAt? (s : Store φ FragmentStatus) (k : ObjectKey) : Option (Fragment φ) :=
  ((s.objects.get? k).filter (!·.metadata.isBeingDeleted)).map Object.bare

/-- At every name of a namespace two stores have the same live fragment or none. -/
def SameLive (ns : String) (s s' : Store φ FragmentStatus) : Prop :=
  ∀ name, liveAt? s ⟨ns, name⟩ = liveAt? s' ⟨ns, name⟩

theorem SameLive.refl (ns : String) (s : Store φ FragmentStatus) : SameLive ns s s := fun _ => rfl

theorem SameLive.trans {s'' : Store φ FragmentStatus} (h : SameLive ns s s')
    (h' : SameLive ns s' s'') : SameLive ns s s'' := fun name => (h name).trans (h' name)

theorem liveAt?_eq_some {k : ObjectKey} {b : Fragment φ} :
    liveAt? s k = some b ↔
      ∃ f, s.objects.get? k = some f ∧ f.metadata.isBeingDeleted = false ∧ f.bare = b := by
  simp [liveAt?, Option.map_eq_some_iff, Option.filter_eq_some_iff, and_assoc]

/-- One changed key leaves the live fragments the same when it does so at that key. -/
theorem SameLive.of_changes {k : ObjectKey} {x : Option (Fragment φ)} (hc : s.Changes s' k x)
    (hx : (x.filter (!·.metadata.isBeingDeleted)).map Object.bare = liveAt? s k) :
    SameLive ns s s' := by
  intro name
  by_cases hk : (⟨ns, name⟩ : ObjectKey) = k
  · rw [hk, ← hx, liveAt?, hc.here]
  · rw [liveAt?, liveAt?, hc.elsewhere _ hk]

/-- …such as the removal of a deleting fragment, or a change to what does not count. -/
theorem SameLive.of_changes_bare {k : ObjectKey} {f : Fragment φ} {x : Option (Fragment φ)}
    (hc : s.Changes s' k x) (hf : s.objects.get? k = some f)
    (hgone : x = none → f.metadata.isBeingDeleted = true)
    (hbare : ∀ f', x = some f' → f'.bare = f.bare) : SameLive ns s s' := by
  refine .of_changes hc ?_
  rw [liveAt?, hf]
  cases x with
  | none => rw [Option.filter_some_neg (by simp [hgone rfl]), Option.filter_none]
  | some f' =>
    have hdel := Object.isBeingDeleted_eq_of_bare_eq (hbare f' rfl)
    cases hlive : f.metadata.isBeingDeleted with
    | true =>
      rw [Option.filter_some_neg (by simp [hdel, hlive]), Option.filter_some_neg (by simp [hlive])]
    | false =>
      rw [Option.filter_some_pos (by simp [hdel, hlive]), Option.filter_some_pos (by simp [hlive]),
        Option.map_some, Option.map_some, hbare f' rfl]

theorem mem_map_bare_live (h : s.Keyed) {b : Fragment φ} :
    b ∈ (F.live s ns key).map Object.bare ↔
      liveAt? s ⟨ns, b.metadata.anyName⟩ = some b ∧ F.IsLive key b := by
  rw [List.mem_map, liveAt?_eq_some]
  constructor
  · rintro ⟨f, hf, rfl⟩
    have hget := (F.mem_live_iff_get? h).mp hf
    exact ⟨⟨f, hget.1, hget.2.2, rfl⟩, hget.2⟩
  · rintro ⟨⟨f, hget, -, rfl⟩, hlive⟩
    exact ⟨f, (F.mem_live_iff_get? h).mpr ⟨hget, hlive⟩, rfl⟩

/-- **Stores with the same live fragments list the same live fragments of every key**, up to what
does not count. -/
theorem SameLive.map_bare_live (hsame : SameLive ns s s') (h : s.Keyed) (h' : s'.Keyed)
    (key : String) :
    (F.live s ns key).map Object.bare = (F.live s' ns key).map Object.bare := by
  refine eq_of_mem_iff (List.pairwise_map.mpr (F.pairwise_live h ns key))
    (List.pairwise_map.mpr (F.pairwise_live h' ns key)) fun b => ?_
  rw [F.mem_map_bare_live h, F.mem_map_bare_live h', hsame]

theorem SameLive.matches_iff (hsame : SameLive ns s s') (h : s.Keyed) (h' : s'.Keyed)
    {key : String} {x : Option (Composite κ)} :
    F.Matches key ns (F.live s ns key) x ↔ F.Matches key ns (F.live s' ns key) x :=
  matches_congr_bare (hsame.map_bare_live F h h' key)

end Family

end ConfigMerge
