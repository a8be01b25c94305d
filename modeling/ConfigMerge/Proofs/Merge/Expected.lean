import ConfigMerge.Proofs.Store.Change
import ConfigMerge.Merge
import Mathlib.Data.List.Pairwise
import Mathlib.Data.Option.NAry

/-!
# Proofs/Merge/Expected — what a composite takes from its fragments

The expected composite reads little of a fragment: `Object.bare` keeps just that.  It does not
depend on the order in which fragments are listed (`expected_eq_of_perm`), so the stored fragments
alone say what the composite of a key has to be: `Family.Matches`, at the listing `Family.live`.
-/

namespace ConfigMerge

variable {σ τ φ κ ι : Type}

/-! ## The part of a fragment that counts -/

namespace Object

/-- The object without version, finalizers, owners and status: what decides where a fragment belongs
and what it contributes. -/
def bare (o : Object σ τ) : Object σ τ where
  metadata :=
    { name := o.metadata.name
      nameSpace := o.metadata.nameSpace
      uid := o.metadata.uid
      generateName := o.metadata.generateName
      labels := o.metadata.labels
      deletionTimestamp := o.metadata.deletionTimestamp }
  spec := o.spec

variable (o : Object σ τ)

@[simp] theorem bare_key : o.bare.key = o.key := rfl

@[simp] theorem bare_anyName : o.bare.metadata.anyName = o.metadata.anyName := rfl

@[simp] theorem bare_uid : o.bare.metadata.uid = o.metadata.uid := rfl

@[simp] theorem bare_label? (l : String) : o.bare.metadata.label? l = o.metadata.label? l := rfl

@[simp] theorem bare_isBeingDeleted :
    o.bare.metadata.isBeingDeleted = o.metadata.isBeingDeleted := rfl

variable {o} {o' : Object σ τ}

theorem spec_eq_of_bare_eq (h : o.bare = o'.bare) : o.spec = o'.spec := by
  have hspec : o.bare.spec = o'.bare.spec := by rw [h]
  exact hspec

theorem key_eq_of_bare_eq (h : o.bare = o'.bare) : o.key = o'.key := by
  rw [← bare_key, h, bare_key]

theorem uid_eq_of_bare_eq (h : o.bare = o'.bare) : o.metadata.uid = o'.metadata.uid := by
  rw [← bare_uid, h, bare_uid]

theorem label?_eq_of_bare_eq (h : o.bare = o'.bare) (l : String) :
    o.metadata.label? l = o'.metadata.label? l := by
  rw [← bare_label?, h, bare_label?]

theorem isBeingDeleted_eq_of_bare_eq (h : o.bare = o'.bare) :
    o.metadata.isBeingDeleted = o'.metadata.isBeingDeleted := by
  rw [← bare_isBeingDeleted, h, bare_isBeingDeleted]

end Object

namespace Family

variable (F : Family φ κ ι)

/-- The reference to the fragment with this name and uid. -/
def referenceTo (name uid : String) : OwnerReference where
  apiVersion := F.fragments.kind.apiVersion
  kind := F.fragments.kind.name
  name := name
  uid := uid

/-- A fragment is referred to exactly when it has a name and a uid. -/
theorem ownerReference?_eq (f : Fragment φ) :
    F.ownerReference? f = Option.map₂ F.referenceTo f.metadata.name f.metadata.uid := by
  rw [ownerReference?]
  cases f.metadata.name <;> cases f.metadata.uid <;> rfl

theorem ownerReference?_of_named {f : Fragment φ} {name uid : String}
    (hname : f.metadata.name = some name) (huid : f.metadata.uid = some uid) :
    F.ownerReference? f = some (F.referenceTo name uid) := by
  rw [ownerReference?_eq, hname, huid, Option.map₂_some_some]

theorem of_ownerReference?_eq {f : Fragment φ} {o : OwnerReference}
    (h : F.ownerReference? f = some o) :
    f.metadata.name = some o.name ∧ f.metadata.uid = some o.uid := by
  rw [ownerReference?_eq, Option.map₂_eq_some_iff] at h
  obtain ⟨name, uid, hname, huid, rfl⟩ := h
  exact ⟨hname, huid⟩

/-- Fragments with names and uids are all referred to. -/
theorem filterMap_ownerReference? {l : List (Fragment φ)}
    (h : ∀ f ∈ l, f.metadata.name.isSome ∧ f.metadata.uid.isSome) :
    l.filterMap F.ownerReference? =
      l.map fun f => F.referenceTo f.metadata.anyName (f.metadata.uid.getD "") := by
  induction l with
  | nil => rfl
  | cons f rest ih =>
    obtain ⟨⟨hname, huid⟩, hrest⟩ := List.forall_mem_cons.mp h
    obtain ⟨name, hname⟩ := Option.isSome_iff_exists.mp hname
    obtain ⟨uid, huid⟩ := Option.isSome_iff_exists.mp huid
    rw [List.filterMap_cons_some (F.ownerReference?_of_named hname huid), ih hrest, List.map_cons,
      Metadata.anyName, hname, huid, Option.getD_some, Option.getD_some]

/-! ## Fragments by name -/

theorem insertByName_perm (f : Fragment φ) (l : List (Fragment φ)) :
    (insertByName f l).Perm (f :: l) := by
  induction l with
  | nil => exact .refl _
  | cons g rest ih =>
    unfold insertByName
    split
    · exact .refl _
    · exact (ih.cons g).trans (.swap f g rest)

theorem byName_perm (l : List (Fragment φ)) : (byName l).Perm l := by
  induction l with
  | nil => exact .refl _
  | cons f rest ih => exact (insertByName_perm f _).trans (ih.cons f)

theorem pairwise_insertByName (f : Fragment φ) {l : List (Fragment φ)}
    (h : l.Pairwise (fun a b => a.metadata.anyName ≤ b.metadata.anyName)) :
    (insertByName f l).Pairwise (fun a b => a.metadata.anyName ≤ b.metadata.anyName) := by
  induction l with
  | nil => simp [insertByName]
  | cons g rest ih =>
    have hrest := List.pairwise_cons.mp h
    unfold insertByName
    split
    next hle =>
      refine List.pairwise_cons.mpr ⟨fun b hb => ?_, h⟩
      rcases List.mem_cons.mp hb with rfl | hb
      · exact hle
      · exact String.le_trans hle (hrest.1 b hb)
    next hle =>
      refine List.pairwise_cons.mpr ⟨fun b hb => ?_, ih hrest.2⟩
      rcases List.mem_cons.mp ((insertByName_perm f rest).mem_iff.mp hb) with rfl | hb
      · exact (String.le_total g.metadata.anyName b.metadata.anyName).resolve_right hle
      · exact hrest.1 b hb

/-- Fragments come out in the order of their names. -/
theorem pairwise_byName (l : List (Fragment φ)) :
    (byName l).Pairwise (fun a b => a.metadata.anyName ≤ b.metadata.anyName) := by
  induction l with
  | nil => exact List.Pairwise.nil
  | cons f rest ih => exact pairwise_insertByName f ih

theorem insertByName_map_bare (f : Fragment φ) (l : List (Fragment φ)) :
    insertByName f.bare (l.map Object.bare) = (insertByName f l).map Object.bare := by
  induction l with
  | nil => rfl
  | cons g rest ih =>
    by_cases hle : f.metadata.anyName ≤ g.metadata.anyName
    · simp [insertByName, hle]
    · simp [insertByName, hle, ih]

theorem byName_map_bare (l : List (Fragment φ)) :
    byName (l.map Object.bare) = (byName l).map Object.bare := by
  induction l with
  | nil => rfl
  | cons f rest ih =>
    calc byName ((f :: rest).map Object.bare)
        = insertByName f.bare (byName (rest.map Object.bare)) := rfl
      _ = insertByName f.bare ((byName rest).map Object.bare) := by rw [ih]
      _ = (byName (f :: rest)).map Object.bare := insertByName_map_bare f _

/-- Fragments of different names. -/
def NamesDiffer (l : List (Fragment φ)) : Prop :=
  l.Pairwise (fun a b => a.metadata.anyName ≠ b.metadata.anyName)

theorem NamesDiffer.eq_of_anyName_eq {l : List (Fragment φ)} (h : NamesDiffer l)
    {f g : Fragment φ} (hf : f ∈ l) (hg : g ∈ l) (hfg : f.metadata.anyName = g.metadata.anyName) :
    f = g := by
  have : Std.Symm (fun a b : Fragment φ => a.metadata.anyName ≠ b.metadata.anyName) :=
    ⟨fun _ _ => Ne.symm⟩
  by_contra hne
  exact List.Pairwise.forall h hf hg hne hfg

/-- **The order of a listing does not matter** when the names differ. -/
theorem byName_eq_of_perm {l l' : List (Fragment φ)} (h : l.Perm l') (hl : NamesDiffer l) :
    byName l = byName l' := by
  refine List.Perm.eq_of_pairwise (fun a b ha hb hab hba => ?_) (pairwise_byName l)
    (pairwise_byName l') ((byName_perm l).trans (h.trans (byName_perm l').symm))
  refine hl.eq_of_anyName_eq ((byName_perm l).mem_iff.mp ha) ?_ (String.le_antisymm hab hba)
  exact h.mem_iff.mpr ((byName_perm l').mem_iff.mp hb)

/-! ## The expected composite -/

/-- **The expected composite is a function of the set of fragments.** -/
theorem expected_eq_of_perm (key ns : String) {l l' : List (Fragment φ)} (h : l.Perm l')
    (hl : NamesDiffer l) : F.expected key ns l = F.expected key ns l' := by
  rw [expected, expected, byName_eq_of_perm h hl]

/-- …and of the part of them that counts. -/
theorem expected_map_bare (key ns : String) (l : List (Fragment φ)) :
    F.expected key ns (l.map Object.bare) = F.expected key ns l := by
  simp only [expected, byName_map_bare, List.map_map, List.filterMap_map]
  rfl

theorem expected_congr_bare (key ns : String) {l l' : List (Fragment φ)}
    (h : l.map Object.bare = l'.map Object.bare) : F.expected key ns l = F.expected key ns l' := by
  rw [← expected_map_bare, h, expected_map_bare]

theorem eq_nil_iff_of_bare_eq {l l' : List (Fragment φ)}
    (h : l.map Object.bare = l'.map Object.bare) : l = [] ↔ l' = [] := by
  rw [← List.map_eq_nil_iff (f := Object.bare), h, List.map_eq_nil_iff]

theorem owners_expected (key ns : String) (l : List (Fragment φ)) :
    (F.expected key ns l).metadata.owners = (byName l).filterMap F.ownerReference? := rfl

theorem mem_owners_expected {key ns : String} {l : List (Fragment φ)} {o : OwnerReference} :
    o ∈ (F.expected key ns l).metadata.owners ↔ ∃ f ∈ l, F.ownerReference? f = some o := by
  rw [owners_expected, List.mem_filterMap]
  exact exists_congr fun f => and_congr_left fun _ => (byName_perm l).mem_iff

/-- Every fragment contributes one item. -/
theorem items_expected (key ns : String) (l : List (Fragment φ)) :
    F.items (F.expected key ns l).spec = (byName l).map (F.item ·.spec) := by
  rw [← F.items_compose ((byName l).map (F.item ·.spec))]
  exact F.items_stamp _ _

theorem isEmpty_items_expected (key ns : String) (l : List (Fragment φ)) :
    (F.items (F.expected key ns l).spec).isEmpty = l.isEmpty := by
  rw [items_expected, List.isEmpty_map]
  exact (byName_perm l).isEmpty_eq

/-! ## Agreement of a stored composite with fragments -/

/-- What is stored for a key agrees with fragments: a composite exactly when there are fragments,
with the content and the owners that they call for. -/
def Matches (key ns : String) (l : List (Fragment φ)) : Option (Composite κ) → Prop
  | none => l = []
  | some c => l ≠ [] ∧ c.spec = (F.expected key ns l).spec ∧
      c.metadata.owners = (F.expected key ns l).metadata.owners

instance [DecidableEq κ] (key ns : String) (l : List (Fragment φ)) (x : Option (Composite κ)) :
    Decidable (F.Matches key ns l x) :=
  match x with
  | none => inferInstanceAs (Decidable (l = []))
  | some _ => inferInstanceAs (Decidable (_ ∧ _ ∧ _))

variable {F} {key ns : String} {l l' : List (Fragment φ)} {x : Option (Composite κ)}

/-- Fragments that call for the same composite agree with the same ones. -/
theorem Matches.congr (h : F.Matches key ns l x) (hnil : l = [] ↔ l' = [])
    (he : F.expected key ns l = F.expected key ns l') : F.Matches key ns l' x := by
  cases x with
  | none => exact hnil.mp h
  | some c => exact ⟨fun h' => h.1 (hnil.mpr h'), he ▸ h.2⟩

theorem Matches.of_perm (h : F.Matches key ns l x) (hp : l.Perm l') (hl : NamesDiffer l) :
    F.Matches key ns l' x := by
  refine h.congr ⟨fun h' => ?_, fun h' => ?_⟩ (F.expected_eq_of_perm key ns hp hl)
  · subst h'
    exact hp.symm.eq_nil
  · subst h'
    exact hp.eq_nil

theorem matches_congr_bare (h : l.map Object.bare = l'.map Object.bare) :
    F.Matches key ns l x ↔ F.Matches key ns l' x := by
  have hnil := eq_nil_iff_of_bare_eq h
  have he := F.expected_congr_bare key ns h
  exact ⟨fun hm => hm.congr hnil he, fun hm => hm.congr hnil.symm he.symm⟩

/-! ## A merge, by what it finds -/

section Merge

variable [DecidableEq κ] (F)

/-- What a merge does once it has read the composite of its key. -/
def mergeOnto (key ns : String) (l : List (Fragment φ)) :
    Option (Composite κ) → Pass φ κ MergeOutcome
  | none =>
    if l = [] then return .unchanged
    else do
      let _ ← Pass.onComposites (.create (F.expected key ns l))
      return .created
  | some stored =>
    if l = [] then do
      let _ ← Pass.onComposites (.delete stored)
      return .deleted
    else if agree (F.expected key ns l) stored then return .unchanged
    else do
      let _ ← Pass.updateComposite (renewed stored (F.expected key ns l))
      return .updated

theorem merge_eq (key ns : String) (l : List (Fragment φ)) :
    F.merge key ns l = Pass.onComposites (.get ns key) >>= F.mergeOnto key ns l := by
  simp only [merge, isEmpty_items_expected]
  refine congrArg (Pass.onComposites (.get ns key) >>= ·) (funext fun x => ?_)
  cases x <;> by_cases hl : l = [] <;> simp [mergeOnto, hl]

theorem agree_iff {a b : Composite κ} :
    agree a b ↔ a.spec = b.spec ∧ a.metadata.owners = b.metadata.owners := by
  simp [agree]

/-- A composite that agrees with the expected one needs no write. -/
theorem matches_of_agree {c : Composite κ} (hl : l ≠ []) (h : agree (F.expected key ns l) c) :
    F.Matches key ns l (some c) := by
  obtain ⟨hspec, howners⟩ := agree_iff.mp h
  exact ⟨hl, hspec.symm, howners.symm⟩

theorem mergeOnto_of_matches (h : F.Matches key ns l x) :
    F.mergeOnto key ns l x = pure .unchanged := by
  cases x with
  | none => exact if_pos h
  | some c =>
    obtain ⟨hl, hspec, howners⟩ := h
    rw [mergeOnto, if_neg hl, if_pos (agree_iff.mpr ⟨hspec.symm, howners.symm⟩)]

/-- The write that a merge makes when what it has read does not agree with the fragments, and the
outcome with which it then ends. -/
inductive MergeWrite (key ns : String) (l : List (Fragment φ)) :
    Option (Composite κ) → Call (Composite κ) → MergeOutcome → Prop where
  | create : l ≠ [] → MergeWrite key ns l none (.create (F.expected key ns l)) .created
  | delete (c : Composite κ) : l = [] → MergeWrite key ns l (some c) (.delete c) .deleted
  | update (c : Composite κ) : l ≠ [] → ¬ agree (F.expected key ns l) c →
      MergeWrite key ns l (some c) (.update (renewed c (F.expected key ns l))) .updated

/-- **A merge does nothing or makes one write.** -/
theorem mergeOnto_cases (key ns : String) (l : List (Fragment φ)) (x : Option (Composite κ)) :
    (F.Matches key ns l x ∧ F.mergeOnto key ns l x = pure .unchanged) ∨
      ∃ c o, F.MergeWrite key ns l x c o ∧
        F.mergeOnto key ns l x = Pass.onComposites c >>= fun _ => pure o := by
  by_cases hmatch : F.Matches key ns l x
  · exact Or.inl ⟨hmatch, F.mergeOnto_of_matches hmatch⟩
  refine Or.inr ?_
  cases x with
  | none => exact ⟨_, _, .create hmatch, if_neg hmatch⟩
  | some c =>
    by_cases hl : l = []
    · exact ⟨_, _, .delete c hl, if_pos hl⟩
    · have hagree : ¬ agree (F.expected key ns l) c := fun h => hmatch (F.matches_of_agree hl h)
      exact ⟨_, _, .update c hl hagree, (if_neg hl).trans (if_neg hagree)⟩

/-- What is stored for some fragments is what others call for when these call for the same. -/
theorem matches_iff_agree (hl : l ≠ []) (hl' : l' ≠ []) (h : F.Matches key ns l x) :
    F.Matches key ns l' x ↔ agree (F.expected key ns l) (F.expected key ns l') := by
  cases x with
  | none => exact absurd h hl
  | some c =>
    obtain ⟨-, hspec, howners⟩ := h
    rw [agree_iff, ← hspec, ← howners]
    exact and_iff_right hl'

end Merge

end Family

end ConfigMerge
