import ConfigMerge.Proofs.Merge.Live

/-!
# Proofs/Merge/Listing — the expected composite loses nothing of a listing

Fragments of different names have one order in which their names increase (`Family.InNameOrder`).
The expected composite is read off that order alone (`Family.expected_of_inNameOrder`): it has each
fragment's item, and a reference to each fragment that has a name and a uid.  So two passes that were
given the fragments in different orders do not rewrite each other's composite.
-/

namespace ConfigMerge

variable {φ κ ι : Type}

namespace Family

/-! ## The order of the names -/

/-- The fragments of a listing in strictly increasing order of their names. -/
structure InNameOrder (ordered l : List (Fragment φ)) : Prop where
  perm : ordered.Perm l
  increasing : ordered.Pairwise (fun f g => f.metadata.anyName < g.metadata.anyName)

variable {ordered l l' : List (Fragment φ)}

theorem InNameOrder.namesDiffer (h : InNameOrder ordered l) : NamesDiffer l :=
  List.Pairwise.perm (h.increasing.imp anyName_ne_of_lt) h.perm Ne.symm

theorem InNameOrder.of_perm (h : InNameOrder ordered l) (hp : l'.Perm l) : InNameOrder ordered l' :=
  ⟨h.perm.trans hp.symm, h.increasing⟩

/-- **Fragments of different names can be put into the order of these.** -/
theorem inNameOrder_byName (hl : NamesDiffer l) : InNameOrder (byName l) l := by
  refine ⟨byName_perm l, ?_⟩
  have hdiffer : NamesDiffer (byName l) := List.Pairwise.perm hl (byName_perm l).symm Ne.symm
  refine ((pairwise_byName l).and hdiffer).imp ?_
  rintro f g ⟨hle, hne⟩
  by_contra hlt
  exact hne (KeyOrder.eq_of_not_lt hlt (String.not_lt.mpr hle))

/-- …and into no other. -/
theorem InNameOrder.byName_eq (h : InNameOrder ordered l) : byName l = ordered := by
  have hbyName := inNameOrder_byName h.namesDiffer
  refine eq_of_mem_iff hbyName.increasing h.increasing fun f => ?_
  rw [hbyName.perm.mem_iff, h.perm.mem_iff]

/-! ## What stands in the composite -/

variable (F : Family φ κ ι) (key ns : String)

/-- The metadata of a composite that refers to those of the fragments that can be referred to. -/
def referringTo (fragments : List (Fragment φ)) : Metadata where
  name := some key
  nameSpace := some ns
  ownerReferences := some
    (fragments.filterMap fun f => Option.map₂ F.referenceTo f.metadata.name f.metadata.uid)

/-- **The expected composite is made of the fragments one by one, in the order of their names.** -/
theorem expected_of_inNameOrder (h : InNameOrder ordered l) :
    F.expected key ns l =
      { metadata := F.referringTo key ns ordered
        spec := F.stamp key (F.compose (ordered.map (F.item ·.spec))) } := by
  simp only [expected, h.byName_eq, referringTo, ← ownerReference?_eq]
  rfl

/-- **However fragments of different names are listed, they call for one composite, and it loses
nothing of them**: it has the item of each as it is, and a reference to each that has a name and a
uid, both in the order of the names; and an intentions entry is for the service of its key. -/
theorem expected_eq_of_namesDiffer :
    (∀ l : List (Fragment RouteSpec), NamesDiffer l → ∃ ordered, InNameOrder ordered l ∧
      ∀ l', l'.Perm l → routes.expected key ns l' =
        { metadata := routes.referringTo key ns ordered
          spec := { routes := ordered.map (·.spec.route) } }) ∧
    (∀ l : List (Fragment SourceSpec), NamesDiffer l → ∃ ordered, InNameOrder ordered l ∧
      ∀ l', l'.Perm l → intentions.expected key ns l' =
        { metadata := intentions.referringTo key ns ordered
          spec := { destination := { name := key }, sources := ordered.map (·.spec.source) } }) := by
  constructor
  · intro l hl
    refine ⟨byName l, inNameOrder_byName hl, fun l' hp => ?_⟩
    exact routes.expected_of_inNameOrder key ns ((inNameOrder_byName hl).of_perm hp)
  · intro l hl
    refine ⟨byName l, inNameOrder_byName hl, fun l' hp => ?_⟩
    exact intentions.expected_of_inNameOrder key ns ((inNameOrder_byName hl).of_perm hp)

/-- Two callers in either order: both are allowed, and the one that has a uid is referred to. -/
theorem expected_eq_of_namesDiffer_swapped :
    let api : Fragment SourceSpec := Fragment.allowing "api" "db" "shop"
    let web : Fragment SourceSpec :=
      (Fragment.allowing "web" "db" "site").modifyMetadata ({ · with uid := some "7" })
    let c := intentions.expected "db" "default" [web, api]
    NamesDiffer [web, api] ∧ intentions.expected "db" "default" [api, web] = c ∧
      c.spec = { destination := { name := "db" }, sources := [.allowing "shop", .allowing "site"] } ∧
      c.metadata.owners = [intentions.referenceTo "web" "7"] := by
  intro api web c
  have hdiffer : NamesDiffer [web, api] := by
    rw [NamesDiffer, List.pairwise_pair]
    decide
  obtain ⟨ordered, horder, hexpected⟩ :=
    (expected_eq_of_namesDiffer "db" "default").2 [web, api] hdiffer
  have hordered : ordered = [api, web] := by
    rw [← horder.byName_eq]
    decide +kernel
  have hc : c = _ := hexpected [web, api] (.refl _)
  rw [hexpected [api, web] (.swap _ _ _), hc, hordered]
  exact ⟨hdiffer, rfl, rfl, rfl⟩

end Family

end ConfigMerge
