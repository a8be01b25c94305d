import ConfigMerge.Merge

/-!
# Reconcile/Watch — which fragments a change to a composite concerns

A change to a composite is an event for every fragment that the composite lists as an owner, so that
a composite that somebody else changed or deleted is restored.
-/

namespace ConfigMerge

/-- The place of a fragment as an event names it; without a namespace for a composite that has
none. -/
structure FragmentRef where
  name : String
  nameSpace : Option String
deriving DecidableEq

/-- The fragments that a composite lists as its owners, in the composite's namespace.  References to
other kinds or versions are left out. -/
def Family.ownersOf {φ κ ι : Type} (F : Family φ κ ι) (c : Composite κ) : List FragmentRef :=
  (c.metadata.owners.filter (fun o =>
    o.kind = F.fragments.kind.name && o.apiVersion = F.fragments.kind.apiVersion)).map
      (fun o => ⟨o.name, c.metadata.nameSpace⟩)

end ConfigMerge
