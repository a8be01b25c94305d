import ConfigMerge.Pass

/-!
# Merge — making the composite of a key agree with its fragments

`Family.expected` is the composite that a list of fragments calls for.  `Family.merge` brings the
stored composite in line with it, by at most one write:

| stored composite | expected items | outcome     |
|------------------|----------------|-------------|
| absent           | none           | `unchanged` |
| absent           | some           | `created`   |
| present          | none           | `deleted`   |
| present, equal   | some           | `unchanged` |
| present, other   | some           | `updated`   |
-/

namespace ConfigMerge

/-- What a merge did to the composite. -/
inductive MergeOutcome where
  | created
  | updated
  | deleted
  | unchanged
deriving DecidableEq

/-- The name of an outcome. -/
def MergeOutcome.text : MergeOutcome → String
  | .created => "created"
  | .updated => "updated"
  | .deleted => "deleted"
  | .unchanged => "noop"

namespace Family

variable {φ κ ι : Type} (F : Family φ κ ι)

/-- The reference from a composite to a fragment, which needs a name and a uid. -/
def ownerReference? (f : Fragment φ) : Option OwnerReference := do
  let name ← f.metadata.name
  let uid ← f.metadata.uid
  return { apiVersion := F.fragments.kind.apiVersion, kind := F.fragments.kind.name, name, uid }

/-- Puts a fragment before the first one whose name is not smaller. -/
def insertByName (f : Fragment φ) : List (Fragment φ) → List (Fragment φ)
  | [] => [f]
  | g :: rest =>
    if f.metadata.anyName ≤ g.metadata.anyName then f :: g :: rest else g :: insertByName f rest

/-- Fragments by name, in the order given where names are equal. -/
def byName (fragments : List (Fragment φ)) : List (Fragment φ) := fragments.foldr insertByName []

/-- A new composite with these items. -/
def build (key nameSpace : String) (items : List ι) : Composite κ where
  metadata := { name := some key, nameSpace := some nameSpace }
  spec := F.compose items

/-- The composite with what its content takes from its name. -/
def stamped (c : Composite κ) : Composite κ :=
  { c with spec := F.stamp c.metadata.anyName c.spec }

/-- The composite that fragments call for.  Its items and owners are in the order of the fragments'
names, so the order in which fragments are listed does not matter. -/
def expected (key nameSpace : String) (fragments : List (Fragment φ)) : Composite κ :=
  let ordered := byName fragments
  let composite := F.build key nameSpace (ordered.map (F.item ·.spec))
  F.stamped (composite.modifyMetadata ({ · with
    ownerReferences := some (ordered.filterMap F.ownerReference?) }))

variable [DecidableEq κ]

/-- Whether two composites agree in content and owners. -/
def agree (a b : Composite κ) : Bool :=
  a.spec = b.spec && a.metadata.owners = b.metadata.owners

/-- The stored composite with the content and owners of the expected one. -/
def renewed (stored expected : Composite κ) : Composite κ :=
  { stored with
    spec := expected.spec
    metadata := { stored.metadata with ownerReferences := some expected.metadata.owners } }

/-- Brings the composite of a key in line with fragments. -/
def merge (key nameSpace : String) (fragments : List (Fragment φ)) : Pass φ κ MergeOutcome := do
  let expected := F.expected key nameSpace fragments
  let wanted := !(F.items expected.spec).isEmpty
  match ← Pass.onComposites (.get nameSpace key) with
  | none =>
    if wanted then
      let _ ← Pass.onComposites (.create expected)
      return .created
    else return .unchanged
  | some stored =>
    if !wanted then
      let _ ← Pass.onComposites (.delete stored)
      return .deleted
    else if agree expected stored then return .unchanged
    else
      let _ ← Pass.updateComposite (renewed stored expected)
      return .updated

/-- The names of the composites other than `key` that have `uid` among their owners. -/
def staleKeys (nameSpace uid key : String) : Pass φ κ (List String) := do
  let composites : List (Composite κ) ← Pass.onComposites (.list nameSpace)
  return (composites.filter (fun c =>
    c.metadata.anyName ≠ key && c.metadata.owners.any (·.uid = uid))).map (·.metadata.anyName)

end Family

end ConfigMerge
