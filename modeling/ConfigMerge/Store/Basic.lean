import ConfigMerge.Access
import ConfigMerge.SortedMap

/-!
# Store/Basic — a collection of objects with optimistic concurrency

A `Store` keeps the objects of one kind by namespace and name and counts the versions it has given
out.  Every write that changes an object gives it the next version; a write that carries another
version than the stored one is refused; an object with finalizers is only marked for deletion, and
goes when its last finalizer does.
-/

namespace ConfigMerge

/-- Where an object is stored. -/
structure ObjectKey where
  nameSpace : String
  name : String
deriving DecidableEq

namespace ObjectKey

/-- Keys are ordered by namespace and then by name. -/
def Before (a b : ObjectKey) : Prop :=
  a.nameSpace < b.nameSpace ∨ (a.nameSpace = b.nameSpace ∧ a.name < b.name)

instance : LT ObjectKey := ⟨Before⟩

instance : DecidableLT ObjectKey := fun a b =>
  inferInstanceAs (Decidable (a.nameSpace < b.nameSpace ∨
    (a.nameSpace = b.nameSpace ∧ a.name < b.name)))

theorem lt_iff {a b : ObjectKey} :
    a < b ↔ a.nameSpace < b.nameSpace ∨ (a.nameSpace = b.nameSpace ∧ a.name < b.name) := Iff.rfl

instance : KeyOrder ObjectKey where
  decidableLT := inferInstance
  irrefl a h := by
    rcases h with h | h
    · exact String.lt_irrefl _ h
    · exact String.lt_irrefl _ h.2
  trans {a b c} hab hbc := by
    rcases hab with hab | ⟨hab, hab'⟩ <;> rcases hbc with hbc | ⟨hbc, hbc'⟩
    · exact Or.inl (String.lt_trans hab hbc)
    · exact Or.inl (hbc ▸ hab)
    · exact Or.inl (hab ▸ hbc)
    · exact Or.inr ⟨hab.trans hbc, String.lt_trans hab' hbc'⟩
  eq_of_not_lt {a b} hab hba := by
    rw [lt_iff, not_or, not_and] at hab hba
    have hns : a.nameSpace = b.nameSpace := KeyOrder.eq_of_not_lt hab.1 hba.1
    have hname : a.name = b.name := KeyOrder.eq_of_not_lt (hab.2 hns) (hba.2 hns.symm)
    cases a
    cases b
    simp_all

end ObjectKey

/-- Why a store refuses a call. -/
inductive Refusal where
  | unavailable
  | conflict
  | alreadyExists
  | notFound
deriving DecidableEq

/-- The refusal as the API server would put it. -/
def Refusal.toClientError : Refusal → ClientError
  | .unavailable =>
    .api { message := "injected ServiceUnavailable", reason := "ServiceUnavailable", code := 503 }
  | .conflict => .api { message := "injected Conflict", reason := "Conflict", code := 409 }
  | .alreadyExists =>
    .api { message := "injected AlreadyExists", reason := "AlreadyExists", code := 409 }
  | .notFound => .api { message := "injected NotFound", reason := "NotFound", code := 404 }

/-- The key under which an object is stored. -/
def Object.key {σ τ : Type} (o : Object σ τ) : ObjectKey :=
  ⟨o.metadata.effectiveNamespace, o.metadata.anyName⟩

/-- The objects of one kind, and how many versions have been given out.  The count has no bound here;
a counter of 64 bits agrees with it as long as it has not been raised 2^64 times, which no run
comes to. -/
structure Store (σ τ : Type) where
  objects : SortedMap ObjectKey (Object σ τ) := .empty
  version : Nat := 0

namespace Store

variable {σ τ : Type}

/-- The text of the next version. -/
def nextVersion (s : Store σ τ) : String := toString (s.version + 1)

/-- Stores an object as the next version under a key. -/
def write (s : Store σ τ) (k : ObjectKey) (o : Object σ τ) : Object σ τ × Store σ τ :=
  let o := o.modifyMetadata ({ · with resourceVersion := some s.nextVersion })
  (o, ⟨s.objects.insert k o, s.version + 1⟩)

/-! ## What users do -/

/-- Applies an object: it gets a namespace, a new uid and a creation time, whatever was stored under
its name. -/
def seed (s : Store σ τ) (now : Instant) (o : Object σ τ) : Object σ τ × Store σ τ :=
  let k := o.key
  s.write k (o.modifyMetadata ({ · with
    nameSpace := some k.nameSpace
    uid := some ("uid-" ++ k.name ++ "-" ++ s.nextVersion)
    creationTimestamp := some now.toTimestamp }))

/-- Overwrites a stored object in place. -/
def edit (s : Store σ τ) (k : ObjectKey) (change : Object σ τ → Object σ τ) :
    Option (Object σ τ × Store σ τ) :=
  (s.objects.get? k).map (fun o => s.write k (change o))

/-- Requests the deletion of an object: without finalizers it goes, else it is marked, once. -/
def requestDeletion (s : Store σ τ) (now : Instant) (k : ObjectKey) : Store σ τ :=
  match s.objects.get? k with
  | none => s
  | some o =>
    if o.metadata.finalizerList.isEmpty then { s with objects := s.objects.erase k }
    else if o.metadata.isBeingDeleted then s
    else (s.write k (o.modifyMetadata ({ · with
      deletionTimestamp := some now.toTimestamp }))).2

/-- Drops an object outright. -/
def remove (s : Store σ τ) (k : ObjectKey) : Store σ τ :=
  { s with objects := s.objects.erase k }

/-! ## What the operator's calls do -/

/-- The objects of a namespace, by name. -/
def list (s : Store σ τ) (nameSpace : String) : List (Object σ τ) :=
  (s.objects.entries.filter (·.1.nameSpace = nameSpace)).map (·.2)

/-- The objects of a namespace with a value for a label, by name. -/
def listByLabel (s : Store σ τ) (nameSpace label value : String) : List (Object σ τ) :=
  (s.list nameSpace).filter (·.metadata.label? label = some value)

/-- The stored object that a write is to replace, unless the write is based on another version. -/
def current (s : Store σ τ) (o : Object σ τ) : Except Refusal (Object σ τ) :=
  match s.objects.get? o.key with
  | none => .error .notFound
  | some stored =>
    if o.metadata.resourceVersion.isSome
        ∧ o.metadata.resourceVersion ≠ stored.metadata.resourceVersion then .error .conflict
    else .ok stored

/-- Stores a new object. -/
def create (s : Store σ τ) (now : Instant) (o : Object σ τ) :
    Except Refusal (Object σ τ × Store σ τ) :=
  if s.objects.contains o.key then .error .alreadyExists else .ok (s.seed now o)

/-- Replaces an object.  Its uid and times stay; one that is being deleted goes when the replacement
has no finalizers. -/
def update (s : Store σ τ) (o : Object σ τ) : Except Refusal (Object σ τ × Store σ τ) :=
  (s.current o).map fun stored =>
    let (updated, s') := s.write o.key (o.modifyMetadata ({ · with
      uid := stored.metadata.uid
      creationTimestamp := stored.metadata.creationTimestamp
      deletionTimestamp := stored.metadata.deletionTimestamp }))
    if updated.metadata.isBeingDeleted ∧ updated.metadata.finalizerList.isEmpty then
      (updated, { s' with objects := s'.objects.erase o.key })
    else (updated, s')

/-- Replaces all of an object but its metadata. -/
def updateStatus (s : Store σ τ) (o : Object σ τ) : Except Refusal (Object σ τ × Store σ τ) :=
  (s.current o).map fun stored => s.write o.key { o with metadata := stored.metadata }

/-- Requests the deletion of an object. -/
def delete (s : Store σ τ) (now : Instant) (o : Object σ τ) : Except Refusal (Store σ τ) :=
  (s.current o).map fun _ => s.requestDeletion now o.key

/-- A refused write leaves the store as it was. -/
def settle {α : Type} (s : Store σ τ) :
    Except Refusal (α × Store σ τ) → Except Refusal α × Store σ τ
  | .ok (a, s') => (.ok a, s')
  | .error e => (.error e, s)

/-- The answer to a call, and the store after it. -/
def perform (now : Instant) (s : Store σ τ) :
    (c : Call (Object σ τ)) → Except Refusal c.Result × Store σ τ
  | .get nameSpace name => (.ok (s.objects.get? ⟨nameSpace, name⟩), s)
  | .list nameSpace => (.ok (s.list nameSpace), s)
  | .listByLabel nameSpace label value => (.ok (s.listByLabel nameSpace label value), s)
  | .create o => s.settle (s.create now o)
  | .update o => s.settle (s.update o)
  | .updateStatus o => s.settle (s.updateStatus o)
  | .delete o => s.settle ((s.delete now o).map ((), ·))

end Store

end ConfigMerge
