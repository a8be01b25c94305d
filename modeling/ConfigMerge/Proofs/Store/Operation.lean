import ConfigMerge.Proofs.Store.Version

/-!
# Proofs/Store/Operation — what users do to the objects of a store

A `Store.Operation` is what somebody other than the operator may do at any moment.  Like a call it
does something under one key alone (`Store.Operation.writes_apply`), so all that is known of calls
from `Store.Writes` holds of operations as well.
-/

namespace ConfigMerge

namespace Store

variable {σ τ : Type}

/-- A user's operation: to put an object where there may be another, to change one in place, to
request its deletion, or to remove it outright. -/
inductive Operation (σ τ : Type) where
  | seed (o : Object σ τ)
  | edit (k : ObjectKey) (change : Object σ τ → Object σ τ)
  | requestDeletion (k : ObjectKey)
  | remove (k : ObjectKey)

namespace Operation

/-- A change in place leaves the name and the namespace. -/
def Proper : Operation σ τ → Prop
  | .edit _ change => ∀ o, (change o).key = o.key
  | .seed _ | .requestDeletion _ | .remove _ => True

/-- The store after an operation; a change does nothing where there is no object. -/
def apply (now : Instant) (s : Store σ τ) : Operation σ τ → Store σ τ
  | .seed o => (s.seed now o).2
  | .edit k change => ((s.edit k change).map (·.2)).getD s
  | .requestDeletion k => s.requestDeletion now k
  | .remove k => s.remove k

variable {operation : Operation σ τ} {s : Store σ τ}

theorem apply_edit_of_absent {k : ObjectKey} (h : s.objects.get? k = none) (now : Instant)
    (change : Object σ τ → Object σ τ) : apply now s (.edit k change) = s := by
  rw [apply, edit_of_absent h, Option.map_none, Option.getD_none]

theorem apply_edit_of_stored {k : ObjectKey} {o : Object σ τ} (h : s.objects.get? k = some o)
    (now : Instant) (change : Object σ τ → Object σ τ) :
    apply now s (.edit k change) = (s.write k (change o)).2 := by
  rw [apply, edit_of_stored h, Option.map_some, Option.getD_some]

/-- **An operation does something under one key alone**, as a call does. -/
theorem writes_apply (h : operation.Proper) (now : Instant) (s : Store σ τ) :
    ∃ k x, s.Writes (operation.apply now s) k x := by
  cases operation with
  | seed o => exact ⟨o.key, _, writes_write s fun _ => rfl⟩
  | edit k change =>
    cases ho : s.objects.get? k with
    | none =>
      rw [apply_edit_of_absent ho]
      exact ⟨k, _, writes_refl s k⟩
    | some o =>
      rw [apply_edit_of_stored ho]
      exact ⟨k, _, writes_write s fun hs => (h o).trans (hs k o ho)⟩
  | requestDeletion k => exact ⟨k, writes_requestDeletion s now k⟩
  | remove k => exact ⟨k, none, .of_none (changes_erase s k) (Nat.le_refl _)⟩

/-- It keeps a store keyed. -/
theorem keyed_apply (h : operation.Proper) (now : Instant) (hs : s.Keyed) :
    (operation.apply now s).Keyed := by
  obtain ⟨k, x, hw⟩ := operation.writes_apply h now s
  exact hs.changes hw.toChanges (hw.key hs)

/-- …and only adds new versions. -/
theorem ages_apply (h : operation.Proper) (now : Instant) (s : Store σ τ) :
    s.Ages (operation.apply now s) := by
  obtain ⟨k, x, hw⟩ := operation.writes_apply h now s
  exact hw.ages

end Operation

end Store

end ConfigMerge
