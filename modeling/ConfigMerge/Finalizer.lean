import ConfigMerge.Pass

/-!
# Finalizer — keeping a fragment until its removal has been merged

A live fragment gets the token, and a deleting one loses every copy of it, which lets the store drop
the fragment.  `settleFinalizer` writes at most once.
-/

namespace ConfigMerge

/-- The metadata that the deletion state calls for, or `none` when nothing is to be changed. -/
def Metadata.finalizerChange? (m : Metadata) (token : String) : Option Metadata :=
  match m.isBeingDeleted, m.hasFinalizer token with
  | true, true => some { m with finalizers := some (m.finalizerList.filter (· ≠ token)) }
  | true, false => none
  | false, true => none
  | false, false => some { m with finalizers := some (m.finalizerList ++ [token]) }

/-- Brings the token on the caller's own object in line with its deletion state, and says whether it
was written.  The object is changed first and written then: after a write it is the one that the
store returned, so that later writes carry its version, and when the write fails it keeps the
change. -/
def settleFinalizer {φ κ σ τ : Type} (update : Object σ τ → Pass φ κ (Object σ τ))
    (token : String) (o : Object σ τ) :
    Program (PassCall.Answer (φ := φ) (κ := κ)) (Except Error Bool × Object σ τ) :=
  match o.metadata.finalizerChange? token with
  | none => return (.ok false, o)
  | some metadata => do
    let changed := { o with metadata }
    match ← (update changed).run with
    | .ok written => return (.ok true, written)
    | .error e => return (.error e, changed)

/-- An object after its finalizer was looked at, and whether it was written. -/
structure FinalizerResult (σ τ : Type) where
  object : Object σ τ
  written : Bool

/-- The same as a part of a pass, which an error ends. -/
def reconcileFinalizer {φ κ σ τ : Type} (update : Object σ τ → Pass φ κ (Object σ τ))
    (token : String) (o : Object σ τ) : Pass φ κ (FinalizerResult σ τ) :=
  ExceptT.mk do
    let (written, object) ← settleFinalizer update token o
    return written.map (⟨object, ·⟩)

/-- A part of a pass that looks at a finalizer makes the write that is called for, if one is. -/
theorem reconcileFinalizer_eq {φ κ σ τ : Type} (update : Object σ τ → Pass φ κ (Object σ τ))
    (token : String) (o : Object σ τ) :
    reconcileFinalizer update token o =
      match o.metadata.finalizerChange? token with
      | none => pure ⟨o, false⟩
      | some metadata => do
        let written ← update { o with metadata }
        return ⟨written, true⟩ := by
  unfold reconcileFinalizer settleFinalizer
  cases o.metadata.finalizerChange? token with
  | none => rfl
  | some metadata =>
    refine (Program.andThen_assoc _ _ _).trans ?_
    refine congrArg (update { o with metadata }).run.andThen (funext fun r => ?_)
    cases r <;> rfl

end ConfigMerge
