import ConfigMerge.Access
import ConfigMerge.Family

/-!
# Pass — computations on the two collections of a family

A `Pass` calls the fragments and the composites of a family and ends with a result or an error.  It
is a program: whoever runs it decides what answers the calls and what happens between them.
-/

namespace ConfigMerge

/-- A call to one of the two collections. -/
inductive PassCall (φ κ : Type) where
  | fragments (call : Call (Fragment φ))
  | composites (call : Call (Composite κ))

/-- The answer to such a call. -/
@[reducible] def PassCall.Answer {φ κ : Type} : PassCall φ κ → Type
  | .fragments c => Except Error c.Result
  | .composites c => Except Error c.Result

/-- A computation on the collections of fragments `φ` and composites `κ`. -/
abbrev Pass (φ κ : Type) := ExceptT Error (Program (PassCall.Answer (φ := φ) (κ := κ)))

namespace Pass

variable {φ κ ρ : Type}

/-- Calls the collection of fragments. -/
def onFragments (c : Call (Fragment φ)) : Pass φ κ c.Result :=
  ExceptT.mk (Program.question (A := PassCall.Answer) (PassCall.fragments c))

/-- Calls the collection of composites. -/
def onComposites (c : Call (Composite κ)) : Pass φ κ c.Result :=
  ExceptT.mk (Program.question (A := PassCall.Answer) (PassCall.composites c))

/-- Replaces a stored fragment. -/
def updateFragment (f : Fragment φ) : Pass φ κ (Fragment φ) := onFragments (.update f)

/-- Replaces a stored composite. -/
def updateComposite (c : Composite κ) : Pass φ κ (Composite κ) := onComposites (.update c)

/-- The outcome of a part, error or not. -/
def attempt (p : Pass φ κ ρ) : Pass φ κ (Except Error ρ) := ExceptT.mk (.ok <$> p.run)

end Pass

end ConfigMerge
