import ConfigMerge.Error
import ConfigMerge.Program
import ConfigMerge.Resource.Object

/-!
# Access — the calls to a collection of objects

A `Call` is one round trip to the collection of one kind of objects; nothing is cached.  Its answer
is a result or a classified error.
-/

namespace ConfigMerge

/-- A call to a collection of objects `ω`.  The writes carry the resource version that they are
based on in the object. -/
inductive Call (ω : Type) where
  | get (nameSpace name : String)
  | list (nameSpace : String)
  | listByLabel (nameSpace label value : String)
  | create (object : ω)
  | update (object : ω)
  | updateStatus (object : ω)
  | delete (object : ω)

namespace Call

/-- The result of a call that succeeds. -/
@[reducible] def Result {ω : Type} : Call ω → Type
  | .get .. => Option ω
  | .list _ | .listByLabel .. => List ω
  | .create _ | .update _ | .updateStatus _ => ω
  | .delete _ => Unit

/-- The kinds of calls, as they are counted. -/
inductive Verb where
  | get
  | list
  | create
  | update
  | updateStatus
  | delete
deriving DecidableEq

/-- All kinds of calls. -/
def Verb.all : List Verb := [.get, .list, .create, .update, .updateStatus, .delete]

/-- Whether a call of this kind changes the collection. -/
def Verb.isWrite : Verb → Bool
  | .get | .list => false
  | .create | .update | .updateStatus | .delete => true

/-- The kind of a call. -/
def verb {ω : Type} : Call ω → Verb
  | .get .. => .get
  | .list _ | .listByLabel .. => .list
  | .create _ => .create
  | .update _ => .update
  | .updateStatus _ => .updateStatus
  | .delete _ => .delete

/-- The name by which an error of the call refers to what was touched. -/
def subject {σ τ : Type} : Call (Object σ τ) → String
  | .get _ name => name
  | .list nameSpace => nameSpace
  | .listByLabel _ _ value => value
  | .create o | .update o | .updateStatus o | .delete o => o.metadata.anyName

end Call

end ConfigMerge
