import ConfigMerge.Codec
import ConfigMerge.Time.Rfc3339

/-!
# Resource/Metadata — what every stored object carries beside its content

`Metadata` identifies an object, counts its versions, and holds its labels, finalizers, owners and
deletion mark.  A list or map that is present but empty is kept apart from one that is missing.
-/

namespace ConfigMerge

/-- The reference of an object to one that it belongs to. -/
structure OwnerReference where
  apiVersion : String
  kind : String
  name : String
  uid : String
  controller : Option Bool := none
  blockOwnerDeletion : Option Bool := none
deriving DecidableEq

/-- Labels and annotations. -/
abbrev Dictionary := SortedMap String String

/-- The metadata of an object. -/
structure Metadata where
  name : Option String := none
  nameSpace : Option String := none
  uid : Option String := none
  resourceVersion : Option String := none
  generateName : Option String := none
  generation : Option Int64 := none
  deletionGracePeriodSeconds : Option Int64 := none
  labels : Option Dictionary := none
  annotations : Option Dictionary := none
  finalizers : Option (List String) := none
  creationTimestamp : Option Timestamp := none
  deletionTimestamp : Option Timestamp := none
  ownerReferences : Option (List OwnerReference) := none
deriving DecidableEq

/-! ## JSON form -/

/-- Times of whole seconds. -/
def Timestamp.codec : Codec Timestamp where
  encode t := .str (Rfc3339.seconds t)
  decode j := j.text?.bind Rfc3339.timestamp?
  schema := .text

/-- A text that is always written, and empty when it is missing or `null`. -/
def Fields.textOrEmpty {ρ β : Type} (p : Fields ρ (String → β)) (name : String)
    (get : ρ → String) : Fields ρ β :=
  p.member name (fun r => [(name, .str (get r))])
    (fun r =>
      match r.find? name with
      | none | some .null => some ""
      | some j => j.text?)
    .text true

/-- The members of an owner reference. -/
def OwnerReference.fields : Fields OwnerReference OwnerReference :=
  Fields.start OwnerReference.mk
    |>.textOrEmpty "apiVersion" (·.apiVersion)
    |>.textOrEmpty "kind" (·.kind)
    |>.textOrEmpty "name" (·.name)
    |>.textOrEmpty "uid" (·.uid)
    |>.omittable "controller" .boolean (·.controller)
    |>.omittable "blockOwnerDeletion" .boolean (·.blockOwnerDeletion)

/-- The JSON form of an owner reference. -/
def OwnerReference.codec : Codec OwnerReference := fields.objectCodec

/-- The members of metadata. -/
def Metadata.fields : Fields Metadata Metadata :=
  Fields.start Metadata.mk
    |>.omittable "name" .text (·.name)
    |>.omittable "namespace" .text (·.nameSpace)
    |>.omittable "uid" .text (·.uid)
    |>.omittable "resourceVersion" .text (·.resourceVersion)
    |>.omittable "generateName" .text (·.generateName)
    |>.omittable "generation" .int64 (·.generation)
    |>.omittable "deletionGracePeriodSeconds" .int64 (·.deletionGracePeriodSeconds)
    |>.omittable "labels" (.dictionary .text) (·.labels)
    |>.omittable "annotations" (.dictionary .text) (·.annotations)
    |>.omittable "finalizers" (.list .text) (·.finalizers)
    |>.omittable "creationTimestamp" Timestamp.codec (·.creationTimestamp)
    |>.omittable "deletionTimestamp" Timestamp.codec (·.deletionTimestamp)
    |>.omittable "ownerReferences" (.list OwnerReference.codec) (·.ownerReferences)

/-- The JSON form of metadata. -/
def Metadata.codec : Codec Metadata := fields.objectCodec

/-! ## Reading metadata -/

namespace Metadata

/-- The name of an object, else the stem from which the server is to make one. -/
def anyName (m : Metadata) : String := m.name.getD (m.generateName.getD "")

/-- The namespace of an object; objects without one live in `default`. -/
def effectiveNamespace (m : Metadata) : String := m.nameSpace.getD "default"

/-- The value of a label. -/
def label? (m : Metadata) (key : String) : Option String := m.labels.bind (·.get? key)

/-- Whether the deletion of the object has been requested. -/
def isBeingDeleted (m : Metadata) : Bool := m.deletionTimestamp.isSome

/-- The finalizers, none when the list is missing. -/
def finalizerList (m : Metadata) : List String := m.finalizers.getD []

/-- The owners, none when the list is missing. -/
def owners (m : Metadata) : List OwnerReference := m.ownerReferences.getD []

/-- Whether the object carries a finalizer token. -/
def hasFinalizer (m : Metadata) (token : String) : Bool := m.finalizerList.contains token

/-- Sets a label. -/
def withLabel (m : Metadata) (key value : String) : Metadata :=
  { m with labels := some ((m.labels.getD .empty).insert key value) }

end Metadata

end ConfigMerge
