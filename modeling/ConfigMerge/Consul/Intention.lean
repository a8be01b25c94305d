import ConfigMerge.Consul.HeaderMatch

/-!
# Consul/Intention — who may call a service

A `SourceIntention` allows or denies one caller.  An `IntentionsSpec` collects the callers of one
destination service, and a `SourceSpec` is the single caller that one fragment contributes.
-/

namespace ConfigMerge

/-- What happens to a call. -/
inductive IntentionAction where
  | allow
  | deny
deriving DecidableEq

/-- The JSON form of an action. -/
def IntentionAction.codec : Codec IntentionAction :=
  (Codec.choice [("allow", .allow), ("deny", .deny)]).described "Intention action"

/-- Conditions on an HTTP request. -/
structure HttpPermission where
  pathExact : Option String := none
  pathPrefix : Option String := none
  pathRegex : Option String := none
  header : List HeaderMatch := []
  methods : List String := []
deriving DecidableEq

/-- The members of a request condition. -/
def HttpPermission.fields : Fields HttpPermission HttpPermission :=
  Fields.start HttpPermission.mk
    |>.optional "pathExact" .text (·.pathExact)
    |>.optional "pathPrefix" .text (·.pathPrefix)
    |>.optional "pathRegex" .text (·.pathRegex)
    |>.listing "header" HeaderMatch.codec (·.header)
    |>.listing "methods" .text (·.methods)

/-- The JSON form of a request condition. -/
def HttpPermission.codec : Codec HttpPermission := fields.codec

/-- An action for the requests that meet a condition. -/
structure Permission where
  action : IntentionAction
  http : Option HttpPermission := none
deriving DecidableEq

/-- The members of a permission. -/
def Permission.fields : Fields Permission Permission :=
  Fields.start Permission.mk
    |>.required "action" IntentionAction.codec (·.action)
    |>.optional "http" HttpPermission.codec (·.http)

/-- The JSON form of a permission. -/
def Permission.codec : Codec Permission := fields.codec

/-- One caller, allowed or denied as a whole or request by request. -/
structure SourceIntention where
  name : String
  nameSpace : Option String := none
  action : Option IntentionAction := none
  permissions : List Permission := []
  description : Option String := none
deriving DecidableEq

/-- The members of a caller. -/
def SourceIntention.fields : Fields SourceIntention SourceIntention :=
  Fields.start SourceIntention.mk
    |>.required "name" .text (·.name)
    |>.optional "namespace" .text (·.nameSpace)
    |>.optional "action"
      (IntentionAction.codec.described "L4 action; mutually exclusive with `permissions`")
      (·.action)
    |>.listing "permissions" Permission.codec (·.permissions)
    |>.optional "description" .text (·.description)

/-- The JSON form of a caller. -/
def SourceIntention.codec : Codec SourceIntention :=
  fields.codec.described "One caller allowed or denied by a `ServiceIntentions` entry"

/-- The caller of this name, allowed every call. -/
def SourceIntention.allowing (name : String) : SourceIntention :=
  { name, action := some .allow }

/-- The service that is called. -/
structure IntentionDestination where
  name : String := ""
  nameSpace : Option String := none
deriving DecidableEq

/-- The members of a destination. -/
def IntentionDestination.fields : Fields IntentionDestination IntentionDestination :=
  Fields.start IntentionDestination.mk
    |>.defaulted "name" .text "" (·.name)
    |>.optional "namespace" .text (·.nameSpace)

/-- The JSON form of a destination. -/
def IntentionDestination.codec : Codec IntentionDestination := fields.codec

/-- The callers of one service. -/
structure IntentionsSpec where
  destination : IntentionDestination
  sources : List SourceIntention
deriving DecidableEq

/-- The members of an intentions entry. -/
def IntentionsSpec.fields : Fields IntentionsSpec IntentionsSpec :=
  Fields.start IntentionsSpec.mk
    |>.defaulted "destination" IntentionDestination.codec {} (·.destination)
    |>.defaulted "sources" (.list SourceIntention.codec) [] (·.sources)

/-- The JSON form of an intentions entry. -/
def IntentionsSpec.codec : Codec IntentionsSpec := fields.codec

/-- The one caller that a fragment contributes. -/
structure SourceSpec where
  source : SourceIntention
deriving DecidableEq

/-- The members of a caller fragment's content. -/
def SourceSpec.fields : Fields SourceSpec SourceSpec :=
  Fields.start SourceSpec.mk
    |>.required "source" SourceIntention.codec (·.source)

/-- The JSON form of a caller fragment's content. -/
def SourceSpec.codec : Codec SourceSpec := fields.codec

end ConfigMerge
