import ConfigMerge.Consul.Intention
import ConfigMerge.Consul.Route
import ConfigMerge.Resource.FragmentStatus
import ConfigMerge.Resource.Object

/-!
# Family — fragments and the composites that they are merged into

A `Family` joins a kind of fragments to a kind of composites: which label of a fragment names its
composite, which item a fragment contributes, and how a composite is made of items.  The operator
works for two families, `Family.routes` and `Family.intentions`, by the same rules.
-/

namespace ConfigMerge

/-- A fragment with content `φ`. -/
abbrev Fragment (φ : Type) := Object φ FragmentStatus

/-- A composite with content `κ`; composites have no status. -/
abbrev Composite (κ : Type) := Object κ Empty

/-- A kind of fragments with content `φ` that contribute items `ι` to composites with content `κ`.
`stamp` sets what a composite's content takes from its name, and leaves the items alone. -/
structure Family (φ κ ι : Type) where
  fragments : ResourceType φ FragmentStatus
  composites : ResourceType κ Empty
  keyLabel : String
  controller : String
  item : φ → ι
  compose : List ι → κ
  items : κ → List ι
  stamp : String → κ → κ
  items_compose : ∀ is, items (compose is) = is
  items_stamp : ∀ name content, items (stamp name content) = items content

/-- The group in which fragments are served. -/
def fragmentGroup : String := "service.consul.k8s.nativechat.com"

/-- The group in which composites are served. -/
def compositeGroup : String := "consul.hashicorp.com"

/-- The token that keeps a fragment until its removal has been merged. -/
def fragmentFinalizer : String := "finalizer.service.consul.k8s.nativechat.com"

namespace Family

/-- Routes and the service routers that hold them. -/
def routes : Family RouteSpec RouterSpec Route where
  fragments :=
    ⟨⟨fragmentGroup, "v1alpha1", "ConsulServiceRoute", "consulserviceroutes"⟩, RouteSpec.codec,
      some FragmentStatus.codec⟩
  composites := ⟨⟨compositeGroup, "v1alpha1", "ServiceRouter", "servicerouters"⟩,
    RouterSpec.codec, none⟩
  keyLabel := "service.consul.k8s.nativechat.com/service-router"
  controller := "consulserviceroute"
  item := (·.route)
  compose := .mk
  items := (·.routes)
  stamp _ content := content
  items_compose _ := rfl
  items_stamp _ _ := rfl

/-- Callers and the intentions entries that hold them; an entry is for the service that it is named
after. -/
def intentions : Family SourceSpec IntentionsSpec SourceIntention where
  fragments :=
    ⟨⟨fragmentGroup, "v1alpha1", "ConsulServiceIntentionsSource", "consulserviceintentionssources"⟩,
      SourceSpec.codec, some FragmentStatus.codec⟩
  composites := ⟨⟨compositeGroup, "v1alpha1", "ServiceIntentions", "serviceintentionses"⟩,
    IntentionsSpec.codec, none⟩
  keyLabel := "service.consul.k8s.nativechat.com/service-intentions"
  controller := "consulserviceintentionssource"
  item := (·.source)
  compose := .mk {}
  items := (·.sources)
  stamp name content := { content with destination := { content.destination with name } }
  items_compose _ := rfl
  items_stamp _ _ := rfl

end Family

/-! ## Sample fragments -/

/-- The fragment that sends the requests below a path to the service of its own name, for a router
unless that is empty. -/
def Fragment.ofPathPrefix (name router pathPrefix : String) : Fragment RouteSpec :=
  let metadata : Metadata := { name := some name, nameSpace := some "default" }
  { metadata := if router = "" then metadata else metadata.withLabel Family.routes.keyLabel router
    spec := ⟨.ofPathPrefix name pathPrefix⟩ }

/-- The fragment that allows one caller to call a destination. -/
def Fragment.allowing (name destination caller : String) : Fragment SourceSpec :=
  let metadata : Metadata := { name := some name, nameSpace := some "default" }
  { metadata := metadata.withLabel Family.intentions.keyLabel destination
    spec := ⟨.allowing caller⟩ }

end ConfigMerge
