import ConfigMerge.Consul.HeaderMatch

/-!
# Consul/Route — the routes of a service router

A `Route` sends the requests that match it to a destination.  A `RouterSpec` is an ordered list of
routes, and a `RouteSpec` is the single route that one fragment contributes.
-/

namespace ConfigMerge

/-- A condition on one query parameter. -/
structure QueryMatch where
  name : String
  present : Bool := false
  exact : Option String := none
  regex : Option String := none
deriving DecidableEq

/-- The members of a query condition. -/
def QueryMatch.fields : Fields QueryMatch QueryMatch :=
  Fields.start QueryMatch.mk
    |>.required "name" .text (·.name)
    |>.flag "present" (·.present)
    |>.optional "exact" .text (·.exact)
    |>.optional "regex" .text (·.regex)

/-- The JSON form of a query condition. -/
def QueryMatch.codec : Codec QueryMatch := fields.codec

/-- Conditions on an HTTP request. -/
structure RouteHttpMatch where
  pathExact : Option String := none
  pathPrefix : Option String := none
  pathRegex : Option String := none
  header : List HeaderMatch := []
  query : List QueryMatch := []
  methods : List String := []
deriving DecidableEq

/-- The members of a request condition. -/
def RouteHttpMatch.fields : Fields RouteHttpMatch RouteHttpMatch :=
  Fields.start RouteHttpMatch.mk
    |>.optional "pathExact" .text (·.pathExact)
    |>.optional "pathPrefix" .text (·.pathPrefix)
    |>.optional "pathRegex" .text (·.pathRegex)
    |>.listing "header" HeaderMatch.codec (·.header)
    |>.listing "queryParam" QueryMatch.codec (·.query)
    |>.listing "methods" .text (·.methods)

/-- The JSON form of a request condition. -/
def RouteHttpMatch.codec : Codec RouteHttpMatch :=
  fields.codec.described "L7 match criteria of a single route"

/-- What a route applies to. -/
structure RouteMatch where
  http : Option RouteHttpMatch := none
deriving DecidableEq

/-- The members of a route's condition. -/
def RouteMatch.fields : Fields RouteMatch RouteMatch :=
  Fields.start RouteMatch.mk
    |>.optional "http" RouteHttpMatch.codec (·.http)

/-- The JSON form of a route's condition. -/
def RouteMatch.codec : Codec RouteMatch := fields.codec

/-- Where matching requests are sent. -/
structure RouteDestination where
  service : Option String := none
  serviceSubset : Option String := none
  nameSpace : Option String := none
  prefixRewrite : Option String := none
  requestTimeout : Option String := none
  numRetries : Option UInt32 := none
  retryOnConnectFailure : Bool := false
  retryOnStatusCodes : List UInt32 := []
deriving DecidableEq

/-- The members of a destination. -/
def RouteDestination.fields : Fields RouteDestination RouteDestination :=
  Fields.start RouteDestination.mk
    |>.optional "service" .text (·.service)
    |>.optional "serviceSubset" .text (·.serviceSubset)
    |>.optional "namespace" .text (·.nameSpace)
    |>.optional "prefixRewrite" .text (·.prefixRewrite)
    |>.optional "requestTimeout" (.described .text "Duration string, e.g. `15s`")
      (·.requestTimeout)
    |>.optional "numRetries" .uint32 (·.numRetries)
    |>.flag "retryOnConnectFailure" (·.retryOnConnectFailure)
    |>.listing "retryOnStatusCodes" .uint32 (·.retryOnStatusCodes)

/-- The JSON form of a destination. -/
def RouteDestination.codec : Codec RouteDestination :=
  fields.codec.described "Where matching traffic is sent"

/-- One route of a service router. -/
structure Route where
  matching : Option RouteMatch := none
  destination : Option RouteDestination := none
deriving DecidableEq

/-- The members of a route. -/
def Route.fields : Fields Route Route :=
  Fields.start Route.mk
    |>.optional "match" RouteMatch.codec (·.matching)
    |>.optional "destination" RouteDestination.codec (·.destination)

/-- The JSON form of a route. -/
def Route.codec : Codec Route :=
  fields.codec.described
    "One route of a `ServiceRouter`, and the payload of a `ConsulServiceRoute`"

/-- The route that sends every request below a path to a service. -/
def Route.ofPathPrefix (service pathPrefix : String) : Route where
  matching := some { http := some { pathPrefix := some pathPrefix } }
  destination := some { service := some service }

/-- The routes of a service router, in the order in which they are tried. -/
structure RouterSpec where
  routes : List Route
deriving DecidableEq

/-- The members of a router's content. -/
def RouterSpec.fields : Fields RouterSpec RouterSpec :=
  Fields.start RouterSpec.mk
    |>.defaulted "routes" (.list Route.codec) [] (·.routes)

/-- The JSON form of a router's content. -/
def RouterSpec.codec : Codec RouterSpec := fields.codec

/-- The one route that a fragment contributes. -/
structure RouteSpec where
  route : Route
deriving DecidableEq

/-- The members of a route fragment's content. -/
def RouteSpec.fields : Fields RouteSpec RouteSpec :=
  Fields.start RouteSpec.mk
    |>.required "route" Route.codec (·.route)

/-- The JSON form of a route fragment's content. -/
def RouteSpec.codec : Codec RouteSpec := fields.codec

end ConfigMerge
