/-!
# Service/Tracing — where traces go

Traces are exported when the environment names a collector.
-/

namespace ConfigMerge.Tracing

/-- The name under which the operator's traces appear. -/
def serviceName : String := "consul-merge-operator"

/-- The environment variable that names the collector. -/
def endpointVariable : String := "OTEL_EXPORTER_OTLP_ENDPOINT"

/-- Whether traces are exported, for a value of `endpointVariable` if there is one. -/
def isEnabled (endpoint : Option String) : Bool := endpoint.any (· ≠ "")

end ConfigMerge.Tracing
