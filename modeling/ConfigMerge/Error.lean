import ConfigMerge.Text.Quoted
import ConfigMerge.Text.Utf8

/-!
# Error — what can go wrong, and how it is classified

A `ClientError` is what the connection to the API server reports.  `Error.classify` sorts it into
the operator's own `Error`, on which everything else decides: `isRetriable` errors deserve a fast
retry, `isTerminal` ones wait for somebody to edit the object, and `clearsOnRetry` ones are
expected to go away once the pass reads the stores afresh.
-/

namespace ConfigMerge

/-! ## Errors of the connection -/

/-- A refusal that the API server explains. -/
structure ApiStatus where
  status : String := "Failure"
  message : String
  reason : String
  code : Nat
deriving DecidableEq

/-- What is wrong with a request target. -/
inductive TargetFault where
  | character
  | length
deriving DecidableEq

/-- What is reported of a target. -/
def TargetFault.message : TargetFault → String
  | .character => "invalid uri character"
  | .length => "uri too long"

/-- Why a request could not be built. -/
inductive RequestFault where
  | invalid (message : String)
  | target (fault : TargetFault)
deriving DecidableEq

/-- A failed exchange with the API server.  Of a connection that breaks, what is reported of it and
what is inside that report are texts of their own. -/
inductive ClientError where
  | api (status : ApiStatus)
  | undecodable
  | connection (message inner : String)
  | service (message : String)
  | uri
  | notUtf8 (fault : Utf8.Fault)
  | eventStream (message : String)
  | lineTooLong
  | tlsRequired
  | request (fault : RequestFault)
deriving DecidableEq

/-- The refusal with the names of its parts. -/
def ApiStatus.details (s : ApiStatus) : String :=
  "ErrorResponse \x7b status: " ++ Quoted.quote s.status ++ ", message: " ++ Quoted.quote s.message
    ++ ", reason: " ++ Quoted.quote s.reason ++ ", code: " ++ toString s.code ++ " \x7d"

/-- What a connection error is reported as. -/
def ClientError.message : ClientError → String
  | .api s => "ApiError: " ++ s.message ++ ": " ++ s.reason ++ " (" ++ s.details ++ ")"
  | .undecodable => "Error deserializing response"
  | .connection message _ => "HyperError: " ++ message
  | .service message => "ServiceError: " ++ message
  | .uri => "HttpError: " ++ TargetFault.character.message
  | .notUtf8 fault => "UTF-8 Error: " ++ fault.message
  | .eventStream message => "Error reading events stream: " ++ message
  | .lineTooLong => "Error finding newline character"
  | .tlsRequired => "TLS required but no TLS stack selected"
  | .request (.invalid message) =>
    "Failed to build request: failed to validate request: " ++ message
  | .request (.target fault) =>
    "Failed to build request: failed to build request: " ++ fault.message

/-! ## Errors of the operator -/

/-- An error of the operator.  `kind` and `name` tell which object was touched. -/
inductive Error where
  | notFound (kind name : String)
  | alreadyExists (kind name : String)
  | conflict (kind name message : String)
  | transient (kind name : String) (source : ClientError)
  | badRequest (message : String)
  | invalid (kind name message : String)
  | timeout (subject : String)
  | client (source : ClientError)
  | serialization
  | config (message : String)
deriving DecidableEq

namespace Error

/-- The class of a connection error raised while an object was touched. -/
def classify (kind name : String) : ClientError → Error
  | .api s =>
    if s.code = 404 then .notFound kind name
    else if s.code = 409 then
      if s.reason = "AlreadyExists" then .alreadyExists kind name
      else .conflict kind name s.message
    else if s.code = 400 ∨ s.code = 422 then .invalid kind name s.message
    else if s.code = 429 ∨ 500 ≤ s.code then .transient kind name (.api s)
    else .client (.api s)
  | .undecodable => .serialization
  | .connection message inner => .transient kind name (.connection message inner)
  | .service message => .transient kind name (.service message)
  | .uri => .transient kind name .uri
  | e => .client e

/-- Whether the condition can clear on its own, so that a fast retry is worth it. -/
def isRetriable : Error → Bool
  | .conflict .. | .transient .. | .timeout _ => true
  | _ => false

/-- Whether a retry cannot succeed before the object itself changes. -/
def isTerminal : Error → Bool
  | .badRequest _ | .invalid .. => true
  | _ => false

/-- Whether an object was absent. -/
def isNotFound : Error → Bool
  | .notFound .. => true
  | _ => false

/-- Whether a pass that reads the stores afresh is expected not to meet the error again. -/
def clearsOnRetry : Error → Bool
  | .alreadyExists .. | .notFound .. => true
  | e => e.isRetriable

/-- The short name of an error's class. -/
def label : Error → String
  | .notFound .. => "not_found"
  | .alreadyExists .. => "already_exists"
  | .conflict .. => "conflict"
  | .transient .. => "transient"
  | .badRequest _ => "bad_request"
  | .invalid .. => "invalid"
  | .timeout _ => "timeout"
  | .client _ => "kube"
  | .serialization => "serialization"
  | .config _ => "config"

/-- What an error is reported as. -/
def message : Error → String
  | .notFound kind name => kind ++ " " ++ name ++ " not found"
  | .alreadyExists kind name => kind ++ " " ++ name ++ " already exists"
  | .conflict kind name message => "Conflict writing " ++ kind ++ " " ++ name ++ ": " ++ message
  | .transient kind name source =>
    "Transient store error for " ++ kind ++ " " ++ name ++ ": " ++ source.message
  | .badRequest message => "Bad request: " ++ message
  | .invalid kind name message => "Invalid " ++ kind ++ " " ++ name ++ ": " ++ message
  | .timeout subject => "Reconcile of " ++ subject ++ " timed out"
  | .client source => "Kubernetes API error: " ++ source.message
  | .serialization => "Serialization error"
  | .config message => "Configuration error: " ++ message

end Error

end ConfigMerge
