import ConfigMerge.Error

/-!
# Error/Details — an error with its inner structure, for diagnosis

The message of an error is made for its reader; the details name the class of the error and of what
is inside it.
-/

namespace ConfigMerge

/-- The class of what is wrong with a target. -/
def TargetFault.details : TargetFault → String
  | .character => "http::Error(InvalidUri(InvalidUriChar))"
  | .length => "http::Error(InvalidUri(TooLong))"

/-- The class and content of a connection error. -/
def ClientError.details : ClientError → String
  | .api s => "Api(" ++ s.details ++ ")"
  | .undecodable => "SerdeError"
  | .connection _ inner => "HyperError(" ++ inner ++ ")"
  | .service message => "Service(" ++ Quoted.quote message ++ ")"
  | .uri => "HttpError(" ++ TargetFault.character.details ++ ")"
  | .notUtf8 _ => "FromUtf8"
  | .eventStream message => "ReadEvents(" ++ Quoted.quote message ++ ")"
  | .lineTooLong => "LinesCodecMaxLineLengthExceeded"
  | .tlsRequired => "TlsRequired"
  | .request (.invalid message) => "BuildRequest(Validation(" ++ Quoted.quote message ++ "))"
  | .request (.target fault) => "BuildRequest(BuildRequest(" ++ fault.details ++ "))"

/-- The class and content of an error that ends the operator. -/
def Error.details : Error → String
  | .config message => "ConfigError(" ++ Quoted.quote message ++ ")"
  | .client e => "KubeError(" ++ e.details ++ ")"
  | e => e.message

end ConfigMerge
