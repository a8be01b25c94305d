import ConfigMerge.Json.Basic
import ConfigMerge.Program

/-!
# Http/Message — requests, replies and exchanges

An `Exchange` is a program whose questions are requests and whose answers are replies.
-/

namespace ConfigMerge

/-- The methods that the operator uses. -/
inductive Method where
  | get
  | post
  | put
  | patch
  | delete
deriving DecidableEq

/-- The name of a method. -/
def Method.text : Method → String
  | .get => "GET"
  | .post => "POST"
  | .put => "PUT"
  | .patch => "PATCH"
  | .delete => "DELETE"

/-- A request with its JSON body, if it has one, and the type under which the body is sent. -/
structure Request where
  method : Method
  target : String
  contentType : Option String := none
  body : Option Json := none

/-- What comes back: a response, or word that the transport failed. -/
inductive Reply where
  | response (status : Nat) (body : List UInt8)
  | failed (message : String)

/-- A computation that makes requests. -/
abbrev Exchange := Program (fun _ : Request => Reply)

/-- Makes one request. -/
def Request.send (r : Request) : Exchange Reply := Program.question (A := fun _ => Reply) r

/-- The standard phrase for an error status. -/
def reasonPhrase? : Nat → Option String
  | 400 => some "Bad Request"
  | 401 => some "Unauthorized"
  | 402 => some "Payment Required"
  | 403 => some "Forbidden"
  | 404 => some "Not Found"
  | 405 => some "Method Not Allowed"
  | 406 => some "Not Acceptable"
  | 407 => some "Proxy Authentication Required"
  | 408 => some "Request Timeout"
  | 409 => some "Conflict"
  | 410 => some "Gone"
  | 411 => some "Length Required"
  | 412 => some "Precondition Failed"
  | 413 => some "Payload Too Large"
  | 414 => some "URI Too Long"
  | 415 => some "Unsupported Media Type"
  | 416 => some "Range Not Satisfiable"
  | 417 => some "Expectation Failed"
  | 418 => some "I'm a teapot"
  | 421 => some "Misdirected Request"
  | 422 => some "Unprocessable Entity"
  | 423 => some "Locked"
  | 424 => some "Failed Dependency"
  | 425 => some "Too Early"
  | 426 => some "Upgrade Required"
  | 428 => some "Precondition Required"
  | 429 => some "Too Many Requests"
  | 431 => some "Request Header Fields Too Large"
  | 451 => some "Unavailable For Legal Reasons"
  | 500 => some "Internal Server Error"
  | 501 => some "Not Implemented"
  | 502 => some "Bad Gateway"
  | 503 => some "Service Unavailable"
  | 504 => some "Gateway Timeout"
  | 505 => some "HTTP Version Not Supported"
  | 506 => some "Variant Also Negotiates"
  | 507 => some "Insufficient Storage"
  | 508 => some "Loop Detected"
  | 510 => some "Not Extended"
  | 511 => some "Network Authentication Required"
  | _ => none

/-- An error status with its phrase. -/
def statusLine (status : Nat) : String :=
  toString status ++ " " ++ (reasonPhrase? status).getD "<unknown status code>"

end ConfigMerge
