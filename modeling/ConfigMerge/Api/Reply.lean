import ConfigMerge.Error
import ConfigMerge.Http.Message
import ConfigMerge.Resource.Object

/-!
# Api/Reply — reading what the API server sends back

Statuses from 400 to 599 are refusals; their body should explain itself as an `ApiStatus`.  Every
other reply is a success, whose body must be the JSON of what was asked for.
-/

namespace ConfigMerge

/-! ## Refusals -/

/-- An integer of 16 bits without sign. -/
def statusCode? : Json → Option Nat
  | .int n => if 0 ≤ n ∧ n < 65536 then some n.toNat else none
  | _ => none

/-- The JSON form of an API status code. -/
def statusCodeCodec : Codec Nat := ⟨fun n => .int n, statusCode?, .uint32⟩

/-- The members of a refusal. -/
def ApiStatus.fields : Fields ApiStatus ApiStatus :=
  Fields.start ApiStatus.mk
    |>.required "status" .text (·.status)
    |>.defaulted "message" .text "" (·.message)
    |>.defaulted "reason" .text "" (·.reason)
    |>.required "code" statusCodeCodec (·.code)

/-- The JSON form of a refusal. -/
def ApiStatus.codec : Codec ApiStatus := fields.codec

/-- The refusal in a response's text, or one made up of the status and the text. -/
def refusalOf (status : Nat) (text : String) : ApiStatus :=
  (ApiStatus.codec.reading.ofText? text).getD
    { status := statusLine status
      message := Quoted.quote text
      reason := "Failed to parse error data"
      code := status }

namespace Reply

/-- The text of a success. -/
def text : Reply → Except ClientError String
  | .failed message => .error (.service message)
  | .response status body => do
    let text ← (Utf8.decode body).mapError .notUtf8
    if 400 ≤ status ∧ status < 600 then .error (.api (refusalOf status text)) else .ok text

/-- The value that a success holds. -/
def read {α : Type} (reading : Reading α) (r : Reply) : Except ClientError α := do
  match reading.ofText? (← r.text) with
  | some a => return a
  | none => throw .undecodable

/-- The value that a success holds, or nothing when the server says that it is not there. -/
def readOptional {α : Type} (reading : Reading α) (r : Reply) :
    Except ClientError (Option α) :=
  match r.read reading with
  | .ok a => .ok (some a)
  | .error (.api s) => if s.reason = "NotFound" then .ok none else .error (.api s)
  | .error e => .error e

end Reply

/-! ## Lists -/

/-- The metadata of a list. -/
structure ListMetadata where
  resourceVersion : Option String := none
  continueToken : Option String := none
  remainingItemCount : Option Int64 := none
  selfLink : Option String := none

/-- The members of a list's metadata. -/
def ListMetadata.fields : Fields ListMetadata ListMetadata :=
  Fields.start ListMetadata.mk
    |>.omittable "resourceVersion" .text (·.resourceVersion)
    |>.omittable "continue" .text (·.continueToken)
    |>.omittable "remainingItemCount" .int64 (·.remainingItemCount)
    |>.omittable "selfLink" .text (·.selfLink)

/-- The items of a list, which must be given but may be `null`. -/
def decodeItems {α : Type} (decode : Json → Option α) (j : Json) : Option (List α) :=
  match j with
  | .obj _ => do
    let r ← j.record? ["metadata", "items"]
    match r.find? "metadata" with
    | none => pure ()
    | some m => let _ ← ListMetadata.fields.objectCodec.decode m
    match ← r.find? "items" with
    | .null => return []
    | items => (← items.items?).mapM decode
  | _ => none

/-- How lists are read.  Their further members have to be readable as well. -/
def Reading.items {α : Type} (r : Reading α) : Reading (List α) where
  shape := .record [("metadata", ListMetadata.fields.objectCodec.schema.shape),
    ("items", .list r.shape)] true
  decode := decodeItems r.decode

/-! ## Answers to deletions -/

/-- What a status object says about a cause. -/
def decodeCause (j : Json) : Option Unit := do
  let r ← j.record? ["reason", "message", "field"]
  for name in ["reason", "message", "field"] do
    if let some v := r.find? name then let _ ← v.text?

/-- The details of a status object. -/
def decodeDetails (j : Json) : Option Unit := do
  let r ← j.record? ["name", "group", "kind", "uid", "causes", "retryAfterSeconds"]
  for name in ["name", "group", "kind", "uid"] do
    if let some v := r.find? name then let _ ← v.text?
  if let some v := r.find? "causes" then let _ ← (← v.items?).mapM decodeCause
  if let some v := r.find? "retryAfterSeconds" then let _ ← Codec.uint32? v

/-- A status object, with which the server may answer a deletion. -/
def decodeStatus (j : Json) : Option Unit := do
  let r ← j.record? ["status", "code", "message", "reason", "details"]
  if r.positional then none
  for name in ["message", "reason"] do
    if let some v := r.find? name then let _ ← v.text?
  if let some v := r.find? "code" then let _ ← statusCode? v
  match r.find? "status" with
  | none | some .null => pure ()
  | some v =>
    let s ← v.text?
    if s ≠ "Success" ∧ s ≠ "Failure" then none
  match r.find? "details" with
  | none | some .null => pure ()
  | some v => decodeDetails v

/-- The answer to a deletion: a status object or the deleted object. -/
def decodeDeletion {α : Type} (decode : Json → Option α) (j : Json) : Option Unit :=
  if (j.member? "kind").bind (·.text?) = some "Status" then decodeStatus j
  else (decode j).map (fun _ => ())

/-- How answers to deletions are read; as they may be of either kind, all of them matters. -/
def Reading.deletion {α : Type} (r : Reading α) : Reading Unit := ⟨.whole, decodeDeletion r.decode⟩

end ConfigMerge
