import ConfigMerge.Json.Written

/-!
# Schema — structural schemas of resource payloads

A `Schema` is the part of an OpenAPI schema that payload types need.  `Schema.toJson` writes it as
it appears in a resource definition, `Schema.shape` says which parts of a value it describes, and
`Schema.validates` which values an API server admits: the keywords `type`, `properties`, `required`,
`items`, `enum`, `minimum` and `nullable` count, while the format of an integer is not enforced and any
number that is whole is an integer.
-/

namespace ConfigMerge

/-- A structural schema. -/
inductive Schema where
  | boolean
  | text
  | choice (values : List String)
  | uint32
  | int64
  | dictionary (values : Schema)
  | list (items : Schema)
  | object (properties : List (String × Schema)) (required : List String)
  | nullable (schema : Schema)
  | described (description : String) (schema : Schema)

namespace Schema

instance : Inhabited Schema := ⟨.boolean⟩

/-! ## As JSON -/

/-- A list of texts as a JSON value. -/
def textList (texts : List String) : Json := .arr (texts.map .str)

mutual

/-- The keywords of a schema. -/
def keywords : Schema → SortedMap String Json
  | .boolean => .ofList [("type", .str "boolean")]
  | .text => .ofList [("type", .str "string")]
  | .choice values => .ofList [("enum", textList values), ("type", .str "string")]
  | .uint32 => .ofList
      [("format", .str "uint32"), ("minimum", .float .zero), ("type", .str "integer")]
  | .int64 => .ofList [("format", .str "int64"), ("type", .str "integer")]
  | .dictionary values => .ofList
      [("additionalProperties", .obj values.keywords.entries), ("type", .str "object")]
  | .list items => .ofList [("items", .obj items.keywords.entries), ("type", .str "array")]
  | .object properties required => .ofList <|
      [("properties", .obj (SortedMap.ofList (propertyKeywords properties)).entries),
        ("type", .str "object")] ++
      if required.isEmpty then [] else [("required", textList (required.mergeSort (· ≤ ·)))]
  | .nullable schema => schema.keywords.insert "nullable" (.bool true)
  | .described description schema => schema.keywords.insert "description" (.str description)

/-- The keywords of each property. -/
def propertyKeywords : List (String × Schema) → List (String × Json)
  | [] => []
  | (name, schema) :: rest => (name, .obj schema.keywords.entries) :: propertyKeywords rest

end

/-- The schema as a JSON object. -/
def toJson (s : Schema) : Json := .obj s.keywords.entries

/-! ## Shape -/

mutual

/-- The parts of a value that a schema describes. -/
def shape : Schema → Json.Shape
  | .boolean | .text | .choice _ | .uint32 | .int64 => .whole
  | .dictionary values => .dictionary values.shape
  | .list items => .list items.shape
  | .object properties _ => .record (propertyShapes properties) false
  | .nullable schema | .described _ schema => schema.shape

/-- The shape of each property. -/
def propertyShapes : List (String × Schema) → List (String × Json.Shape)
  | [] => []
  | (name, schema) :: rest => (name, schema.shape) :: propertyShapes rest

end

/-! ## Validation -/

mutual

/-- Whether an API server admits a value under a schema. -/
def validates : Schema → Json → Bool
  | .boolean, j => j.bool?.isSome
  | .text, j => j.text?.isSome
  | .choice values, j =>
    match j with
    | .str s => values.contains s
    | _ => false
  | .uint32, j => j.whole?.any (0 ≤ ·)
  | .int64, j => j.whole?.isSome
  | .dictionary values, j =>
    match j with
    | .obj members => members.all (fun m => values.validates m.2)
    | _ => false
  | .list items, j =>
    match j with
    | .arr js => js.all (fun j => items.validates j)
    | _ => false
  | .object properties required, j =>
    match j with
    | .obj members =>
      required.all (fun name => members.any (·.1 = name))
        && validatesProperties properties members
    | _ => false
  | .nullable schema, j =>
    match j with
    | .null => true
    | j => schema.validates j
  | .described _ schema, j => schema.validates j

/-- Whether every member that is a known property is admitted. -/
def validatesProperties : List (String × Schema) → List (String × Json) → Bool
  | [], _ => true
  | (name, schema) :: rest, members =>
    members.all (fun m => m.1 ≠ name || schema.validates m.2) && validatesProperties rest members

end

end Schema

end ConfigMerge
