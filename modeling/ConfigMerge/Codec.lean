import ConfigMerge.Json.Reader
import ConfigMerge.Schema

/-!
# Codec — how values are written as JSON, read back and described by a schema

A `Codec α` holds the three together.  The codec of a record type is assembled member by member with
`Fields`: each step names a member, says how it is written and read and where it sits in the record,
so that the writer, the reader and the schema cannot drift apart.

A record is written as an object.  It is read from an object, in which unknown members are ignored
and a known one may stand only once, or from the list of its members' values in their order.

A `Reading` is what it takes to read values from text: which parts of the text matter, and what
these stand for.
-/

namespace ConfigMerge

/-- How values are read: the parts of a text that matter and the value that these stand for. -/
structure Reading (α : Type) where
  shape : Json.Shape
  decode : Json → Option α

/-- The value that a text stands for. -/
def Reading.ofText? {α : Type} (r : Reading α) (text : String) : Option α :=
  (Json.partOfText? r.shape text).bind r.decode

/-- A JSON form: how a value is written, which values are read, and the schema of what is written.
-/
structure Codec (α : Type) where
  encode : α → Json
  decode : Json → Option α
  schema : Schema

namespace Codec

variable {α : Type}

/-- How values of the form are read. -/
def reading (c : Codec α) : Reading α := ⟨c.schema.shape, c.decode⟩

/-- The same form with a description in its schema. -/
def described (c : Codec α) (description : String) : Codec α :=
  { c with schema := .described description c.schema }

/-- Texts. -/
def text : Codec String := ⟨.str, Json.text?, .text⟩

/-- Truth values. -/
def boolean : Codec Bool := ⟨.bool, Json.bool?, .boolean⟩

/-- The integer of 32 bits without sign that a JSON integer stands for. -/
def uint32? : Json → Option UInt32
  | .int n => if 0 ≤ n ∧ n < 4_294_967_296 then some (UInt32.ofNat n.toNat) else none
  | _ => none

/-- Integers of 32 bits without sign. -/
def uint32 : Codec UInt32 := ⟨fun n => .int n.toNat, uint32?, .uint32⟩

/-- The integer of 64 bits that a JSON integer stands for. -/
def int64? : Json → Option Int64
  | .int n =>
    if -9_223_372_036_854_775_808 ≤ n ∧ n < 9_223_372_036_854_775_808 then some (Int64.ofInt n)
    else none
  | _ => none

/-- Integers of 64 bits. -/
def int64 : Codec Int64 := ⟨fun n => .int n.toInt, int64?, .int64⟩

/-- The entries of an object whose values all have one form. -/
def entries? (c : Codec α) : Json → Option (SortedMap String α)
  | .obj members => (members.mapM (fun m => (c.decode m.2).map (m.1, ·))).map .ofList
  | _ => none

/-- Objects whose values all have one form; of several members with one name the last counts. -/
def dictionary (c : Codec α) : Codec (SortedMap String α) where
  encode m := .obj (m.entries.map (fun e => (e.1, c.encode e.2)))
  decode := c.entries?
  schema := .dictionary c.schema

/-- Lists of values of one form. -/
def list (c : Codec α) : Codec (List α) where
  encode xs := .arr (xs.map c.encode)
  decode j := j.items?.bind (fun js => js.mapM c.decode)
  schema := .list c.schema

/-- Named choices, each written as its name.  A choice is also read from an object whose only member
has that name and the value `null`. -/
def choice [DecidableEq α] (names : List (String × α)) : Codec α where
  encode a := .str (((names.find? (·.2 = a)).map (·.1)).getD "")
  decode
    | .str s => SortedMap.lookup s names
    | .obj [(s, .null)] => SortedMap.lookup s names
    | _ => none
  schema := .choice (names.map (·.1))

end Codec

/-! ## Records -/

/-- The members from which a record is read; `positional` when they were given as a bare list. -/
structure Record where
  members : List (String × Json)
  positional : Bool

/-- A record with these member names, read from an object or a list. -/
def Json.record? (names : List String) : Json → Option Record
  | .obj members =>
    if (members.map (·.1)).filter (names.contains ·) |>.Nodup then some ⟨members, false⟩ else none
  | .arr items => if items.length ≤ names.length then some ⟨names.zip items, true⟩ else none
  | _ => none

/-- The value given for a member. -/
def Record.find? (r : Record) (name : String) : Option Json := SortedMap.lookup name r.members

/-- A description of the members of the record type `ρ`, as far as they determine a value of `α`. -/
structure Fields (ρ α : Type) where
  names : List String
  write : ρ → List (String × Json)
  read : Record → Option α
  properties : List (String × Schema)
  requiredNames : List String

namespace Fields

variable {ρ α β : Type}

/-- No member yet. -/
def start (value : α) : Fields ρ α := ⟨[], fun _ => [], fun _ => some value, [], []⟩

/-- One more member. -/
def member (p : Fields ρ (α → β)) (name : String) (write : ρ → List (String × Json))
    (read : Record → Option α) (schema : Schema) (required : Bool) : Fields ρ β where
  names := p.names ++ [name]
  write r := p.write r ++ write r
  read r := do
    let f ← p.read r
    let a ← read r
    return f a
  properties := p.properties ++ [(name, schema)]
  requiredNames := if required then p.requiredNames ++ [name] else p.requiredNames

/-- A member that must be there. -/
def required (p : Fields ρ (α → β)) (name : String) (c : Codec α) (get : ρ → α) : Fields ρ β :=
  p.member name (fun r => [(name, c.encode (get r))]) (fun r => (r.find? name).bind c.decode)
    c.schema true

/-- A member that is always written and has a default when it is missing. -/
def defaulted (p : Fields ρ (α → β)) (name : String) (c : Codec α) (default : α) (get : ρ → α) :
    Fields ρ β :=
  p.member name (fun r => [(name, c.encode (get r))])
    (fun r =>
      match r.find? name with
      | none => some default
      | some j => c.decode j)
    c.schema false

/-- A truth value that is written only when it is true. -/
def flag (p : Fields ρ (Bool → β)) (name : String) (get : ρ → Bool) : Fields ρ β :=
  p.member name (fun r => if get r then [(name, .bool true)] else [])
    (fun r =>
      match r.find? name with
      | none => some false
      | some j => j.bool?)
    .boolean false

/-- A list that is written only when it has items. -/
def listing (p : Fields ρ (List α → β)) (name : String) (c : Codec α) (get : ρ → List α) :
    Fields ρ β :=
  p.member name (fun r => if (get r).isEmpty then [] else [(name, c.list.encode (get r))])
    (fun r =>
      match r.find? name with
      | none => some []
      | some j => c.list.decode j)
    c.list.schema false

/-- Reads an optional value, for which `null` stands as well. -/
def readOptional (c : Codec α) : Json → Option (Option α)
  | .null => some none
  | j => (c.decode j).map some

/-- A member that may be missing or `null`, and is written only when present.  A bare list has to
give it. -/
def optional (p : Fields ρ (Option α → β)) (name : String) (c : Codec α) (get : ρ → Option α) :
    Fields ρ β :=
  p.member name (fun r => ((get r).map (fun a => (name, c.encode a))).toList)
    (fun r =>
      match r.find? name with
      | none => if r.positional then none else some none
      | some j => readOptional c j)
    (.nullable c.schema) false

/-- A member as by `optional` that a bare list may leave out as well. -/
def omittable (p : Fields ρ (Option α → β)) (name : String) (c : Codec α) (get : ρ → Option α) :
    Fields ρ β :=
  p.member name (fun r => ((get r).map (fun a => (name, c.encode a))).toList)
    (fun r =>
      match r.find? name with
      | none => some none
      | some j => readOptional c j)
    (.nullable c.schema) false

/-- The form of a record all of whose members are described. -/
def codec (p : Fields ρ ρ) : Codec ρ where
  encode r := .obj (p.write r)
  decode j := (j.record? p.names).bind p.read
  schema := .object p.properties p.requiredNames

/-- Whether every member on its own can be read, all others being missing. -/
def readsEach (p : Fields ρ ρ) (members : List (String × Json)) : Bool :=
  members.all (fun m => (p.read ⟨[m], false⟩).isSome)

/-- The same form for a record whose members may all be missing, read from objects alone.  Of
several members with one name the last counts, but each has to be readable. -/
def objectCodec (p : Fields ρ ρ) : Codec ρ where
  encode r := .obj (p.write r)
  decode
    | .obj members =>
      if p.readsEach members then p.read ⟨(SortedMap.ofList members).entries, false⟩ else none
    | _ => none
  schema := .object p.properties p.requiredNames

end Fields

end ConfigMerge
