import ConfigMerge.Number.Binary64
import ConfigMerge.SortedMap

/-!
# Json/Basic — JSON values and their canonical form

A `Json` value keeps the members of an object as they were written, in order and with repetitions;
numbers are exact integers or finite doubles.  `Json.canonical` sorts the members of every object by
name and keeps the last of several with one name.
-/

namespace ConfigMerge

/-- A JSON value. -/
inductive Json where
  | null
  | bool (b : Bool)
  | int (n : Int)
  | float (x : Binary64)
  | str (s : String)
  | arr (items : List Json)
  | obj (members : List (String × Json))

namespace Json

instance : Inhabited Json := ⟨.null⟩

/-! ## Canonical form -/

mutual

/-- The value with the members of every object in order of their names, each name once. -/
def canonical : Json → Json
  | .arr items => .arr (canonicalItems items)
  | .obj members => .obj (SortedMap.ofList (canonicalMembers members)).entries
  | .null => .null
  | .bool b => .bool b
  | .int n => .int n
  | .float x => .float x
  | .str s => .str s

/-- Every item in canonical form. -/
def canonicalItems : List Json → List Json
  | [] => []
  | item :: rest => item.canonical :: canonicalItems rest

/-- Every member's value in canonical form. -/
def canonicalMembers : List (String × Json) → List (String × Json)
  | [] => []
  | (name, value) :: rest => (name, value.canonical) :: canonicalMembers rest

end

theorem canonicalItems_eq_map (items : List Json) :
    canonicalItems items = items.map canonical := by
  induction items with
  | nil => rfl
  | cons _ _ ih => simp [canonicalItems, ih]

theorem canonicalMembers_eq_map (members : List (String × Json)) :
    canonicalMembers members = members.map (fun m => (m.1, m.2.canonical)) := by
  induction members with
  | nil => rfl
  | cons _ _ ih => simp [canonicalMembers, ih]

/-! ## Access -/

/-- The value of an object's member; of several with one name the last. -/
def member? (name : String) : Json → Option Json
  | .obj members => (SortedMap.ofList members).get? name
  | _ => none

/-- The text of a string. -/
def text? : Json → Option String
  | .str s => some s
  | _ => none

/-- The truth value of a boolean. -/
def bool? : Json → Option Bool
  | .bool b => some b
  | _ => none

/-- The value of an integer. -/
def int? : Json → Option Int
  | .int n => some n
  | _ => none

/-- The integer that a number is equal to. -/
def whole? : Json → Option Int
  | .int n => some n
  | .float x => x.toInt?
  | _ => none

/-- The items of a list. -/
def items? : Json → Option (List Json)
  | .arr items => some items
  | _ => none

/-- The members of an object, each name once. -/
def members? : Json → Option (SortedMap String Json)
  | .obj members => some (SortedMap.ofList members)
  | _ => none

end Json

end ConfigMerge
