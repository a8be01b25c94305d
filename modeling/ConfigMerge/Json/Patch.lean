import ConfigMerge.Json.Basic

/-!
# Json/Patch — merge patches

A merge patch describes a change to a JSON value: an object changes the members it names and removes
those it gives as `null`, and anything else replaces the value as a whole.
-/

namespace ConfigMerge.Json

mutual

/-- The target after a patch. -/
def patched (target : Json) : Json → Json
  | .obj members => .obj (patchedMembers (target.members?.getD SortedMap.empty) members).entries
  | .arr items => .arr items
  | .str s => .str s
  | .float x => .float x
  | .int n => .int n
  | .bool b => .bool b
  | .null => .null

/-- The members of a target after those of a patch. -/
def patchedMembers (target : SortedMap String Json) :
    List (String × Json) → SortedMap String Json
  | [] => target
  | (name, .null) :: rest => patchedMembers (target.erase name) rest
  | (name, value) :: rest =>
    patchedMembers (target.insert name (((target.get? name).getD .null).patched value)) rest

end

end ConfigMerge.Json
