import ConfigMerge.Proofs.Json.Spelling
import ConfigMerge.Schema
import Mathlib.Algebra.Group.Int.Defs
import Mathlib.Algebra.Group.Nat.Defs

/-!
# Proofs/Json/Wanted — values whose texts are read as a whole

A reader keeps of a text only what its shape wants and what is not nested too deep.  A value is
`Json.Wanted` by a shape if nothing of it is lost that way.  Values of the payload types are wanted by
the shapes of their schemas, because a schema names every member that may be written
(`Schema.member?_shape`).
-/

namespace ConfigMerge

namespace Json

open Written (readItems? readMembers?)

/-- All of the value is wanted by the shape, and it is not nested deeper than it may be. -/
def Wanted (depth : Nat) (s : Shape) (j : Json) : Prop := j.spelled.read? depth s = some j

variable {depth : Nat} {s : Shape}

theorem wanted_bool (b : Bool) : (Json.bool b).Wanted depth s := by
  rw [Wanted, spelled, Written.read?]

theorem wanted_str (text : String) : (Json.str text).Wanted depth s := by
  rw [Wanted, spelled, Written.read?, textOf?_toList, Option.map_some]

/-- Integers of 64 bits are read exactly. -/
theorem value?_numeral {n : Int} (hlow : -2 ^ 63 ≤ n) (hhigh : n < 2 ^ 64) :
    (numeral n).value? = some (.int n) := by
  have hexact : Nat.ofDigitChars 10 (numeral n).whole 0 = n.natAbs := Nat.ofDigitChars_ten_toDigits
  have hsign : (if n < 0 then -(n.natAbs : Int) else n.natAbs) = n := by
    split <;> omega
  have hrange : if n < 0 then n.natAbs ≤ 2 ^ 63 else n.natAbs < 2 ^ 64 := by
    split <;> omega
  have hzero : 0 ≤ n ∨ n ≠ 0 := by
    omega
  rw [Numeral.value?, hexact]
  simp only [numeral, decide_eq_true_eq]
  rw [if_pos ⟨rfl, rfl, by simpa using hzero, hrange⟩, hsign]

theorem wanted_int {n : Int} (hlow : -2 ^ 63 ≤ n) (hhigh : n < 2 ^ 64) :
    (Json.int n).Wanted depth s := by
  rw [Wanted, spelled, Written.read?, value?_numeral hlow hhigh]

theorem wanted_arr {items : List Json} (h : ∀ item ∈ items, item.Wanted depth s) :
    (Json.arr items).Wanted (depth + 1) (.list s) := by
  have hitems : readItems? depth [] s (spelledItems items) = some items := by
    induction items with
    | nil => rw [spelledItems, readItems?]
    | cons item rest ih =>
      rw [spelledItems, readItems?, List.headD_nil, h item List.mem_cons_self, List.tail_nil,
        ih fun item' hitem' => h item' (List.mem_cons_of_mem item hitem')]
      rfl
  rw [Wanted, spelled, Written.read?]
  dsimp only [Shape.firstItems, Shape.furtherItem]
  rw [hitems, Option.map_some]

theorem readMembers?_spelled {members : List (String × Json)}
    (h : ∀ m ∈ members, ∃ s', s.member? m.1 = some s' ∧ m.2.Wanted depth s') :
    readMembers? depth s (spelledMembers members) = some members := by
  induction members with
  | nil => rw [spelledMembers, readMembers?]
  | cons m rest ih =>
    obtain ⟨name, value⟩ := m
    obtain ⟨s', hs', hvalue⟩ := h _ List.mem_cons_self
    rw [spelledMembers, readMembers?, textOf?_toList, Option.bind_eq_bind, Option.bind_some]
    simp only [hs']
    rw [hvalue, ih fun m' hm' => h m' (List.mem_cons_of_mem _ hm')]
    rfl

/-- A member that is not wanted is passed over. -/
theorem readMembers?_spelled_cons {name : String} (hname : s.member? name = none) (value : Json)
    (rest : List (String × Json)) :
    readMembers? depth s (spelledMembers ((name, value) :: rest)) =
      readMembers? depth s (spelledMembers rest) := by
  rw [spelledMembers, readMembers?, textOf?_toList, Option.bind_eq_bind, Option.bind_some]
  simp only [hname]

theorem wanted_obj {members : List (String × Json)}
    (h : ∀ m ∈ members, ∃ s', s.member? m.1 = some s' ∧ m.2.Wanted depth s') :
    (Json.obj members).Wanted (depth + 1) s := by
  rw [Wanted, spelled, Written.read?, readMembers?_spelled h, Option.map_some]

end Json

/-! ## Schemas -/

namespace Schema

mutual

/-- How deep lists and objects are nested in what the schema describes. -/
def height : Schema → Nat
  | .boolean | .text | .choice _ | .uint32 | .int64 => 0
  | .dictionary schema | .list schema => schema.height + 1
  | .object properties _ => propertiesHeight properties + 1
  | .nullable schema | .described _ schema => schema.height

/-- The greatest height of a property. -/
def propertiesHeight : List (String × Schema) → Nat
  | [] => 0
  | (_, schema) :: rest => max schema.height (propertiesHeight rest)

end

theorem propertiesHeight_append (ps qs : List (String × Schema)) :
    propertiesHeight (ps ++ qs) = max (propertiesHeight ps) (propertiesHeight qs) := by
  induction ps with
  | nil => exact (Nat.zero_max _).symm
  | cons p rest ih => rw [List.cons_append, propertiesHeight, propertiesHeight, ih, Nat.max_assoc]

theorem lookup_propertyShapes (name : String) (properties : List (String × Schema)) :
    SortedMap.lookup name (propertyShapes properties) =
      (SortedMap.lookup name properties).map shape := by
  induction properties with
  | nil => rfl
  | cons p rest ih =>
    rw [propertyShapes, SortedMap.lookup, SortedMap.lookup, ih]
    split <;> rfl

/-- A member is wanted as the property of its name. -/
theorem member?_shape (name : String) (properties : List (String × Schema)) (required : List String) :
    (object properties required).shape.member? name =
      (SortedMap.lookup name properties).map shape := by
  rw [shape, Json.Shape.member?, lookup_propertyShapes]
  exact Option.or_none

end Schema

end ConfigMerge
