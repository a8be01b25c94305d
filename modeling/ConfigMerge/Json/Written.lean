import ConfigMerge.Json.Basic

/-!
# Json/Written — JSON as written, and the values it stands for

Not everything that is well formed stands for a value: a number may be out of a double's range, an
escape may be one half of a surrogate pair, and values that are wanted may be nested 127 deep at
most.  None of this matters in a part that nobody wants.  A `Json.Shape` says which parts are
wanted, and `Json.Written.value?` gives the value of those.
-/

namespace ConfigMerge.Json

/-! ## Numbers -/

/-- A number as written: digits before and after the point and the power of ten, if there is one. -/
structure Numeral where
  negative : Bool
  whole : List Char
  fraction : List Char
  power : Option Int

namespace Numeral

/-- Appends digits to a significand for as long as it stays below `2 ^ 64`; also how many digits
were left. -/
def extendSignificand (n : Nat) : List Char → Nat × Nat
  | [] => (n, 0)
  | c :: rest =>
    let next := 10 * n + (c.toNat - 48)
    if next < Nat.pow 2 64 then extendSignificand next rest else (n, rest.length + 1)

/-- The digits as one decimal number, cut to a significand below `2 ^ 64`. -/
def decimal (n : Numeral) : Binary64.Decimal :=
  let (significand, dropped) := extendSignificand 0 n.whole
  let (significand, ignored) := extendSignificand significand n.fraction
  ⟨significand, dropped - (n.fraction.length - ignored : Nat) + n.power.getD 0⟩

/-- The value of a number.  Integers between `-2 ^ 63` and `2 ^ 64 - 1` are exact; every other
number, `-0` included, is a double, if it is in the range of doubles. -/
def value? (n : Numeral) : Option Json :=
  let whole := Nat.ofDigitChars 10 n.whole 0
  if n.fraction.isEmpty ∧ n.power.isNone ∧ !(n.negative ∧ whole = 0)
      ∧ (if n.negative then whole ≤ Nat.pow 2 63 else whole < Nat.pow 2 64) then
    some (.int (if n.negative then -(whole : Int) else whole))
  else (Binary64.ofDecimal? n.negative n.decimal).map .float

end Numeral

/-! ## Strings -/

/-- Whether a code unit is the first half of a surrogate pair. -/
def isHighSurrogate (n : Nat) : Bool := 0xD800 ≤ n && n ≤ 0xDBFF

/-- Whether a code unit is the second half of a surrogate pair. -/
def isLowSurrogate (n : Nat) : Bool := 0xDC00 ≤ n && n ≤ 0xDFFF

/-- The character of a surrogate pair. -/
def ofSurrogates (high low : Nat) : Char :=
  Char.ofNat (0x10000 + (high - 0xD800) * 1024 + (low - 0xDC00))

/-- The characters that code points stand for.  A surrogate counts only as half of a pair. -/
def charsOf? : List Nat → Option (List Char)
  | [] => some []
  | [n] => if isHighSurrogate n || isLowSurrogate n then none else some [Char.ofNat n]
  | n :: m :: rest =>
    if isHighSurrogate n then
      if isLowSurrogate m then (charsOf? rest).map (ofSurrogates n m :: ·) else none
    else if isLowSurrogate n then none
    else (charsOf? (m :: rest)).map (Char.ofNat n :: ·)

/-- The text that code points stand for. -/
def textOf? (units : List Nat) : Option String := (charsOf? units).map .ofList

/-! ## Values -/

/-- A JSON value as written; strings and names are given by code points. -/
inductive Written where
  | null
  | bool (b : Bool)
  | number (n : Numeral)
  | str (units : List Nat)
  | arr (items : List Written)
  | obj (members : List (List Nat × Written))

/-- Which parts of a JSON value are wanted.  Of a record these are the named members, and the rest
as well if `others` is set. -/
inductive Shape where
  | whole
  | list (items : Shape)
  | dictionary (values : Shape)
  | record (members : List (String × Shape)) (others : Bool)

namespace Shape

/-- The shapes of the first items of a list, one by one, as a record may be given by such a list. -/
def firstItems : Shape → List Shape
  | .record members _ => members.map (·.2)
  | _ => []

/-- The shape of every further item of a list. -/
def furtherItem : Shape → Shape
  | .list s => s
  | _ => .whole

/-- The shape of a member, if it is wanted. -/
def member? (name : String) : Shape → Option Shape
  | .dictionary s => some s
  | .record members others =>
    (SortedMap.lookup name members).or (if others then some .whole else none)
  | .list _ | .whole => some .whole

end Shape

namespace Written

/-- How deep wanted values may be nested. -/
def greatestDepth : Nat := 127

mutual

/-- The value of the parts that a shape wants, nested to some depth at most. -/
def read? (depth : Nat) (s : Shape) : Written → Option Json
  | .null => some .null
  | .bool b => some (.bool b)
  | .number n => n.value?
  | .str units => (textOf? units).map .str
  | .arr items =>
    match depth with
    | 0 => none
    | depth + 1 => (readItems? depth s.firstItems s.furtherItem items).map .arr
  | .obj members =>
    match depth with
    | 0 => none
    | depth + 1 => (readMembers? depth s members).map .obj

/-- The values of items, of which the first have shapes of their own. -/
def readItems? (depth : Nat) (first : List Shape) (further : Shape) :
    List Written → Option (List Json)
  | [] => some []
  | item :: rest => do
    let value ← read? depth (first.headD further) item
    return value :: (← readItems? depth first.tail further rest)

/-- The members that are wanted.  Every name counts. -/
def readMembers? (depth : Nat) (s : Shape) :
    List (List Nat × Written) → Option (List (String × Json))
  | [] => some []
  | (name, value) :: rest => do
    let name ← textOf? name
    match s.member? name with
    | none => readMembers? depth s rest
    | some shape =>
      let value ← read? depth shape value
      return (name, value) :: (← readMembers? depth s rest)

end

/-- The value of the parts that a shape wants. -/
def value? (s : Shape) (w : Written) : Option Json := w.read? greatestDepth s

end Written

end ConfigMerge.Json
