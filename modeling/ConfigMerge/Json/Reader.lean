import ConfigMerge.Json.Written

/-!
# Json/Reader — reading JSON text

`Json.Written.ofText?` accepts exactly one value with blanks around it.  It is strict: no comments,
no trailing commas, no leading zeros, no raw control characters in strings.  `Json.ofText?` gives
the value that a text stands for, `Json.partOfText?` that of the parts of it that are wanted.
-/

namespace ConfigMerge.Json

/-! ## Blanks and strings -/

/-- The four blank characters of JSON. -/
def isBlank (c : Char) : Bool := c = ' ' || c = '\n' || c = '\t' || c = '\r'

/-- The text after leading blanks. -/
def skipBlanks (s : List Char) : List Char := s.dropWhile isBlank

/-- The value of a hexadecimal digit. -/
def hexValue? (c : Char) : Option Nat :=
  if '0' ≤ c ∧ c ≤ '9' then some (c.toNat - 48)
  else if 'a' ≤ c ∧ c ≤ 'f' then some (c.toNat - 87)
  else if 'A' ≤ c ∧ c ≤ 'F' then some (c.toNat - 55)
  else none

/-- The value of four hexadecimal digits. -/
def hexUnit? (a b c d : Char) : Option Nat := do
  return (((← hexValue? a) * 16 + (← hexValue? b)) * 16 + (← hexValue? c)) * 16 + (← hexValue? d)

/-- The character that a one-letter escape stands for. -/
def escaped? (c : Char) : Option Char :=
  if c = '"' ∨ c = '\\' ∨ c = '/' then some c
  else if c = 'b' then some '\x08'
  else if c = 'f' then some '\x0c'
  else if c = 'n' then some '\n'
  else if c = 'r' then some '\r'
  else if c = 't' then some '\t'
  else none

/-- The code points of a string up to its closing quotation mark, and the text after it. -/
def readString : List Char → Option (List Nat × List Char)
  | [] => none
  | '"' :: rest => some ([], rest)
  | '\\' :: 'u' :: a :: b :: c :: d :: rest => do
    let unit ← hexUnit? a b c d
    let (units, rest) ← readString rest
    return (unit :: units, rest)
  | '\\' :: c :: rest => do
    let c ← escaped? c
    let (units, rest) ← readString rest
    return (c.toNat :: units, rest)
  | c :: rest =>
    if c = '\\' ∨ c.toNat < 32 then none
    else do
      let (units, rest) ← readString rest
      return (c.toNat :: units, rest)

/-! ## Numbers -/

/-- A leading run of decimal digits and the text after it. -/
def spanDigits (s : List Char) : List Char × List Char :=
  (s.takeWhile Char.isDigit, s.dropWhile Char.isDigit)

/-- The fraction digits after a point; a point without a digit after it is refused. -/
def readFraction : List Char → Option (List Char × List Char)
  | '.' :: rest =>
    match spanDigits rest with
    | ([], _) => none
    | (ds, rest) => some (ds, rest)
  | s => some ([], s)

/-- The power of ten after an exponent mark, if there is one. -/
def readExponent : List Char → Option (Option Int × List Char)
  | c :: rest =>
    if c = 'e' ∨ c = 'E' then
      let (negative, rest) :=
        match rest with
        | '-' :: rest => (true, rest)
        | '+' :: rest => (false, rest)
        | _ => (false, rest)
      match spanDigits rest with
      | ([], _) => none
      | (ds, rest) =>
        let n : Int := Nat.ofDigitChars 10 ds 0
        some (some (if negative then -n else n), rest)
    else some (none, c :: rest)
  | [] => some (none, [])

/-- A number and the text after it.  A leading zero stands alone before the point. -/
def readNumber (s : List Char) : Option (Numeral × List Char) := do
  let (negative, s) :=
    match s with
    | '-' :: s => (true, s)
    | _ => (false, s)
  let (whole, s) := spanDigits s
  if whole.isEmpty ∨ (whole.head? = some '0' ∧ 1 < whole.length) then none
  else
    let (fraction, s) ← readFraction s
    let (power, s) ← readExponent s
    return (⟨negative, whole, fraction, power⟩, s)

/-! ## Values -/

/-- The text after a literal word, if it comes first. -/
def dropWord? : List Char → List Char → Option (List Char)
  | [], s => some s
  | w :: word, c :: s => if w = c then dropWord? word s else none
  | _ :: _, [] => none

mutual

/-- A value after leading blanks, and the text after it; `fuel` bounds the depth and length. -/
def readValue (fuel : Nat) (s : List Char) : Option (Written × List Char) :=
  match fuel with
  | 0 => none
  | fuel + 1 =>
    match skipBlanks s with
    | [] => none
    | '"' :: rest => do
      let (units, rest) ← readString rest
      return (.str units, rest)
    | '[' :: rest =>
      match skipBlanks rest with
      | ']' :: rest => some (.arr [], rest)
      | _ => do
        let (items, rest) ← readItems fuel rest
        return (.arr items, rest)
    | '{' :: rest =>
      match skipBlanks rest with
      | '}' :: rest => some (.obj [], rest)
      | _ => do
        let (members, rest) ← readMembers fuel rest
        return (.obj members, rest)
    | 'n' :: rest => (dropWord? ['u', 'l', 'l'] rest).map (.null, ·)
    | 't' :: rest => (dropWord? ['r', 'u', 'e'] rest).map (.bool true, ·)
    | 'f' :: rest => (dropWord? ['a', 'l', 's', 'e'] rest).map (.bool false, ·)
    | c :: rest => (readNumber (c :: rest)).map (fun (n, rest) => (.number n, rest))

/-- One or more items up to the closing bracket. -/
def readItems (fuel : Nat) (s : List Char) : Option (List Written × List Char) :=
  match fuel with
  | 0 => none
  | fuel + 1 => do
    let (item, s) ← readValue fuel s
    match skipBlanks s with
    | ',' :: s =>
      let (items, s) ← readItems fuel s
      return (item :: items, s)
    | ']' :: s => return ([item], s)
    | _ => none

/-- One or more members up to the closing brace. -/
def readMembers (fuel : Nat) (s : List Char) :
    Option (List (List Nat × Written) × List Char) :=
  match fuel with
  | 0 => none
  | fuel + 1 =>
    match skipBlanks s with
    | '"' :: s => do
      let (name, s) ← readString s
      match skipBlanks s with
      | ':' :: s =>
        let (value, s) ← readValue fuel s
        match skipBlanks s with
        | ',' :: s =>
          let (members, s) ← readMembers fuel s
          return ((name, value) :: members, s)
        | '}' :: s => return ([(name, value)], s)
        | _ => none
      | _ => none
    | _ => none

end

/-- The value that is written, with nothing but blanks around it. -/
def Written.ofChars? (s : List Char) : Option Written := do
  let (value, rest) ← readValue (s.length + 1) s
  if (skipBlanks rest).isEmpty then return value else none

/-- The value that is written, with nothing but blanks around it. -/
def Written.ofText? (text : String) : Option Written := Written.ofChars? text.toList

/-- The value of the wanted parts of a text. -/
def partOfText? (s : Shape) (text : String) : Option Json :=
  (Written.ofText? text).bind (Written.value? s)

/-- The value that a text stands for. -/
def ofText? (text : String) : Option Json := partOfText? .whole text

end ConfigMerge.Json
