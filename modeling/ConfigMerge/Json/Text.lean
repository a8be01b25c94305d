import ConfigMerge.Json.Basic
import ConfigMerge.Number.Notation

/-!
# Json/Text — JSON values as compact text

`Json.chars` writes a value without blanks and in the order of its members; `Json.canonicalText`
writes the canonical form, which is the text that fingerprints are taken of.  In strings only the
quotation mark, the backslash and the control characters are escaped.
-/

namespace ConfigMerge.Json

/-- The lower-case hexadecimal digit of a number below sixteen. -/
def hexDigit (n : Nat) : Char := Nat.digitChar n

/-- A character inside a quoted string. -/
def escapeChar (c : Char) : List Char :=
  if c = '"' then ['\\', '"']
  else if c = '\\' then ['\\', '\\']
  else if c = '\n' then ['\\', 'n']
  else if c = '\r' then ['\\', 'r']
  else if c = '\t' then ['\\', 't']
  else if c = '\x08' then ['\\', 'b']
  else if c = '\x0c' then ['\\', 'f']
  else if c.toNat < 32 then
    ['\\', 'u', '0', '0', hexDigit (c.toNat / 16), hexDigit (c.toNat % 16)]
  else [c]

/-- A quoted string. -/
def quote (s : String) : List Char := '"' :: s.toList.flatMap escapeChar ++ ['"']

/-- A decimal integer. -/
def intChars (n : Int) : List Char :=
  if n < 0 then '-' :: Nat.toDigits 10 n.natAbs else Nat.toDigits 10 n.natAbs

/-- Texts with commas between them. -/
def commaSeparated : List (List Char) → List Char
  | [] => []
  | [text] => text
  | text :: rest => text ++ ',' :: commaSeparated rest

mutual

/-- The compact text of a value. -/
def chars : Json → List Char
  | .null => ['n', 'u', 'l', 'l']
  | .bool true => ['t', 'r', 'u', 'e']
  | .bool false => ['f', 'a', 'l', 's', 'e']
  | .int n => intChars n
  | .float x => x.text .json
  | .str s => quote s
  | .arr items => '[' :: commaSeparated (itemChars items) ++ [']']
  | .obj members => '{' :: commaSeparated (memberChars members) ++ ['}']

/-- The text of each item. -/
def itemChars : List Json → List (List Char)
  | [] => []
  | item :: rest => item.chars :: itemChars rest

/-- The text of each member, name first. -/
def memberChars : List (String × Json) → List (List Char)
  | [] => []
  | (name, value) :: rest => (quote name ++ ':' :: value.chars) :: memberChars rest

end

/-- The value as compact text. -/
def compact (j : Json) : String := String.ofList j.chars

/-- The compact text of the canonical form. -/
def canonicalText (j : Json) : String := j.canonical.compact

end ConfigMerge.Json
