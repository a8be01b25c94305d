import ConfigMerge.Error

/-!
# Http/Target — request targets

A target is a path with an optional query.  Paths are taken as they are, so some characters make a
target unusable, and so does its length; what follows a `#` is not part of it.  Values in a query
are form encoded.
-/

namespace ConfigMerge.Target

/-- Whether a character may stand in the path of a target. -/
def isPathChar (c : Char) : Bool :=
  let n := c.toNat
  n = 0x21 || n = 0x22 || (0x24 ≤ n && n ≤ 0x3B) || n = 0x3D || (0x40 ≤ n && n ≤ 0x5F)
    || (0x61 ≤ n && n ≤ 0x7E) || 0x80 ≤ n

/-- Whether a character may stand in the query of a target. -/
def isQueryChar (c : Char) : Bool :=
  let n := c.toNat
  n = 0x21 || (0x24 ≤ n && n ≤ 0x3B) || n = 0x3D || (0x3F ≤ n && n ≠ 0x7F)

/-- The greatest length of a text that denotes a target, in bytes. -/
def greatestLength : Nat := 65534

/-- The target that a text denotes. -/
def ofText (text : String) : Except TargetFault String :=
  let s := text.toList.takeWhile (· ≠ '#')
  let path := s.takeWhile (· ≠ '?')
  let query := (s.dropWhile (· ≠ '?')).drop 1
  if greatestLength < text.utf8ByteSize then .error .length
  else if path.all isPathChar && query.all isQueryChar then .ok (String.ofList s)
  else .error .character

/-! ## Form encoding -/

/-- Whether a byte stands for itself in a form encoded value. -/
def isPlain (b : UInt8) : Bool :=
  (48 ≤ b && b ≤ 57) || (65 ≤ b && b ≤ 90) || (97 ≤ b && b ≤ 122) || b = 42 || b = 45 || b = 46
    || b = 95

/-- An upper-case hexadecimal digit. -/
def hexDigit (n : Nat) : Char := (Nat.digitChar n).toUpper

/-- A byte in a form encoded value. -/
def encodeByte (b : UInt8) : List Char :=
  if b = 32 then ['+']
  else if isPlain b then [Char.ofNat b.toNat]
  else ['%', hexDigit (b.toNat / 16), hexDigit (b.toNat % 16)]

/-- A form encoded value. -/
def formEncode (value : String) : String :=
  String.ofList (value.toUTF8.toList.flatMap encodeByte)

/-- The value of an upper-case hexadecimal digit. -/
def hexValue (c : Char) : Nat := if c.isDigit then c.toNat - 48 else c.toNat - 55

/-- The bytes that a form encoded value stands for. -/
def decodeBytes : List Char → List UInt8
  | '%' :: high :: low :: rest =>
    UInt8.ofNat (hexValue high * 16 + hexValue low) :: decodeBytes rest
  | '+' :: rest => 32 :: decodeBytes rest
  | c :: rest => UInt8.ofNat c.toNat :: decodeBytes rest
  | [] => []

/-- The value that a form encoded one stands for, if that is text. -/
def formDecode? (value : String) : Option String :=
  String.fromUTF8? (ByteArray.mk (decodeBytes value.toList).toArray)

end ConfigMerge.Target
