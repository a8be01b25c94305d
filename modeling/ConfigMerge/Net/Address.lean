/-!
# Net/Address — internet addresses with a port

An address of version 4 is four decimal numbers with dots between them, one of version 6 eight
hexadecimal groups with colons between them, of which one run of zeros may be left out.  The last
two groups may also stand in the form of version 4.  A version 6 address with a port is put in
brackets.

The written form is the shortest: the longest run of at least two zero groups is left out, the first
one if there are several.
-/

namespace ConfigMerge

/-! ## Addresses -/

/-- An address of version 4. -/
structure Ipv4 where
  a : UInt8
  b : UInt8
  c : UInt8
  d : UInt8
deriving DecidableEq

/-- An address of version 6. -/
structure Ipv6 where
  groups : List UInt16
  eight : groups.length = 8
deriving DecidableEq

/-- Where a service listens. -/
inductive SocketAddress where
  | v4 (host : Ipv4) (port : UInt16)
  | v6 (host : Ipv6) (scope : UInt32) (port : UInt16)
deriving DecidableEq

/-! ## Writing -/

/-- The number that two bytes form. -/
def groupOf (high low : UInt8) : UInt16 := high.toUInt16 * 256 + low.toUInt16

/-- The two groups that an address of version 4 takes. -/
def Ipv4.groups (h : Ipv4) : List UInt16 := [groupOf h.a h.b, groupOf h.c h.d]

/-- The text of an address of version 4. -/
def Ipv4.text (h : Ipv4) : String :=
  ".".intercalate ([h.a, h.b, h.c, h.d].map (toString ·.toNat))

namespace Ipv6

/-- Groups with colons between them. -/
def groupsText (groups : List UInt16) : String :=
  ":".intercalate (groups.map (fun g => String.ofList (Nat.toDigits 16 g.toNat)))

/-- How many zeros groups begin with. -/
def leadingZeros (groups : List UInt16) : Nat := (groups.takeWhile (· = 0)).length

/-- Where the run of zeros that is left out begins, and its length. -/
def longestZeros (groups : List UInt16) : Nat × Nat :=
  (List.range groups.length).foldl (fun best start =>
    let length := leadingZeros (groups.drop start)
    if best.2 < length then (start, length) else best) (0, 0)

/-- The text of groups, with the longest run of zeros left out. -/
def compressed (groups : List UInt16) : String :=
  let (start, length) := longestZeros groups
  if 1 < length then
    groupsText (groups.take start) ++ "::" ++ groupsText (groups.drop (start + length))
  else groupsText groups

/-- The address of version 4 that stands for the same host. -/
def mapped? (h : Ipv6) : Option Ipv4 :=
  match h.groups with
  | [0, 0, 0, 0, 0, 0xffff, x, y] =>
    some ⟨(x / 256).toUInt8, x.toUInt8, (y / 256).toUInt8, y.toUInt8⟩
  | _ => none

/-- The text of an address of version 6. -/
def text (h : Ipv6) : String :=
  match h.mapped? with
  | some host => "::ffff:" ++ host.text
  | none => compressed h.groups

end Ipv6

/-- The text of a socket address. -/
def SocketAddress.text : SocketAddress → String
  | .v4 host port => host.text ++ ":" ++ toString port.toNat
  | .v6 host scope port =>
    let scope := if scope = 0 then "" else "%" ++ toString scope.toNat
    "[" ++ host.text ++ scope ++ "]:" ++ toString port.toNat

/-! ## Reading -/

namespace Address

/-- Reading from the front of a text; what fails takes nothing. -/
abbrev Reading := StateT (List Char) Option

/-- The value of a digit. -/
def digitValue (c : Char) : Nat :=
  if c.isDigit then c.toNat - '0'.toNat else c.toLower.toNat - 'a'.toNat + 10

/-- Whether a character is a decimal digit or, with base sixteen, a hexadecimal one. -/
def isDigitOf (base : Nat) (c : Char) : Bool :=
  c.isDigit || (base = 16 && 'a' ≤ c.toLower && c.toLower ≤ 'f')

/-- A number below a bound, of a limited number of digits if `limit` says so. -/
def number (base : Nat) (limit : Option Nat) (leadingZeros : Bool) (bound : Nat) : Reading Nat :=
  fun cs =>
    let digits := cs.takeWhile (isDigitOf base)
    let value := digits.foldl (fun n c => n * base + digitValue c) 0
    if digits.isEmpty || limit.any (· < digits.length) || bound ≤ value
      || (!leadingZeros && digits.head? = some '0' && digits.length ≠ 1) then none
    else some (value, cs.dropWhile (isDigitOf base))

/-- One given character. -/
def expect (c : Char) : Reading Unit :=
  fun cs => if cs.head? = some c then some ((), cs.tail) else none

/-- A byte in decimal digits, without leading zeros. -/
def byte : Reading UInt8 := UInt8.ofNat <$> number 10 (some 3) false 256

/-- An address of version 4. -/
def ipv4 : Reading Ipv4 := do
  let a ← byte
  expect '.'
  let b ← byte
  expect '.'
  let c ← byte
  expect '.'
  let d ← byte
  return ⟨a, b, c, d⟩

/-- A group of up to four hexadecimal digits. -/
def group : Reading UInt16 := UInt16.ofNat <$> number 16 (some 4) true 65536

/-- What stands before a group: nothing before the first, a colon before the others. -/
def separator (first : Bool) : Reading Unit := if first then pure () else expect ':'

/-- As many groups as there are, up to a number; and whether the last two were in the form of
version 4. -/
def groups (first : Bool) : Nat → Reading (List UInt16 × Bool)
  | 0 => pure ([], false)
  | left + 1 =>
    (do
      guard (0 < left)
      separator first
      return ((← ipv4).groups, true)) <|>
    (do
      separator first
      let g ← group
      let (gs, embedded) ← groups false left
      return (g :: gs, embedded)) <|>
    pure ([], false)

/-- Eight groups, if there are eight. -/
def ofGroups (gs : List UInt16) : Reading Ipv6 :=
  if h : gs.length = 8 then pure ⟨gs, h⟩ else failure

/-- An address of version 6.  What is left out stands for at least one zero. -/
def ipv6 : Reading Ipv6 := do
  let (front, embedded) ← groups true 8
  if front.length = 8 then ofGroups front
  else
    guard (!embedded)
    expect ':'
    expect ':'
    let (back, _) ← groups true (7 - front.length)
    ofGroups (front ++ List.replicate (8 - front.length - back.length) 0 ++ back)

/-- A port after a colon. -/
def port : Reading UInt16 := do
  expect ':'
  UInt16.ofNat <$> number 10 none true 65536

/-- A scope after a percent sign; zero when there is none. -/
def scope : Reading UInt32 :=
  (do
    expect '%'
    UInt32.ofNat <$> number 10 none true 4_294_967_296) <|>
  pure 0

/-- A version 4 address with a port. -/
def v4 : Reading SocketAddress := do
  let host ← ipv4
  return .v4 host (← port)

/-- A version 6 address with a port. -/
def v6 : Reading SocketAddress := do
  expect '['
  let host ← ipv6
  let scope ← scope
  expect ']'
  return .v6 host scope (← port)

end Address

/-- The socket address that a text is. -/
def SocketAddress.ofText? (s : String) : Option SocketAddress :=
  match (Address.v4 <|> Address.v6).run s.toList with
  | some (address, []) => some address
  | _ => none

end ConfigMerge
