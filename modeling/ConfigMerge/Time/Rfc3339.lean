import ConfigMerge.Time.Instant

/-!
# Time/Rfc3339 — times as text

Times are written as RFC 3339 prescribes, in UTC, with no, six or the needed number of fraction
digits.  The reader is lenient: it takes `T` in either case or a blank between date and time, blanks
between the parts, short fields, `UTC`, and an offset with or without a colon.  What it accepts is
turned to UTC.
-/

namespace ConfigMerge.Rfc3339

/-! ## Writing -/

/-- A decimal number with leading zeros up to a width. -/
def padded (width n : Nat) : List Char :=
  let ds := Nat.toDigits 10 n
  List.replicate (width - ds.length) '0' ++ ds

/-- A year: four digits, or a sign and at least four for one that does not fit. -/
def yearChars (y : Int) : List Char :=
  if 0 ≤ y ∧ y ≤ 9999 then padded 4 y.toNat
  else (if y < 0 then '-' else '+') :: padded 4 y.natAbs

/-- Date and time of day to the second, without a zone. -/
def secondChars (t : Instant) : List Char :=
  let d := t.date
  let s := t.secondOfDay
  yearChars d.year ++ '-' :: padded 2 d.month ++ '-' :: padded 2 d.day
    ++ 'T' :: padded 2 (s / 3600) ++ ':' :: padded 2 (s / 60 % 60)
    ++ ':' :: padded 2 (s % 60 + if t.inLeapSecond then 1 else 0)

/-- To whole seconds, in zone `Z`. -/
def seconds (t : Timestamp) : String := String.ofList (secondChars t.toInstant ++ ['Z'])

/-- To whole microseconds, in zone `Z`. -/
def micros (t : Instant) : String :=
  String.ofList (secondChars t ++ '.' :: padded 6 (t.nanos % 1_000_000_000 / 1000) ++ ['Z'])

/-- To the nanosecond, with none or three, six or nine fraction digits, and a numeric zone. -/
def nanos (t : Instant) : String :=
  let n := t.nanos % 1_000_000_000
  let fraction :=
    if n = 0 then []
    else if n % 1_000_000 = 0 then '.' :: padded 3 (n / 1_000_000)
    else if n % 1_000 = 0 then '.' :: padded 6 (n / 1_000)
    else '.' :: padded 9 n
  String.ofList (secondChars t ++ fraction ++ ['+', '0', '0', ':', '0', '0'])

/-! ## Reading -/

/-- The blank characters of Unicode. -/
def isBlank (c : Char) : Bool :=
  let n := c.toNat
  (9 ≤ n && n ≤ 13) || n = 0x20 || n = 0x85 || n = 0xA0 || n = 0x1680 || (0x2000 ≤ n && n ≤ 0x200A)
    || n = 0x2028 || n = 0x2029 || n = 0x202F || n = 0x205F || n = 0x3000

/-- The text after leading blanks. -/
def skipBlanks (s : List Char) : List Char := s.dropWhile isBlank

/-- The value of one or more decimal digits, at most `width` of them, after leading blanks. -/
def readNumber? (width : Nat) (s : List Char) : Option (Nat × List Char) :=
  let s := skipBlanks s
  let ds := (s.take width).takeWhile Char.isDigit
  if ds.isEmpty then none else some (Nat.ofDigitChars 10 ds 0, s.drop ds.length)

/-- The value of a decimal number if it lies in a range. -/
def readWithin? (low high : Nat) (s : List Char) : Option (Nat × List Char) :=
  (readNumber? 2 s).filter (fun r => low ≤ r.1 ∧ r.1 ≤ high)

/-- Whether a year has dates. -/
def isYear (year : Int) : Bool := -262143 ≤ year && year ≤ 262142

/-- A year of up to four digits, or of any number of digits after a sign. -/
def readYear? (s : List Char) : Option (Int × List Char) :=
  let year : Option (Int × List Char) :=
    match skipBlanks s with
    | '-' :: rest => if startsWithDigit rest then signed (-1) rest else none
    | '+' :: rest => if startsWithDigit rest then signed 1 rest else none
    | s => (readNumber? 4 s).map (fun r => (r.1, r.2))
  year.filter (fun r => isYear r.1)
where
  startsWithDigit : List Char → Bool
    | c :: _ => c.isDigit
    | [] => false
  signed (sign : Int) (s : List Char) : Option (Int × List Char) :=
    (readNumber? s.length s).map (fun r => (sign * r.1, r.2))

/-- The text after a given character, which may follow blanks. -/
def dropMark? (mark : Char) (s : List Char) : Option (List Char) :=
  match skipBlanks s with
  | c :: rest => if c = mark then some rest else none
  | [] => none

/-- Nanoseconds from the digits after a point; digits after the ninth are dropped. -/
def readFraction? : List Char → Option (Nat × List Char)
  | '.' :: rest =>
    let ds := rest.takeWhile Char.isDigit
    if ds.isEmpty then none
    else
      let used := ds.take 9
      some (Nat.ofDigitChars 10 used 0 * Nat.pow 10 (9 - used.length), rest.drop ds.length)
  | s => some (0, s)

/-- The seconds by which a zone is ahead of UTC, and the text after it. -/
def readZone? (s : List Char) : Option (Int × List Char) :=
  let s := skipBlanks s
  match s with
  | 'Z' :: rest | 'z' :: rest => some (0, rest)
  | u :: t :: c :: rest =>
    if u.toUpper = 'U' ∧ t.toUpper = 'T' ∧ c.toUpper = 'C' then some (0, rest)
    else if u = '+' then offset? 1 (t :: c :: rest)
    else if u = '-' ∨ u = '−' then offset? (-1) (t :: c :: rest)
    else none
  | _ => none
where
  offset? (sign : Int) : List Char → Option (Int × List Char)
    | h :: h' :: rest =>
      match rest.dropWhile (fun c => c = ':' || isBlank c) with
      | m :: m' :: rest =>
        if h.isDigit ∧ h'.isDigit ∧ m.isDigit ∧ m'.isDigit then
          let hours := Nat.ofDigitChars 10 [h, h'] 0
          let minutes := Nat.ofDigitChars 10 [m, m'] 0
          if hours < 24 ∧ minutes < 60 then
            some (sign * (3600 * hours + 60 * minutes : Nat), rest)
          else none
        else none
      | _ => none
    | _ => none

/-- The instant that a text denotes.  It has to fall on a date in UTC as well. -/
def ofChars? (s : List Char) : Option Instant := do
  let (year, s) ← readYear? s
  let s ← dropMark? '-' s
  let (month, s) ← readWithin? 1 12 s
  let s ← dropMark? '-' s
  let (day, s) ← readWithin? 1 31 s
  let date : Date := ⟨year, month, day⟩
  let s ← afterSeparator? s
  let (hour, s) ← readWithin? 0 23 s
  let s ← dropMark? ':' s
  let (minute, s) ← readWithin? 0 59 s
  let s ← dropMark? ':' s
  let (second, s) ← readWithin? 0 60 s
  let (nanos, s) ← readFraction? s
  let (offset, s) ← readZone? s
  if date.isValid ∧ (skipBlanks s).isEmpty then
    let leap := second = 60
    let second := if leap then 59 else second
    let wall := 86400 * date.toDay + (3600 * hour + 60 * minute + second : Nat)
    let instant : Instant := ⟨wall - offset, nanos + if leap then 1_000_000_000 else 0⟩
    if isYear instant.date.year then return instant else none
  else none
where
  afterSeparator? : List Char → Option (List Char)
    | c :: rest => if c = 'T' ∨ c = 't' ∨ c = ' ' then some rest else none
    | [] => none

/-- The instant that a text denotes. -/
def instant? (text : String) : Option Instant := ofChars? text.toList

/-- The whole second that a text denotes. -/
def timestamp? (text : String) : Option Timestamp := (instant? text).map (·.toTimestamp)

end ConfigMerge.Rfc3339
