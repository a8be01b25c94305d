/-!
# Number/Binary64 — double precision numbers and their shortest decimal digits

A `Binary64` is a bit pattern of the IEEE 754 format, so it has decidable equality and every number
in it is exactly `± m · 2 ^ q`.  `Binary64.shortest` finds the least number of decimal digits that
reads back to the same number, by testing the two neighbours of the value on ever finer decimal
grids in exact arithmetic.
-/

namespace ConfigMerge

/-- A number of the IEEE 754 binary64 format, by its bit pattern. -/
structure Binary64 where
  bits : UInt64
deriving DecidableEq

namespace Binary64

/-- The number zero, without a sign. -/
def zero : Binary64 := ⟨0⟩

/-- The number that a machine float holds. -/
def ofFloat (x : Float) : Binary64 := ⟨x.toBits⟩

/-- The machine float for the number. -/
def toFloat (x : Binary64) : Float := Float.ofBits x.bits

/-- Whether the sign bit is set, which tells `-0.0` from `0.0`. -/
def isNegative (x : Binary64) : Bool := x.bits.toNat / Nat.pow 2 63 = 1

/-- The biased exponent. -/
def exponentField (x : Binary64) : Nat := x.bits.toNat / Nat.pow 2 52 % Nat.pow 2 11

/-- The 52 stored bits of the significand. -/
def fraction (x : Binary64) : Nat := x.bits.toNat % Nat.pow 2 52

/-- Whether the pattern is a number and not an infinity or a NaN. -/
def isFinite (x : Binary64) : Bool := x.exponentField ≠ 2047

/-- The integer `m` of the magnitude `m · 2 ^ q`. -/
def significand (x : Binary64) : Nat :=
  if x.exponentField = 0 then x.fraction else Nat.pow 2 52 + x.fraction

/-- The exponent `q` of the magnitude `m · 2 ^ q`. -/
def exponent (x : Binary64) : Int := (max x.exponentField 1 : Nat) - 1075

/-- The number as an integer, if it is one. -/
def toInt? (x : Binary64) : Option Int :=
  let unit := Nat.pow 2 (-x.exponent).toNat
  if x.isFinite ∧ x.significand % unit = 0 then
    let magnitude : Int := (x.significand * Nat.pow 2 x.exponent.toNat / unit : Nat)
    some (if x.isNegative then -magnitude else magnitude)
  else none

/-! ## The reals that round to a number -/

/-- The reals around a value that read back to it, as fractions with one denominator. -/
structure Interval where
  low : Nat
  value : Nat
  high : Nat
  denominator : Nat
  closed : Bool

/-- The reals nearest to the magnitude; a real halfway belongs to it when its significand is even.
Below a power of two the neighbour is only half as far away. -/
def interval (x : Binary64) : Interval :=
  let m := x.significand
  let below := if x.fraction = 0 ∧ 1 < x.exponentField then 1 else 2
  let q := x.exponent - 2
  let scale := Nat.pow 2 q.toNat
  { low := (4 * m - below) * scale
    value := 4 * m * scale
    high := (4 * m + 2) * scale
    denominator := Nat.pow 2 (-q).toNat
    closed := m % 2 = 0 }

namespace Interval

/-- Whether the fraction `n / denominator`, with `n` given times `unit`, lies in the interval. -/
def contains (i : Interval) (unit n : Nat) : Bool :=
  if i.closed then i.low * unit ≤ n ∧ n ≤ i.high * unit
  else i.low * unit < n ∧ n < i.high * unit

/-- The multiple of `10 ^ e` in the interval that is nearest to the value, if there is one.  A tie
goes to the even multiple. -/
def nearest? (i : Interval) (e : Int) : Option Nat :=
  let unit := Nat.pow 10 (-e).toNat
  let step := i.denominator * Nat.pow 10 e.toNat
  let value := i.value * unit
  let d := value / step
  let lower := i.contains unit (d * step)
  let upper := i.contains unit ((d + 1) * step)
  let r := 2 * (value % step)
  if lower && (!upper || r < step || (r == step && d % 2 == 0)) then some d
  else if upper then some (d + 1)
  else none

/-- How many digits the value has before the point, at most zero for a value below one. -/
def magnitude (i : Interval) : Int :=
  (Nat.toDigits 10 (i.value * Nat.pow 10 400 / i.denominator)).length - 400

end Interval

/-- A decimal number `digits · 10 ^ exponent`. -/
structure Decimal where
  digits : Nat
  exponent : Int
deriving DecidableEq

/-- The fewest decimal digits that read back to the magnitude of a finite number: the coarsest
decimal grid with a point in the interval, and its point nearest to the value. -/
def shortest (x : Binary64) : Decimal :=
  if x.significand = 0 then ⟨0, 0⟩
  else
    let i := x.interval
    let grids := (List.range 19).map (fun n : Nat => i.magnitude - n)
    (grids.findSome? (fun e => (i.nearest? e).map (⟨·, e⟩))).getD ⟨0, 0⟩

/-! ## Reading -/

/-- The number for a significand below `2 ^ 64` times a power of ten: the significand is rounded to
a double first and then scaled by one power of ten at a time.  There is none when the result would
be infinite. -/
def ofDecimal? (negative : Bool) (d : Decimal) : Option Binary64 :=
  let f := (UInt64.ofNat d.digits).toFloat
  let magnitude :=
    if d.digits = 0 then some f
    else if 308 < d.exponent then none
    else if 0 ≤ d.exponent then
      let scaled := f * Float.ofScientific 1 false d.exponent.toNat
      if scaled.isInf then none else some scaled
    else if -308 ≤ d.exponent then some (f / Float.ofScientific 1 false (-d.exponent).toNat)
    else if -616 ≤ d.exponent then
      some (f / Float.ofScientific 1 false 308
        / Float.ofScientific 1 false (-308 - d.exponent).toNat)
    else some 0.0
  magnitude.map (fun x => ofFloat (if negative then -x else x))

end Binary64

end ConfigMerge
