import ConfigMerge.Number.Binary64

/-!
# Number/NearShortest — short decimal digits by arithmetic on 64 bits

A number and the ends of the interval that reads back to it are scaled by a power of ten, each in a
significand of 64 bits, and the interval is narrowed by the rounding error of that.  Digits are
taken from its upper end until what is left out lies within the interval, and then the last digit
is lowered towards the number.  The digits read back to the number; now and then there are more of
them than needed, or the last one is not the nearest.
-/

namespace ConfigMerge

/-- A magnitude `significand · 2 ^ exponent`, of which 64 bits are kept. -/
structure Scaled where
  significand : Nat
  exponent : Int
deriving DecidableEq

namespace Scaled

/-- How many binary digits a number has. -/
def bitLength (n : Nat) : Nat := if n = 0 then 0 else Nat.log2 n + 1

/-- The magnitude `m · 2 ^ q` with its highest bit in the highest place. -/
def normalised (m : Nat) (q : Int) : Scaled :=
  let shift := 64 - bitLength m
  ⟨m * Nat.pow 2 shift, q - shift⟩

/-- The upper half of a product, rounded. -/
def times (a b : Scaled) : Scaled :=
  ⟨(a.significand * b.significand + Nat.pow 2 63) / Nat.pow 2 64, a.exponent + b.exponent + 64⟩

/-- The nearest magnitude of 64 bits to a power of ten. -/
def powerOfTen (p : Int) : Scaled :=
  let n := Nat.pow 10 p.toNat
  let d := Nat.pow 10 (-p).toNat
  let e : Int := if p < 0 then -(63 + bitLength d : Nat) else bitLength n - 64
  let numerator := n * Nat.pow 2 (-e).toNat
  let denominator := d * Nat.pow 2 e.toNat
  ⟨(2 * numerator + denominator) / (2 * denominator), e⟩

/-- The powers of ten that numbers are scaled by. -/
def scalingPowers : List Int := (List.range 87).map (fun i : Nat => 8 * i - 348)

/-- Whether `2 ^ n` is at most `10 ^ p`. -/
def isAtMostPowerOfTen (n p : Int) : Bool :=
  Nat.pow 2 n.toNat * Nat.pow 10 (-p).toNat ≤ Nat.pow 10 p.toNat * Nat.pow 2 (-n).toNat

/-- The power of ten that leaves from 32 to 60 binary digits after the point. -/
def scalingPower (exponent : Int) : Int :=
  (scalingPowers.find? (isAtMostPowerOfTen (-61 - exponent))).getD 340

end Scaled

namespace Binary64

/-- The interval around a number after scaling by `10 ^ power`: its upper end, how far the number
and the lower end lie below that, and the unit that all three are counted in. -/
structure Window where
  upper : Nat
  distance : Nat
  width : Nat
  one : Nat
  power : Int

/-- The scaled interval around a finite number other than zero. -/
def window (x : Binary64) : Window :=
  let m := x.significand
  let q := x.exponent
  let high := Scaled.normalised (2 * m + 1) (q - 1)
  let low :=
    if x.fraction = 0 ∧ x.exponentField ≠ 0 then
      (4 * m - 1) * Nat.pow 2 (q - 2 - high.exponent).toNat
    else (2 * m - 1) * Nat.pow 2 (q - 1 - high.exponent).toNat
  let power := Scaled.scalingPower high.exponent
  let scale := Scaled.powerOfTen power
  let upper := (high.times scale).significand - 1
  { upper
    distance := upper - ((Scaled.normalised m q).times scale).significand
    width := upper - ((Scaled.times ⟨low, high.exponent⟩ scale).significand + 1)
    one := Nat.pow 2 (-(high.times scale).exponent).toNat
    power }

/-- Lowers a last digit of some weight, with `rest` left out below it, for as long as that comes
closer to the number and stays within the interval.  There are at most nine steps. -/
def lower (distance width weight : Nat) : Nat → Nat → Nat → Nat
  | 0, digits, _ => digits
  | steps + 1, digits, rest =>
    if rest < distance ∧ rest + weight ≤ width
        ∧ (rest + weight < distance ∨ rest + weight - distance < distance - rest) then
      lower distance width weight steps (digits - 1) (rest + weight)
    else digits

namespace Window

/-- The digits down to the place `10 ^ place`, if what they leave out lies within the interval. -/
def wholeDigits? (w : Window) (place : Nat) : Option Decimal :=
  let weight := Nat.pow 10 place * w.one
  let rest := w.upper % weight
  if rest ≤ w.width then
    some ⟨lower w.distance w.width weight 9 (w.upper / weight) rest, place - w.power⟩
  else none

/-- The digits with some places after the point, if what they leave out lies inside the interval.
From nine places on the last digit stays as it is. -/
def fractionDigits? (w : Window) (places : Nat) : Option Decimal :=
  let scale := Nat.pow 10 places
  let rest := w.upper * scale % w.one
  let width := w.width * scale
  if rest < width then
    let distance := if places < 9 then w.distance * scale else 0
    some ⟨lower distance width w.one 9 (w.upper * scale / w.one) rest, -places - w.power⟩
  else none

end Window

/-- Decimal digits that read back to the magnitude of a finite number, in most cases the fewest. -/
def nearShortest (x : Binary64) : Decimal :=
  if x.significand = 0 then ⟨0, 0⟩
  else
    let w := x.window
    let places := (List.range 10).reverse
    (((places.filter (fun n => Nat.pow 10 n * w.one ≤ w.upper)).findSome? w.wholeDigits?).or
      ((List.range 19).tail.findSome? w.fractionDigits?)).getD ⟨0, 0⟩

end Binary64

end ConfigMerge
