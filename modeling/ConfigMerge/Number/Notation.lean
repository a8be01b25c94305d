import ConfigMerge.Number.NearShortest

/-!
# Number/Notation — doubles as decimal text

A `Notation` says which digits are written and how they are laid out: positionally when the number
of digits before the point lies in a range, else with an exponent.
-/

namespace ConfigMerge

/-- How doubles are written. -/
structure Notation where
  digits : Binary64 → Binary64.Decimal
  leastPoint : Int
  greatestPoint : Int
  positiveSign : List Char

/-- Numbers in JSON text: the shortest digits, and an exponent with its sign. -/
def Notation.json : Notation := ⟨Binary64.shortest, -4, 16, ['+']⟩

/-- Numbers in metrics text: an exponent has a sign only when it is negative. -/
def Notation.metrics : Notation := ⟨Binary64.nearShortest, -5, 21, []⟩

/-- An exponent with its sign. -/
def Notation.power (n : Notation) (e : Int) : List Char :=
  (if e < 0 then ['-'] else n.positiveSign) ++ Nat.toDigits 10 e.natAbs

/-- The digits of a magnitude with a point or an exponent; there is always a fraction digit unless
an exponent is written. -/
def Notation.layOut (n : Notation) (d : Binary64.Decimal) : List Char :=
  let ds := Nat.toDigits 10 d.digits
  let point : Int := ds.length + d.exponent
  if d.digits = 0 then ['0', '.', '0']
  else if 0 ≤ d.exponent ∧ point ≤ n.greatestPoint then
    ds ++ List.replicate d.exponent.toNat '0' ++ ['.', '0']
  else if 0 < point ∧ point ≤ n.greatestPoint then
    ds.take point.toNat ++ '.' :: ds.drop point.toNat
  else if n.leastPoint ≤ point ∧ point ≤ 0 then
    '0' :: '.' :: List.replicate (-point).toNat '0' ++ ds
  else
    match ds with
    | [] => []
    | [c] => c :: 'e' :: n.power (point - 1)
    | c :: rest => c :: '.' :: rest ++ 'e' :: n.power (point - 1)

/-- The text of a finite number. -/
def Binary64.text (n : Notation) (x : Binary64) : List Char :=
  (if x.isNegative then ['-'] else []) ++ n.layOut (n.digits x)

end ConfigMerge
