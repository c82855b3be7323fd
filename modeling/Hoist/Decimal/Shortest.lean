import Hoist.Decimal.Binary64
import Hoist.Decimal.Power

/-!
# Shortest decimals

Every double has an interval of reals that round to it. Of the decimals in the interval, the ones
with the fewest digits are wanted, and of these the nearest to the double. The search walks down
the grids `10 ^ e`: the first grid with a point in the interval gives the digits, and only the two
points around the double need a look.

The text of the result is positional where that is not longer than the scientific form.
-/

namespace Hoist.Decimal

/-- A decimal `digits * 10 ^ exponent`. -/
structure Scaled where
  digits : Nat
  exponent : Int
deriving DecidableEq, Repr

/-- The interval of reals that round to `m * 2 ^ q`, in quarters of `2 ^ q`. -/
structure Interval where
  low : Nat
  middle : Nat
  high : Nat
  /-- Quarters of the binary unit: the interval is scaled by `2 ^ (q - 2)`. -/
  scale : Int
  /-- Whether the two ends round to the double as well. -/
  closed : Bool
deriving Repr

/-- The interval of a positive double: half a unit up, half a unit down, a quarter down when the
doubles below lie twice as dense. A tie goes to the even significand. -/
def intervalOf (m : Nat) (q : Int) (isolated : Bool) : Interval where
  low := 4 * m - (if isolated then 1 else 2)
  middle := 4 * m
  high := 4 * m + 2
  scale := q - 2
  closed := m % 2 == 0

/-- The point of the grid `10 ^ e` in the interval that is nearest to its middle, if there is one; of
two points equally near, the even one. -/
def Interval.gridPoint? (i : Interval) (e : Int) : Option Nat :=
  let a := powUp 2 i.scale * powUp 10 (-e)
  let b := powUp 10 e * powUp 2 (-i.scale)
  let inside (d : Nat) : Bool :=
    if i.closed then i.low * a ≤ d * b && d * b ≤ i.high * a
    else i.low * a < d * b && d * b < i.high * a
  let below := i.middle * a / b
  let above := below + 1
  match inside below, inside above with
  | false, false => none
  | true, false => some below
  | false, true => some above
  | true, true =>
    let down := i.middle * a - below * b
    let up := above * b - i.middle * a
    if down < up || (down == up && below % 2 == 0) then some below else some above

/-- The first grid with a point in the interval, from `10 ^ e` downwards. -/
def Interval.search (i : Interval) : Nat → Int → Option Scaled
  | 0, _ => none
  | fuel + 1, e =>
    match i.gridPoint? e with
    | some d => some ⟨d, e⟩
    | none => i.search fuel (e - 1)

/-- A power of ten above `m * 2 ^ q`: a bit is worth a little more than three tenths of a digit. -/
def topExponent (m : Nat) (q : Int) : Int := ((m.log2 : Int) + q) * 30103 / 100000 + 3

/-- The shortest decimal of a positive double. Seventeen digits always suffice. -/
def shortest (m : Nat) (q : Int) (isolated : Bool) : Scaled :=
  ((intervalOf m q isolated).search 26 (topExponent m q)).getD ⟨m, q⟩

/-- A run of zeros. -/
def zeros (n : Nat) : String := String.ofList (List.replicate n '0')

/-- An exponent after its mark: a sign and at least two digits. -/
def writeExponent (e : Int) : String :=
  let digits := toString e.natAbs
  (if e < 0 then "e-" else "e+") ++ (if digits.length < 2 then "0" ++ digits else digits)

/-- The scientific form: one digit before the point, and no point after a lone digit. -/
def writeScientific (s : Scaled) : String :=
  let digits := (toString s.digits).toList
  let exponent := s.exponent + (digits.length : Int) - 1
  let fraction := digits.drop 1
  String.ofList (digits.take 1) ++
    (if fraction.isEmpty then "" else "." ++ String.ofList fraction) ++ writeExponent exponent

/-- The positional form of a decimal with digits behind the point. -/
def writePositional (s : Scaled) : String :=
  let digits := (toString s.digits).toList
  let places := (-s.exponent).toNat
  if places < digits.length then
    String.ofList (digits.take (digits.length - places)) ++ "." ++
      String.ofList (digits.drop (digits.length - places))
  else "0." ++ zeros (places - digits.length) ++ String.ofList digits

/-- Whether the positional form is at most as long as the scientific one. -/
def isPositional (s : Scaled) : Bool :=
  let n := (toString s.digits).length
  if n = 1 then -3 ≤ s.exponent && s.exponent ≤ 4
  else -((n : Int) + 3) ≤ s.exponent && s.exponent ≤ 5

/-- The text of a double. A whole number in positional form shows its exact value. -/
def write (x : Binary64) : String :=
  (if x.isNegative then "-" else "") ++
  match x.decode with
  | .nan => "nan"
  | .infinite => "inf"
  | .finite 0 _ _ => "0"
  | .finite m q isolated =>
    let s := shortest m q isolated
    if !isPositional s then writeScientific s
    else if s.exponent < 0 then writePositional s
    else toString (m * powUp 2 q / powUp 2 (-q))

end Hoist.Decimal
