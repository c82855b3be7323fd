import Hoist.Decimal.Binary64
import Hoist.Decimal.Power

/-!
# Nearest doubles

A decimal `digits * 10 ^ exponent` is read as the double nearest to it, a tie going to the even
significand. A number beyond the largest double has no reading, nor has a positive one that would
round to zero.
-/

namespace Hoist.Decimal

/-- A quotient rounded to the nearest natural number, a half going to the even neighbour. -/
def roundDiv (num den : Nat) : Nat :=
  let quotient := num / den
  let twice := 2 * (num % den)
  if twice < den || (twice == den && quotient % 2 == 0) then quotient else quotient + 1

/-- The significand of `num / den` at the binary exponent `q`, rounded. -/
def significand (num den : Nat) (q : Int) : Nat :=
  roundDiv (num * powUp 2 (-q)) (den * powUp 2 q)

/-- The binary exponent at which `num / den` has a significand of 53 bits, or the least one. -/
def binaryExponent (num den : Nat) : Int :=
  let guess : Int := (num.log2 : Int) - (den.log2 : Int) - 53
  let isWide := den * powUp 2 guess * powUp 2 53 ≤ num * powUp 2 (-guess)
  max (if isWide then guess + 1 else guess) Binary64.minExponent

/-- The double nearest to the positive fraction `num / den`. -/
def ofFraction? (num den : Nat) : Option Binary64 :=
  let q := binaryExponent num den
  match significand num den q with
  | 0 => none
  | m => Binary64.encode? m q

/-- The double nearest to `digits * 10 ^ exponent`, `none` out of range. An exponent far beyond the
range decides by itself, so that no huge power is ever computed. -/
def nearest? (digits : Nat) (exponent : Int) : Option Binary64 :=
  if digits = 0 then some ⟨0⟩
  else if exponent > 400 then none
  else if exponent + (digits.log2 : Int) < -400 then none
  else ofFraction? (digits * powUp 10 exponent) (powUp 10 (-exponent))

end Hoist.Decimal
