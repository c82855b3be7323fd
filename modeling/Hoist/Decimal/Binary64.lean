/-!
# Double-precision numbers

A double is kept as its 64 bits: a sign, eleven bits of exponent and fifty-two of fraction. A finite
one has the magnitude `m * 2 ^ q` with a natural number `m`, and `decode` gives that pair. Nothing
here computes with machine floats, so all of it can be reasoned about.
-/

namespace Hoist

/-- A double-precision number, by its bits. -/
structure Binary64 where
  bits : UInt64
deriving DecidableEq, Repr, Inhabited

namespace Binary64

/-- What a double stands for, its sign aside. -/
inductive Magnitude
  | nan
  | infinite
  /-- The number `m * 2 ^ q`; `isolated` tells that the doubles below it lie twice as dense. -/
  | finite (m : Nat) (q : Int) (isolated : Bool)
deriving DecidableEq, Repr

/-- Whether the sign bit is set. -/
def isNegative (x : Binary64) : Bool := x.bits >>> 63 == 1

/-- The exponent field, from 0 to 2047. -/
def exponentField (x : Binary64) : Nat := ((x.bits >>> 52) &&& 0x7ff).toNat

/-- The fraction field, below `2 ^ 52`. -/
def fractionField (x : Binary64) : Nat := (x.bits &&& 0xfffffffffffff).toNat

/-- How many values the fraction field has; the leading bit of a significand stands for this many. -/
def fractionCount : Nat := 0x10000000000000

/-- The magnitude of a double. A zero exponent field holds the numbers with no leading bit. -/
def decode (x : Binary64) : Magnitude :=
  let exponent := x.exponentField
  let fraction := x.fractionField
  if exponent = 2047 then (if fraction = 0 then .infinite else .nan)
  else if exponent = 0 then .finite fraction (-1074) false
  else .finite (fractionCount + fraction) ((exponent : Int) - 1075) (fraction == 0 && exponent > 1)

/-- The least exponent of a finite double. -/
def minExponent : Int := -1074

/-- The positive double `m * 2 ^ q`, for a significand of at most 53 bits that is shorter only at the
least exponent; `none` when the number is too large. -/
def encode? (m : Nat) (q : Int) : Option Binary64 :=
  let bits := (q - minExponent).toNat * fractionCount + m
  if bits < 2047 * fractionCount then some ⟨bits.toUInt64⟩ else none

end Binary64

end Hoist
