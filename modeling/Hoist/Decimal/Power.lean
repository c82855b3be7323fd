/-!
# Powers

Powers with an exponent that may be negative. A fraction is written over the powers of `e` and `-e`,
one of which is always 1.
-/

namespace Hoist.Decimal

/-- The power of a base with a natural exponent; a negative exponent counts as zero. -/
def powUp (base : Nat) (e : Int) : Nat := Nat.pow base e.toNat

end Hoist.Decimal
