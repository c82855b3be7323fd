import Hoist.Decimal.Nearest
import Hoist.Literal
import Hoist.Text.Class

/-!
# Numerals

A numeral is a run of digits, a point with more digits, and an exponent; each part may be missing.
Only a numeral without point and exponent is an integer, and an integer has 64 bits with a sign.
-/

namespace Hoist.Surface

/-- A numeral by its parts. -/
structure Numeral where
  whole : List Char
  fraction? : Option (List Char)
  /-- Whether the exponent is negative, and its digits. -/
  exponent? : Option (Bool × List Char)
deriving DecidableEq, Repr

namespace Numeral

/-- The exponent at the front of a text. A mark without digits is no exponent. -/
def scanExponent (cs : List Char) : Option (Bool × List Char) × List Char :=
  match cs with
  | c :: rest =>
    if c == 'e' || c == 'E' then
      let sign? := rest.head?
      let digits := if sign? == some '+' || sign? == some '-' then rest.drop 1 else rest
      match digits.takeWhile Text.isDigit with
      | [] => (none, cs)
      | run => (some (sign? == some '-', run), digits.dropWhile Text.isDigit)
    else (none, cs)
  | [] => (none, cs)

/-- The fraction at the front of a text: a point and any digits after it. -/
def scanFraction (cs : List Char) : Option (List Char) × List Char :=
  match cs with
  | '.' :: rest => (some (rest.takeWhile Text.isDigit), rest.dropWhile Text.isDigit)
  | _ => (none, cs)

/-- The numeral at the front of a text, and the rest. -/
def scan (cs : List Char) : Numeral × List Char :=
  let (fraction?, rest) := scanFraction (cs.dropWhile Text.isDigit)
  let (exponent?, rest) := scanExponent rest
  (⟨cs.takeWhile Text.isDigit, fraction?, exponent?⟩, rest)

/-- Whether a text starts a numeral: with a digit, or with a point before a digit. -/
def starts : List Char → Bool
  | '.' :: c :: _ => Text.isDigit c
  | c :: _ => Text.isDigit c
  | [] => false

/-- The natural number that a run of digits stands for. -/
def digitsValue (digits : List Char) : Nat :=
  digits.foldl (fun n c => 10 * n + (c.toNat - '0'.toNat)) 0

/-- Whether a numeral is an integer. -/
def isInteger (n : Numeral) : Bool := n.fraction?.isNone && n.exponent?.isNone

/-- The value of the exponent, zero when it is missing. -/
def exponentValue (n : Numeral) : Int :=
  match n.exponent? with
  | none => 0
  | some (true, digits) => -(digitsValue digits : Int)
  | some (false, digits) => digitsValue digits

/-- The integers of the language have 63 bits besides their sign. -/
def integerLimit : Nat := 0x8000000000000000

/-- The literal that a numeral stands for, `none` out of range. -/
def value? (n : Numeral) : Option Literal :=
  if n.isInteger then
    let v := digitsValue n.whole
    if v < integerLimit then some (.int (Int64.ofNat v)) else none
  else
    let fraction := n.fraction?.getD []
    (Decimal.nearest? (digitsValue (n.whole ++ fraction))
      (n.exponentValue - fraction.length)).map .double

end Numeral

end Hoist.Surface
