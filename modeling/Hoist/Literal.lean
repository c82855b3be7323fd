import Hoist.Decimal.Shortest
import Hoist.Text.Quoted

/-!
# Literals

The constants of programs, before and after lowering. The two forms have texts of their own: in the
surface tree a double is written with the fewest characters, in the flat code it never looks like an
integer.
-/

namespace Hoist

/-- A constant. -/
inductive Literal
  | none
  | bool (b : Bool)
  | int (i : Int64)
  | double (x : Binary64)
  | string (s : String)
deriving DecidableEq, Repr, Inhabited

namespace Literal

/-- The text of a double in flat code: a point and a zero follow what would read as an integer. -/
def writeDouble (x : Binary64) : String :=
  let text := Decimal.write x
  if text.toList.any (fun c => c == '.' || c == 'e' || c == 'E' || c == 'n') then text
  else text ++ ".0"

/-- A constant as flat code shows it. -/
def write : Literal → String
  | .none => "None"
  | .bool b => if b then "True" else "False"
  | .int i => toString i.toInt
  | .double x => writeDouble x
  | .string s => Text.quote s

/-- A constant as the surface tree shows it. -/
def writeSurface : Literal → String
  | .double x => Decimal.write x
  | l => l.write

end Literal

end Hoist
