/-!
# Operators

The operators of the surface language, in four groups: binary, unary, comparisons and connectives.
Each has a name in printed trees; all but the connectives stand for a builtin of flat code.
-/

namespace Hoist.Surface

/-- An operator. -/
inductive Operator
  | add | sub | mult | matMult | div | floorDiv | mod | pow | lshift | rshift | bitOr | bitXor | bitAnd
  | plus | minus | invert | not
  | eq | notEq | lt | ltE | gt | gtE | is | isNot | isIn | notIn
  | and | or
deriving DecidableEq, Repr, Inhabited

namespace Operator

/-- Every operator, group by group. -/
def all : List Operator :=
  [.add, .sub, .mult, .matMult, .div, .floorDiv, .mod, .pow, .lshift, .rshift, .bitOr, .bitXor,
   .bitAnd, .plus, .minus, .invert, .not, .eq, .notEq, .lt, .ltE, .gt, .gtE, .is, .isNot, .isIn,
   .notIn, .and, .or]

/-- The name of an operator in printed trees. -/
def name : Operator → String
  | .add => "add"
  | .sub => "sub"
  | .mult => "mult"
  | .matMult => "mat_mult"
  | .div => "div"
  | .floorDiv => "floor_div"
  | .mod => "mod"
  | .pow => "pow"
  | .lshift => "lshift"
  | .rshift => "rshift"
  | .bitOr => "bit_or"
  | .bitXor => "bit_xor"
  | .bitAnd => "bit_and"
  | .plus => "u_add"
  | .minus => "u_sub"
  | .invert => "invert"
  | .not => "not"
  | .eq => "eq"
  | .notEq => "not_eq"
  | .lt => "lt"
  | .ltE => "lt_e"
  | .gt => "gt"
  | .gtE => "gt_e"
  | .is => "is"
  | .isNot => "is_not"
  | .isIn => "in"
  | .notIn => "not_in"
  | .and => "and"
  | .or => "or"

/-- The builtin of flat code that an operator stands for; the connectives have none. -/
def builtin? : Operator → Option String
  | .add => some "add"
  | .sub => some "sub"
  | .mult => some "mul"
  | .matMult => some "dot"
  | .div => some "truediv"
  | .floorDiv => some "floordiv"
  | .mod => some "mod"
  | .pow => some "pow"
  | .lshift => some "lshift"
  | .rshift => some "rshift"
  | .bitOr => some "bitwise_or"
  | .bitXor => some "bitwise_xor"
  | .bitAnd => some "bitwise_and"
  | .plus => some "uadd"
  | .minus => some "usub"
  | .invert => some "invert"
  | .not => some "not"
  | .eq => some "eq"
  | .notEq => some "ne"
  | .lt => some "lt"
  | .ltE => some "le"
  | .gt => some "gt"
  | .gtE => some "ge"
  | .is => some "is"
  | .isNot => some "is_not"
  | .isIn => some "contains"
  | .notIn => some "not_contains"
  | .and => none
  | .or => none

end Operator

end Hoist.Surface
