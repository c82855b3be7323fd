import Hoist.Sexp

/-!
# Patterns over s-expressions

A pattern is an s-expression with holes: atoms and lists agree exactly, a hole stands for any
subtree.
-/

namespace Hoist.Sexp

/-- An atom, a list of patterns, or a hole. -/
inductive Pattern
  | atom (text : String)
  | list (items : List Pattern)
  | any
deriving Inhabited, Repr

namespace Pattern

mutual

/-- Whether an s-expression agrees with a pattern. -/
def accepts : Pattern → Sexp → Bool
  | .any, _ => true
  | .atom a, .atom b => a == b
  | .list ps, .list xs => acceptsItems ps xs
  | _, _ => false

/-- Whether the items of a list agree with patterns one by one, none left over on either side. -/
def acceptsItems : List Pattern → List Sexp → Bool
  | [], [] => true
  | p :: ps, x :: xs => accepts p x && acceptsItems ps xs
  | _, _ => false

end

/-- Whether a pattern is a hole as a whole. -/
def isAny : Pattern → Bool
  | .any => true
  | _ => false

mutual

/-- A pattern on one line, a hole as a star between angle brackets. -/
def write : Pattern → String
  | .atom a => writeAtom a
  | .any => "<*>"
  | .list [] => "()"
  | .list (p :: ps) => "(" ++ write p ++ writeRest ps ++ ")"

/-- The items of a list after its first, each after a space. -/
def writeRest : List Pattern → String
  | [] => ""
  | p :: ps => " " ++ write p ++ writeRest ps

end

end Pattern

end Hoist.Sexp
