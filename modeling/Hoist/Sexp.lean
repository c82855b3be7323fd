import Hoist.Text.Class

/-!
# S-expressions

Atoms and lists, their form on one line, and their indented form, in which a list stays on one
line as long as it holds atoms only. An atom is written as it is, or between double quotes when it
is empty or holds white space; nothing inside it is escaped.
-/

namespace Hoist

/-- An atom, or a list of s-expressions. -/
inductive Sexp
  | atom (text : String)
  | list (items : List Sexp)
deriving Inhabited, Repr

namespace Sexp

mutual

/-- Equality, decided item by item. -/
def same : Sexp → Sexp → Bool
  | .atom a, .atom b => a == b
  | .list xs, .list ys => sameItems xs ys
  | _, _ => false

/-- Equality of two lists of items. -/
def sameItems : List Sexp → List Sexp → Bool
  | [], [] => true
  | x :: xs, y :: ys => same x y && sameItems xs ys
  | _, _ => false

end

instance : BEq Sexp := ⟨same⟩

/-- Why a part of an s-expression cannot be taken. -/
inductive AccessFault
  /-- An atom was used as a list, or a list as an atom. -/
  | wrongShape
  /-- A list has no item at the index. -/
  | outOfRange
deriving DecidableEq, Repr

/-- The text of an atom. -/
def atomText : Sexp → Except AccessFault String
  | .atom a => .ok a
  | .list _ => .error .wrongShape

/-- The items of a list. -/
def items : Sexp → Except AccessFault (List Sexp)
  | .atom _ => .error .wrongShape
  | .list xs => .ok xs

/-- The number of items of a list. -/
def size (s : Sexp) : Except AccessFault Nat := s.items.map List.length

/-- The item of a list at an index. -/
def item (s : Sexp) (i : Nat) : Except AccessFault Sexp := do
  match (← s.items)[i]? with
  | some x => .ok x
  | none => .error .outOfRange

/-- The s-expression reached by taking the item at each index of a path in turn. -/
def follow (s : Sexp) (path : List Nat) : Except AccessFault Sexp := path.foldlM item s

/-- A list with one more item at its end. -/
def push (s x : Sexp) : Except AccessFault Sexp := s.items.map fun xs => .list (xs ++ [x])

/-- Whether an s-expression is a list. -/
def isList : Sexp → Bool
  | .atom _ => false
  | .list _ => true

/-- The written form of an atom. -/
def writeAtom (a : String) : String :=
  if a.toList.isEmpty || a.toList.any Text.isSpace then "\"" ++ a ++ "\"" else a

mutual

/-- An s-expression on one line. -/
def write : Sexp → String
  | .atom a => writeAtom a
  | .list [] => "()"
  | .list (x :: xs) => "(" ++ write x ++ writeRest xs ++ ")"

/-- The items of a list after its first, each after a space. -/
def writeRest : List Sexp → String
  | [] => ""
  | x :: xs => " " ++ write x ++ writeRest xs

end

/-- The blanks before a line at a depth: two for each level. -/
def margin (depth : Nat) : String := String.ofList (List.replicate (2 * depth) ' ')

mutual

/-- An s-expression over several lines, each item of a list that holds a list on lines of its own. -/
def writeIndented (depth : Nat) : Sexp → String
  | .atom a => margin depth ++ writeAtom a ++ "\n"
  | .list xs =>
    if xs.any isList then
      margin depth ++ "(\n" ++ writeItems (depth + 1) xs ++ margin depth ++ ")\n"
    else margin depth ++ write (.list xs) ++ "\n"

/-- The items of a list, one block after the other. -/
def writeItems (depth : Nat) : List Sexp → String
  | [] => ""
  | x :: xs => writeIndented depth x ++ writeItems depth xs

end

/-- What has a form as an s-expression. -/
class ToSexp (α : Type) where
  toSexp : α → Sexp

export ToSexp (toSexp)

instance : ToSexp Sexp := ⟨id⟩

instance : ToSexp String := ⟨.atom⟩

instance : ToSexp Bool := ⟨fun b => .atom (if b then "True" else "False")⟩

instance : ToSexp Int64 := ⟨fun i => .atom (toString i.toInt)⟩

/-- What is absent is written as an underscore. -/
instance {α : Type} [ToSexp α] : ToSexp (Option α) :=
  ⟨fun | none => .atom "_" | some x => toSexp x⟩

instance {α : Type} [ToSexp α] : ToSexp (List α) := ⟨fun xs => .list (xs.map toSexp)⟩

end Sexp

end Hoist
