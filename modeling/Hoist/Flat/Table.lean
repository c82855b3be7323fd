import Hoist.Flat.Node

/-!
# Tables of lambdas

A table holds the lambdas of a unit in the order of their definition. It only grows, and no two of
its lambdas have one name.
-/

namespace Hoist.Flat

/-- A function without free variables. -/
structure Lambda where
  ref : Symbol
  params : List Symbol
  body : Node
  loc : Option Location
deriving Repr, Inhabited

instance : Sexp.ToSexp Lambda :=
  ⟨fun l => .list [.atom "lambda", .atom l.ref.write, Sexp.toSexp l.params, l.body.sexp]⟩

/-- The lambdas of a unit, in the order of their definition. -/
structure Table where
  lambdas : List Lambda
deriving Repr, Inhabited

namespace Table

/-- The table without lambdas. -/
def empty : Table := ⟨[]⟩

/-- The number of lambdas. -/
def size (t : Table) : Nat := t.lambdas.length

/-- The lambda with a name. -/
def find? (t : Table) (ref : Symbol) : Option Lambda := t.lambdas.find? (·.ref.same ref)

/-- Why a lambda cannot be taken from a table. -/
inductive AccessFault
  | outOfRange
deriving DecidableEq, Repr

/-- The lambda with a name that has to be taken. -/
def get (t : Table) (ref : Symbol) : Except AccessFault Lambda :=
  match t.find? ref with
  | some l => .ok l
  | none => .error .outOfRange

/-- Whether a name is taken. -/
def contains (t : Table) (ref : Symbol) : Bool := t.lambdas.any (·.ref.same ref)

/-- The table with one more lambda at its end; a name that is taken is refused. -/
def define? (t : Table) (l : Lambda) : Option Table :=
  if t.contains l.ref then none else some ⟨t.lambdas ++ [l]⟩

instance : Sexp.ToSexp Table := ⟨fun t => Sexp.toSexp t.lambdas⟩

end Table

end Hoist.Flat
