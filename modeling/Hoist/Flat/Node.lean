import Hoist.Flat.Location
import Hoist.Flat.Symbol
import Hoist.Literal

/-!
# Nodes of flat code

Flat code has no functions inside expressions: a function is a lambda of the table, and a closure
refers to it with values for its first parameters.
-/

namespace Hoist.Flat

/-- A piece of flat code, with the place of the text it came from. -/
inductive Node
  | ref (loc : Option Location) (sym : Symbol)
  | value (loc : Option Location) (v : Literal)
  | tuple (loc : Option Location) (elems : List Node)
  /-- A call; `cannotFail` marks a projection from a tuple that is known to be long enough. -/
  | apply (loc : Option Location) (fn : Node) (args : List Node) (cannotFail : Bool)
  | letIn (loc : Option Location) (bindings : List (Symbol × Node)) (body : Node)
  | begin (loc : Option Location) (stmts : List Node)
  /-- A lambda of the table, or a builtin, with its first arguments. -/
  | closure (loc : Option Location) (fn : Symbol) (args : List Node)
deriving Repr, Inhabited

namespace Node

/-- The place a node came from. -/
def loc : Node → Option Location
  | .ref l _ | .value l _ | .tuple l _ | .apply l _ _ _ | .letIn l _ _ | .begin l _
  | .closure l _ _ => l

mutual

/-- The s-expression of a node. -/
def sexp : Node → Sexp
  | .ref _ s => .atom s.write
  | .value _ v => .atom v.write
  | .tuple _ es => .list (.atom "tuple" :: sexps es)
  | .apply _ f as safe =>
    .list (.atom (if safe then "apply!" else "apply") :: sexp f :: sexps as)
  | .letIn _ bs b => .list [.atom "let", .list (bindingSexps bs), sexp b]
  | .begin _ ss => .list (.atom "begin" :: sexps ss)
  | .closure _ f as => .list (.atom "closure" :: .atom f.write :: sexps as)

/-- The s-expressions of several nodes. -/
def sexps : List Node → List Sexp
  | [] => []
  | n :: ns => sexp n :: sexps ns

/-- The s-expressions of bindings. -/
def bindingSexps : List (Symbol × Node) → List Sexp
  | [] => []
  | (s, n) :: rest => .list [.atom s.write, sexp n] :: bindingSexps rest

end

instance : Sexp.ToSexp Node := ⟨sexp⟩

mutual

/-- The places of a node and of all nodes inside it, a node before its parts. -/
def locations (n : Node) : List (Option Location) :=
  n.loc :: match n with
  | .ref .. | .value .. => []
  | .tuple _ es => allLocations es
  | .apply _ f as _ => locations f ++ allLocations as
  | .letIn _ bs b => bindingLocations bs ++ locations b
  | .begin _ ss => allLocations ss
  | .closure _ _ as => allLocations as

/-- The places of several nodes. -/
def allLocations : List Node → List (Option Location)
  | [] => []
  | n :: ns => locations n ++ allLocations ns

/-- The places of the values of bindings. -/
def bindingLocations : List (Symbol × Node) → List (Option Location)
  | [] => []
  | (_, n) :: rest => locations n ++ bindingLocations rest

end

end Node

end Hoist.Flat
