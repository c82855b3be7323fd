import Hoist.Flat.Node
import Hoist.Lowering.Failure

/-!
# Grouping the items of a body

The statements of a body become items: assignments, and nodes that stand for themselves. A run of
assignments becomes the bindings of one `let` over the rest, a run of nodes one `begin` that ends in
the rest. A body has to end in a value, be it its last node or a result given from outside.
-/

namespace Hoist.Lowering

open Hoist.Flat (Symbol Node Location)

/-- A binding made by a statement. -/
structure Assignment where
  var : Symbol
  value : Node
  loc : Option Location
deriving Repr, Inhabited

/-- What a statement leaves behind. -/
inductive Item
  | assign (a : Assignment)
  | plain (n : Node)
deriving Repr, Inhabited

/-- The place an item came from. -/
def Item.loc : Item → Option Location
  | .assign a => a.loc
  | .plain n => n.loc

/-- Neighbouring items of one kind. -/
inductive Run
  | binds (first : Assignment) (more : List Assignment)
  | nodes (first : Node) (more : List Node)
deriving Repr

/-- The runs of some items, in order. -/
def runs : List Item → List Run
  | [] => []
  | .assign a :: rest =>
    match runs rest with
    | .binds b bs :: later => .binds a (b :: bs) :: later
    | later => .binds a [] :: later
  | .plain n :: rest =>
    match runs rest with
    | .nodes m ms :: later => .nodes n (m :: ms) :: later
    | later => .nodes n [] :: later

/-- The binding of an assignment. -/
def Assignment.binding (a : Assignment) : Symbol × Node := (a.var, a.value)

/-- The node that yields the last of some nodes after the others; one node stands for itself. -/
def sequence (first : Node) (more : List Node) : Node :=
  match more with
  | [] => first
  | _ => .begin first.loc (first :: more)

/-- The node of some runs before a result. Without a result, the last run must not bind anything; `loc`
is the place of a body that holds no runs at all. -/
def assemble (result : Option Node) (loc : Option Location) : List Run → Except Failure Node
  | [] =>
    match result with
    | some r => .ok r
    | none => .error (.refused .missingReturn loc)
  | .binds a as :: later =>
    if later.isEmpty && result.isNone then
      .error (.refused .missingReturn ((a :: as).getLast (by simp)).loc)
    else do
      let body ← assemble result loc later
      return .letIn a.loc ((a :: as).map Assignment.binding) body
  | .nodes n ns :: later =>
    if later.isEmpty && result.isNone then .ok (sequence n ns)
    else do
      let body ← assemble result loc later
      return sequence n (ns ++ [body])

/-- The node of a body: its items, and the result if one is given. -/
def group (items : List Item) (result : Option Node) (loc : Option Location) :
    Except Failure Node :=
  assemble result loc (runs items)

end Hoist.Lowering
