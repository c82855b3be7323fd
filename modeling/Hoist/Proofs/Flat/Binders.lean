import Hoist.Proofs.Flat.Nodes

/-!
# What code binds and what it refers to

The symbols that the `let`s inside a piece of code bind, and those that it refers to, each as often as it
does. A lambda moreover binds its parameters.
-/

namespace Hoist.Flat

namespace Node

/-- The symbols that a node itself binds. -/
def bound : Node → List Symbol
  | .letIn _ bs _ => bs.map (·.1)
  | _ => []

/-- The symbols that a node itself refers to. -/
def referred : Node → List Symbol
  | .ref _ a | .closure _ a _ => [a]
  | _ => []

/-- The symbols bound inside a node. -/
def lets (n : Node) : List Symbol := n.nodes.flatMap bound

/-- The symbols referred to inside a node. -/
def refers (n : Node) : List Symbol := n.nodes.flatMap referred

section

variable {α : Type} {g : Node → List α} {loc : Option Location} {a : Symbol} {v : Literal}
  {ns args : List Node} {f b : Node} {bs : List (Symbol × Node)} {safe : Bool}

theorem flatMap_allNodes : (allNodes ns).flatMap g = ns.flatMap fun n => n.nodes.flatMap g := by
  induction ns with
  | nil => rfl
  | cons n ns ih => simp [allNodes, ih]

theorem flatMap_bindingNodes :
    (bindingNodes bs).flatMap g = bs.flatMap fun p => p.2.nodes.flatMap g := by
  induction bs with
  | nil => rfl
  | cons p bs ih => simp [bindingNodes, ih]

/-- Where a node contributes nothing itself, its parts do. -/
theorem flatMap_nodes_tuple (h : g (tuple loc ns) = []) :
    (tuple loc ns).nodes.flatMap g = ns.flatMap fun n => n.nodes.flatMap g := by
  simp [nodes, h, flatMap_allNodes]

theorem flatMap_nodes_apply (h : g (apply loc f args safe) = []) :
    (apply loc f args safe).nodes.flatMap g =
      f.nodes.flatMap g ++ args.flatMap fun n => n.nodes.flatMap g := by
  simp [nodes, h, flatMap_allNodes]

theorem flatMap_nodes_begin (h : g (begin loc ns) = []) :
    (begin loc ns).nodes.flatMap g = ns.flatMap fun n => n.nodes.flatMap g := by
  simp [nodes, h, flatMap_allNodes]

theorem flatMap_nodes_letIn : (letIn loc bs b).nodes.flatMap g =
    g (letIn loc bs b) ++ ((bs.flatMap fun p => p.2.nodes.flatMap g) ++ b.nodes.flatMap g) := by
  simp [nodes, flatMap_bindingNodes]

theorem flatMap_nodes_closure : (closure loc a args).nodes.flatMap g =
    g (closure loc a args) ++ args.flatMap fun n => n.nodes.flatMap g := by
  simp [nodes, flatMap_allNodes]

@[simp, grind =] theorem lets_ref : (ref loc a).lets = [] := rfl

@[simp, grind =] theorem lets_value : (value loc v).lets = [] := rfl

@[simp, grind =] theorem lets_tuple : (tuple loc ns).lets = ns.flatMap lets := flatMap_nodes_tuple rfl

@[simp, grind =] theorem lets_apply : (apply loc f args safe).lets = f.lets ++ args.flatMap lets :=
  flatMap_nodes_apply rfl

@[simp, grind =] theorem lets_letIn :
    (letIn loc bs b).lets = bs.map (·.1) ++ (bs.flatMap (·.2.lets) ++ b.lets) :=
  flatMap_nodes_letIn

@[simp, grind =] theorem lets_begin : (begin loc ns).lets = ns.flatMap lets := flatMap_nodes_begin rfl

@[simp, grind =] theorem lets_closure : (closure loc a args).lets = args.flatMap lets :=
  flatMap_nodes_closure

@[simp, grind =] theorem refers_ref : (ref loc a).refers = [a] := rfl

@[simp, grind =] theorem refers_value : (value loc v).refers = [] := rfl

@[simp, grind =] theorem refers_tuple : (tuple loc ns).refers = ns.flatMap refers := flatMap_nodes_tuple rfl

@[simp, grind =] theorem refers_apply : (apply loc f args safe).refers = f.refers ++ args.flatMap refers :=
  flatMap_nodes_apply rfl

@[simp, grind =] theorem refers_letIn : (letIn loc bs b).refers = bs.flatMap (·.2.refers) ++ b.refers :=
  flatMap_nodes_letIn

@[simp, grind =] theorem refers_begin : (begin loc ns).refers = ns.flatMap refers := flatMap_nodes_begin rfl

@[simp, grind =] theorem refers_closure : (closure loc a args).refers = a :: args.flatMap refers :=
  flatMap_nodes_closure

end

end Node

/-- The symbols that a lambda binds: its parameters, and what is bound in its body. -/
def Lambda.binders (l : Lambda) : List Symbol := l.params ++ l.body.lets

/-- All symbols of a lambda: its name, what it binds and what it refers to. -/
def Lambda.symbols (l : Lambda) : List Symbol := l.ref :: (l.binders ++ l.body.refers)

end Hoist.Flat
