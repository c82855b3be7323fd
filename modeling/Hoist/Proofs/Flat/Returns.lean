import Hoist.Proofs.Flat.Nodes

/-!
# What code can return

The value of a `let` is that of its body, the value of a call that of the body of the lambda called, and
a choice has the value of either alternative. Following these ways from a node, one comes to the nodes
that it can return, which have a value of their own. Calls that are marked as unable to fail are listed
with the bindings in whose scope they stand.
-/

namespace Hoist.Flat

namespace Node

/-- The node that yields the value of an alternative when it is chosen. -/
def chosen? (T : Table) : Node → Option Node
  | .ref _ a => (T.find? a).map (·.body)
  | .closure _ a args => if a = identity then args.head? else (T.find? a).map (·.body)
  | _ => none

/-- The nodes of which one yields the value of a node, unless the node has a value of its own. -/
def onward? (T : Table) : Node → Option (List Node)
  | .letIn _ _ b => some [b]
  | .begin _ ss => ss.getLast?.map ([·])
  | .apply _ (.apply _ (.ref _ a) [_, x, y] _) [] _ =>
    if a = switch then (x.chosen? T).bind fun n => (y.chosen? T).map fun m => [n, m] else none
  | .apply _ (.ref _ a) _ _ => (T.find? a).map ([·.body])
  | _ => none

end Node

/-- A node can return what another one stands for. -/
inductive Returns (T : Table) : Node → Node → Prop
  | here {n} (h : n.onward? T = none) : Returns T n n
  | onward {n m r ms} (h : n.onward? T = some ms) (hm : m ∈ ms) (hr : Returns T m r) : Returns T n r

namespace Returns

variable {T : Table} {n r : Node}

/-- What holds on every way from a node holds of all that the node can return. -/
theorem invariant {P : Node → Prop} (hstep : ∀ n ms, P n → n.onward? T = some ms → ∀ m ∈ ms, P m)
    (h : Returns T n r) (hn : P n) : P r ∧ r.onward? T = none := by
  induction h with
  | here h => exact ⟨hn, h⟩
  | onward h hm _ ih => exact ih (hstep _ _ hn h _ hm)

end Returns

namespace Node

/-- Whether a node is a call that is marked as unable to fail. -/
def isMarked : Node → Bool
  | .apply _ _ _ safe => safe
  | _ => false

mutual

/-- The marked calls inside a node, each with the bindings in scope, the latest first. -/
def marked (scope : List (Symbol × Node)) (n : Node) : List (Node × List (Symbol × Node)) :=
  match n with
  | .ref .. | .value .. => []
  | .tuple _ es => allMarked scope es
  | .apply l f args safe =>
    (if safe then [(.apply l f args safe, scope)] else []) ++ (marked scope f ++ allMarked scope args)
  | .letIn _ bs b => bindingMarked scope bs ++ marked (bs.reverse ++ scope) b
  | .begin _ ss => allMarked scope ss
  | .closure _ _ args => allMarked scope args

/-- The marked calls inside several nodes. -/
def allMarked (scope : List (Symbol × Node)) : List Node → List (Node × List (Symbol × Node))
  | [] => []
  | n :: ns => marked scope n ++ allMarked scope ns

/-- The marked calls inside the values of bindings, each in the scope of the bindings before it. -/
def bindingMarked (scope : List (Symbol × Node)) :
    List (Symbol × Node) → List (Node × List (Symbol × Node))
  | [] => []
  | (a, n) :: bs => marked scope n ++ bindingMarked ((a, n) :: scope) bs

end

theorem allMarked_append {scope : List (Symbol × Node)} {ns ms : List Node} :
    allMarked scope (ns ++ ms) = allMarked scope ns ++ allMarked scope ms := by
  induction ns with
  | nil => rfl
  | cons n ns ih => simp [allMarked, ih]

mutual

/-- Code in which no call is marked lists none. -/
theorem marked_eq_nil : ∀ {n : Node} {scope : List (Symbol × Node)},
    (∀ x ∈ n.nodes, x.isMarked = false) → n.marked scope = []
  | .ref .., _, _ => rfl
  | .value .., _, _ => rfl
  | .tuple .., _, h => by
    simp only [nodes, List.mem_cons, forall_eq_or_imp] at h
    exact allMarked_eq_nil h.2
  | .apply .., _, h => by
    simp only [nodes, List.mem_cons, List.mem_append, or_imp, forall_and] at h
    obtain ⟨hhere, hf, hargs⟩ := h
    have hsafe := hhere _ rfl
    simp only [isMarked] at hsafe
    simp [marked, hsafe, marked_eq_nil hf, allMarked_eq_nil hargs]
  | .letIn .., _, h => by
    simp only [nodes, List.mem_cons, List.mem_append, or_imp, forall_and] at h
    simp [marked, bindingMarked_eq_nil h.2.1, marked_eq_nil h.2.2]
  | .begin .., _, h => by
    simp only [nodes, List.mem_cons, forall_eq_or_imp] at h
    exact allMarked_eq_nil h.2
  | .closure .., _, h => by
    simp only [nodes, List.mem_cons, forall_eq_or_imp] at h
    exact allMarked_eq_nil h.2

theorem allMarked_eq_nil : ∀ {ns : List Node} {scope : List (Symbol × Node)},
    (∀ x ∈ allNodes ns, x.isMarked = false) → allMarked scope ns = []
  | [], _, _ => rfl
  | _ :: _, _, h => by
    simp only [allNodes, List.mem_append, or_imp, forall_and] at h
    simp [allMarked, marked_eq_nil h.1, allMarked_eq_nil h.2]

theorem bindingMarked_eq_nil : ∀ {bs scope : List (Symbol × Node)},
    (∀ x ∈ bindingNodes bs, x.isMarked = false) → bindingMarked scope bs = []
  | [], _, _ => rfl
  | (_, _) :: _, _, h => by
    simp only [bindingNodes, List.mem_append, or_imp, forall_and] at h
    simp [bindingMarked, marked_eq_nil h.1, bindingMarked_eq_nil h.2]

end

end Node

end Hoist.Flat
