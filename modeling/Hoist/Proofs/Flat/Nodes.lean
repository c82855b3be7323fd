import Mathlib.Algebra.GroupWithZero.Nat
import Hoist.Proofs.Flat.Closed

/-!
# Nodes inside nodes

What is said of all nodes inside a piece of code, or of how many of them there are of some kind, is
said of the list of these nodes. A lambda is named by a node that refers to it, alone or as the
function of a closure.
-/

namespace Hoist.Flat

namespace Node

mutual

/-- A node and all nodes inside it, a node before its parts. -/
def nodes (n : Node) : List Node :=
  n :: match n with
  | .ref .. | .value .. => []
  | .tuple _ es => allNodes es
  | .apply _ f args _ => nodes f ++ allNodes args
  | .letIn _ bs b => bindingNodes bs ++ nodes b
  | .begin _ ss => allNodes ss
  | .closure _ _ args => allNodes args

/-- The nodes of several nodes. -/
def allNodes : List Node → List Node
  | [] => []
  | n :: ns => nodes n ++ allNodes ns

/-- The nodes of the values of bindings. -/
def bindingNodes : List (Symbol × Node) → List Node
  | [] => []
  | (_, n) :: bs => nodes n ++ bindingNodes bs

end

/-- The number of nodes of a kind inside a node. -/
def count (p : Node → Bool) (n : Node) : Nat := n.nodes.countP p

/-- Whether a node refers to a lambda, by itself or as the function of a closure. -/
def names (a : Symbol) : Node → Bool
  | .ref _ b | .closure _ b _ => b.same a
  | _ => false

/-- Whether a symbol that a node refers to has a property; a `let` is refused. -/
def refersTo (p : Symbol → Bool) : Node → Bool
  | .ref _ a | .closure _ a _ => p a
  | .letIn .. => false
  | _ => true

theorem mem_nodes_self (n : Node) : n ∈ n.nodes := by
  cases n <;> simp [nodes]

theorem mem_allNodes {ns : List Node} {x : Node} : x ∈ allNodes ns ↔ ∃ n ∈ ns, x ∈ n.nodes := by
  induction ns with
  | nil => simp [allNodes]
  | cons n ns ih => simp [allNodes, ih]

mutual

/-- What is inside a node inside another one is inside the other one. -/
theorem mem_nodes_trans {x y : Node} (hy : y ∈ x.nodes) : ∀ {n : Node}, x ∈ n.nodes → y ∈ n.nodes
  | .ref .., h => by
    simp only [nodes, List.mem_singleton] at h
    exact h ▸ hy
  | .value .., h => by
    simp only [nodes, List.mem_singleton] at h
    exact h ▸ hy
  | .tuple .., h => by
    simp only [nodes, List.mem_cons] at h
    rcases h with rfl | h
    · exact hy
    · simp [nodes, mem_allNodes_trans hy h]
  | .apply .., h => by
    simp only [nodes, List.mem_cons, List.mem_append] at h
    rcases h with rfl | h | h
    · exact hy
    · simp [nodes, mem_nodes_trans hy h]
    · simp [nodes, mem_allNodes_trans hy h]
  | .letIn .., h => by
    simp only [nodes, List.mem_cons, List.mem_append] at h
    rcases h with rfl | h | h
    · exact hy
    · simp [nodes, mem_bindingNodes_trans hy h]
    · simp [nodes, mem_nodes_trans hy h]
  | .begin .., h => by
    simp only [nodes, List.mem_cons] at h
    rcases h with rfl | h
    · exact hy
    · simp [nodes, mem_allNodes_trans hy h]
  | .closure .., h => by
    simp only [nodes, List.mem_cons] at h
    rcases h with rfl | h
    · exact hy
    · simp [nodes, mem_allNodes_trans hy h]

theorem mem_allNodes_trans {x y : Node} (hy : y ∈ x.nodes) :
    ∀ {ns : List Node}, x ∈ allNodes ns → y ∈ allNodes ns
  | [], h => by simp [allNodes] at h
  | _ :: _, h => by
    rw [allNodes, List.mem_append] at h ⊢
    exact h.imp (mem_nodes_trans hy) (mem_allNodes_trans hy)

theorem mem_bindingNodes_trans {x y : Node} (hy : y ∈ x.nodes) :
    ∀ {bs : List (Symbol × Node)}, x ∈ bindingNodes bs → y ∈ bindingNodes bs
  | [], h => by simp [bindingNodes] at h
  | (_, _) :: _, h => by
    rw [bindingNodes, List.mem_append] at h ⊢
    exact h.imp (mem_nodes_trans hy) (mem_bindingNodes_trans hy)

end

mutual

/-- Code is over symbols with a property when every node inside it refers to such a symbol. -/
theorem isOver_iff {p : Symbol → Bool} :
    ∀ {n : Node}, n.isOver p = true ↔ ∀ x ∈ n.nodes, x.refersTo p = true
  | .ref .. => by simp [isOver, nodes, refersTo]
  | .value .. => by simp [isOver, nodes, refersTo]
  | .tuple .. => by simp [isOver, nodes, refersTo, allOver_iff_nodes]
  | .apply .. => by
    simp [isOver, nodes, refersTo, isOver_iff, allOver_iff_nodes, or_imp, forall_and]
  | .letIn .. => by simp [isOver, nodes, refersTo]
  | .begin .. => by simp [isOver, nodes, refersTo, allOver_iff_nodes]
  | .closure .. => by simp [isOver, nodes, refersTo, allOver_iff_nodes]

theorem allOver_iff_nodes {p : Symbol → Bool} :
    ∀ {ns : List Node}, allOver p ns = true ↔ ∀ x ∈ allNodes ns, x.refersTo p = true
  | [] => by simp [allOver, allNodes]
  | _ :: _ => by simp [allOver, allNodes, isOver_iff, allOver_iff_nodes, or_imp, forall_and]

end

section Counting

variable {p : Node → Bool} {loc : Option Location} {a : Symbol} {n f : Node} {ns args : List Node}

theorem count_eq_zero : n.count p = 0 ↔ ∀ x ∈ n.nodes, p x = false := by
  simp [count, List.countP_eq_zero]

theorem countP_allNodes : (allNodes ns).countP p = (ns.map (count p)).sum := by
  induction ns with
  | nil => rfl
  | cons n ns ih => simp [allNodes, ih, count]

theorem countP_bindingNodes {bs : List (Symbol × Node)} :
    (bindingNodes bs).countP p = (bs.map fun b => b.2.count p).sum := by
  induction bs with
  | nil => rfl
  | cons b bs ih => simp [bindingNodes, ih, count]

theorem count_ref : (ref loc a).count p = if p (.ref loc a) then 1 else 0 := by
  simp [count, nodes, List.countP_cons]

theorem count_tuple : (tuple loc ns).count p =
    (ns.map (count p)).sum + if p (.tuple loc ns) then 1 else 0 := by
  simp [count, nodes, List.countP_cons, countP_allNodes]

theorem count_apply {safe : Bool} : (apply loc f args safe).count p =
    f.count p + (args.map (count p)).sum + if p (.apply loc f args safe) then 1 else 0 := by
  simp [count, nodes, List.countP_cons, countP_allNodes]

theorem count_closure : (closure loc a args).count p =
    (args.map (count p)).sum + if p (.closure loc a args) then 1 else 0 := by
  simp [count, nodes, List.countP_cons, countP_allNodes]

theorem count_begin (h : p (.begin loc ns) = false) :
    (begin loc ns).count p = (ns.map (count p)).sum := by
  simp [count, nodes, h, countP_allNodes]

theorem count_letIn {bs : List (Symbol × Node)} (h : p (.letIn loc bs n) = false) :
    (letIn loc bs n).count p = (bs.map fun b => b.2.count p).sum + n.count p := by
  simp [count, nodes, h, countP_bindingNodes]

/-- Where all symbols are other ones, none is named. -/
theorem count_names_of_isOver (h : n.isOver (!·.same a) = true) : n.count (names a) = 0 := by
  refine count_eq_zero.2 fun x hx => ?_
  have := isOver_iff.1 h x hx
  cases x <;> simp_all [names, refersTo]

/-- There are no nodes of a kind that names a lambda where the lambda is not named. -/
theorem count_eq_zero_of_isOver (hp : ∀ x, p x = true → ∃ y ∈ x.nodes, y.names a = true)
    (h : n.isOver (!·.same a) = true) : n.count p = 0 := by
  refine count_eq_zero.2 fun x hx => ?_
  cases hpx : p x with
  | false => rfl
  | true =>
    obtain ⟨y, hy, hn⟩ := hp x hpx
    rw [count_eq_zero.1 (count_names_of_isOver h) y (mem_nodes_trans hy hx)] at hn
    cases hn

end Counting

end Node

namespace Lambda

/-- Whether a node is the value of a lambda that has all its arguments. -/
def isValue (l : Lambda) : Node → Bool
  | .ref _ a => a.same l.ref && l.params.isEmpty
  | .closure _ a args => a.same l.ref && args.length == l.params.length
  | _ => false

/-- Whether a node picks one of two alternatives and calls it at once, where the value of a lambda is the
first one or, if not asked for that, the second one. -/
def isPicked (l : Lambda) (first : Bool) : Node → Bool
  | .apply _ (.apply _ (.ref _ a) [_, x, y] _) [] _ =>
    a == switch && l.isValue (if first then x else y)
  | _ => false

/-- Whether a node is a closure over a lambda with all its arguments. -/
def isPassed (l : Lambda) : Node → Bool
  | .closure _ a args => a.same l.ref && args.length == l.params.length
  | _ => false

/-- Whether a node calls a lambda with all its arguments. -/
def isCalled (l : Lambda) : Node → Bool
  | .apply _ (.ref _ a) args _ => a.same l.ref && args.length == l.params.length
  | _ => false

/-- The use that a lambda is made for, by what its name tells: a part of a conditional is picked, the
body of a loop is passed to the choice of the next turn, and a loop is called. -/
def isUsed (l : Lambda) : Node → Bool :=
  if l.ref.relation = "then" then l.isPicked true
  else if l.ref.relation = "else" then l.isPicked false
  else if l.ref.relation = "continue" then l.isPassed
  else l.isCalled

/-- Whether a node names a lambda as one whose last parameters are its own, their number given: by a
closure over values for all the other ones, or alone where there are no others or inside the lambda. -/
def fits (l : Lambda) (own : Nat) (inside : Bool) : Node → Bool
  | .closure _ a args => !a.same l.ref || args.length + own == l.params.length
  | .ref _ a => inside || !a.same l.ref || own == l.params.length
  | _ => true

end Lambda

/-- The number of nodes of a kind in all lambdas of a table. -/
def Table.count (T : Table) (p : Node → Bool) : Nat := (T.lambdas.map (·.body.count p)).sum

end Hoist.Flat
