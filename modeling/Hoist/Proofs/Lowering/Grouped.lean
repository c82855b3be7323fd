import Hoist.Lowering.Grouping
import Hoist.Proofs.Flat.Returns

/-!
# Grouped items

Items before a result can always be grouped. Without a result they can if the last one is a node: that
node is the value then. The nodes of grouped items are those of the items and of the result, but for
the `let`s and sequences around them, and it is the result that they return.
-/

namespace Hoist.Lowering

open Hoist.Flat (Symbol Node Location Table)

/-- Whether an item stands for itself. -/
def Item.isPlain : Item → Bool
  | .assign _ => false
  | .plain _ => true

/-- Whether items end in a node. -/
def endsPlain (items : List Item) : Bool := items.getLast?.any Item.isPlain

/-- Whether a run holds nodes. -/
def Run.isNodes : Run → Bool
  | .binds .. => false
  | .nodes .. => true

/-- An item before some runs joins the first one if that is of its kind. -/
def Item.before : Item → List Run → List Run
  | .assign a, .binds b bs :: later => .binds a (b :: bs) :: later
  | .assign a, later => .binds a [] :: later
  | .plain n, .nodes m ms :: later => .nodes n (m :: ms) :: later
  | .plain n, later => .nodes n [] :: later

theorem runs_cons (i : Item) (items : List Item) : runs (i :: items) = i.before (runs items) := by
  cases i <;> rw [runs] <;> rcases runs items with - | ⟨_ | _, _⟩ <;> rfl

theorem Item.before_ne_nil (i : Item) (rs : List Run) : i.before rs ≠ [] := by
  cases i <;> rcases rs with - | ⟨_ | _, _⟩ <;> simp [Item.before]

theorem Item.before_getLast? (i : Item) {rs : List Run} (h : rs ≠ []) :
    (i.before rs).getLast?.any Run.isNodes = rs.getLast?.any Run.isNodes := by
  cases rs with
  | nil => exact absurd rfl h
  | cons r rs => cases i <;> cases r <;> cases rs <;> simp [Item.before, Run.isNodes]

/-- The last run is of the kind of the last item. -/
theorem runs_getLast? (items : List Item) :
    (runs items).getLast?.any Run.isNodes = endsPlain items := by
  induction items with
  | nil => rfl
  | cons i items ih =>
    cases items with
    | nil => cases i <;> rfl
    | cons j items =>
      have hne : runs (j :: items) ≠ [] := by rw [runs_cons]; exact j.before_ne_nil _
      rw [runs_cons, i.before_getLast? hne, ih, endsPlain, endsPlain, List.getLast?_cons_cons]

/-- The items of a run. -/
def Run.items : Run → List Item
  | .binds a as => (a :: as).map .assign
  | .nodes n ns => (n :: ns).map .plain

/-- Runs are made of their items in order. -/
theorem runs_items (items : List Item) : (runs items).flatMap Run.items = items := by
  induction items with
  | nil => rfl
  | cons i items ih =>
    have hbefore : ∀ rs, (i.before rs).flatMap Run.items = i :: rs.flatMap Run.items := by
      intro rs
      cases i <;> rcases rs with - | ⟨_ | _, _⟩ <;> rfl
    rw [runs_cons, hbefore, ih]

section Assembling

variable {result : Option Node} {loc : Option Location} {rs : List Run} {n : Node}

/-- Assignments are the bindings of a `let` over the rest, which is not missing. -/
theorem assemble_binds {a : Assignment} {as : List Assignment}
    (h : assemble result loc (.binds a as :: rs) = .ok n) :
    (rs ≠ [] ∨ result.isSome) ∧ ∃ body, assemble result loc rs = .ok body ∧
      n = .letIn a.loc ((a :: as).map Assignment.binding) body := by
  unfold assemble at h
  split at h
  · cases h
  · rename_i hc
    cases hb : assemble result loc rs with
    | error e => simp [hb, bind, Except.bind] at h
    | ok body =>
      simp only [hb, bind, Except.bind, pure, Except.pure, Except.ok.injEq] at h
      refine ⟨?_, body, rfl, h.symm⟩
      cases rs <;> cases result <;> simp_all

/-- Nodes come before the rest, or end the body. -/
theorem assemble_nodes {m : Node} {ms : List Node}
    (h : assemble result loc (.nodes m ms :: rs) = .ok n) :
    (rs = [] ∧ result = none ∧ n = sequence m ms) ∨
      ∃ body, assemble result loc rs = .ok body ∧ n = sequence m (ms ++ [body]) := by
  unfold assemble at h
  split at h
  · rename_i hc
    cases h
    left
    cases rs <;> cases result <;> simp_all
  · cases hb : assemble result loc rs with
    | error e => simp [hb, bind, Except.bind] at h
    | ok body =>
      simp only [hb, bind, Except.bind, pure, Except.pure, Except.ok.injEq] at h
      exact .inr ⟨body, rfl, h.symm⟩

end Assembling

theorem assemble_some (r : Node) (loc : Option Location) (rs : List Run) :
    ∃ n, assemble (some r) loc rs = .ok n := by
  induction rs with
  | nil => exact ⟨r, rfl⟩
  | cons run rs ih =>
    obtain ⟨n, hn⟩ := ih
    cases run with
    | binds a as => exact ⟨_, by simp [assemble, hn, bind, Except.bind]; rfl⟩
    | nodes m ms => exact ⟨_, by simp [assemble, hn, bind, Except.bind]; rfl⟩

theorem assemble_none_iff (loc : Option Location) (rs : List Run) :
    (∃ n, assemble none loc rs = .ok n) ↔ rs.getLast?.any Run.isNodes = true := by
  induction rs with
  | nil => simp [assemble]
  | cons run rs ih =>
    cases rs with
    | nil => cases run <;> simp [assemble, Run.isNodes]
    | cons run' rs =>
      rw [List.getLast?_cons_cons, ← ih]
      cases run <;>
        cases h : assemble none loc (run' :: rs) <;>
          simp [assemble, h, bind, Except.bind, pure, Except.pure]

/-- Items before a result can be grouped. -/
theorem group_some (items : List Item) (r : Node) (loc : Option Location) :
    ∃ n, group items (some r) loc = .ok n := assemble_some r loc _

/-- Items without a result can be grouped when they end in a node. -/
theorem group_none_iff (items : List Item) (loc : Option Location) :
    (∃ n, group items none loc = .ok n) ↔ endsPlain items = true := by
  rw [← runs_getLast? items]
  exact assemble_none_iff loc _

section Contents

variable {result : Option Node} {loc : Option Location} {items : List Item} {n r : Node}
  {scope : List (Symbol × Node)}

/-- The node of an item. -/
def Item.node : Item → Node
  | .assign a => a.value
  | .plain n => n

/-- The number of nodes of a kind inside items. -/
def itemsCount (p : Node → Bool) (items : List Item) : Nat := (items.map (·.node.count p)).sum

theorem itemsCount_append {p : Node → Bool} {is js : List Item} :
    itemsCount p (is ++ js) = itemsCount p is + itemsCount p js := by
  simp [itemsCount]

theorem itemsCount_singleton {p : Node → Bool} {i : Item} : itemsCount p [i] = i.node.count p := by
  simp [itemsCount]

theorem sequence_count {p : Node → Bool} (h : ∀ loc ss, p (.begin loc ss) = false) (n : Node)
    (ns : List Node) : (sequence n ns).count p = n.count p + (ns.map (Node.count p)).sum := by
  unfold sequence
  split
  · simp
  · simp [Node.count_begin (h _ _)]

theorem assemble_count {p : Node → Bool} (hlet : ∀ loc bs b, p (.letIn loc bs b) = false)
    (hbegin : ∀ loc ss, p (.begin loc ss) = false) {rs : List Run}
    (h : assemble result loc rs = .ok n) :
    n.count p = itemsCount p (rs.flatMap Run.items) + result.elim 0 (Node.count p) := by
  induction rs generalizing n with
  | nil =>
    cases result with
    | none => cases h
    | some r =>
      cases h
      simp [itemsCount]
  | cons run rs ih =>
    rw [List.flatMap_cons, itemsCount_append]
    cases run with
    | binds a as =>
      obtain ⟨-, body, hbody, rfl⟩ := assemble_binds h
      rw [Node.count_letIn (hlet _ _ _), ih hbody, List.map_map]
      simp only [itemsCount, Run.items, List.map_map]
      exact (Nat.add_assoc _ _ _).symm
    | nodes m ms =>
      have hitems : itemsCount p (Run.nodes m ms).items = m.count p + (ms.map (Node.count p)).sum := by
        simp [itemsCount, Run.items, Item.node, Function.comp_def]
      rw [hitems]
      rcases assemble_nodes h with ⟨rfl, rfl, rfl⟩ | ⟨body, hbody, rfl⟩
      · simp [sequence_count hbegin, itemsCount]
      · simp only [sequence_count hbegin, List.map_append, List.sum_append, List.map_singleton,
          List.sum_singleton, ih hbody]
        omega

/-- Grouping adds no nodes but `let`s and sequences. -/
theorem group_count {p : Node → Bool} (hlet : ∀ loc bs b, p (.letIn loc bs b) = false)
    (hbegin : ∀ loc ss, p (.begin loc ss) = false) (h : group items result loc = .ok n) :
    n.count p = itemsCount p items + result.elim 0 (Node.count p) := by
  rw [assemble_count hlet hbegin h, runs_items]

/-- What holds of the nodes of items and of a result, and of `let`s and sequences, holds of all nodes of a
body. -/
theorem group_nodes {q : Node → Bool} (hlet : ∀ loc bs b, q (.letIn loc bs b) = true)
    (hbegin : ∀ loc ss, q (.begin loc ss) = true)
    (hitems : ∀ i ∈ items, ∀ x ∈ i.node.nodes, q x = true)
    (hresult : ∀ r ∈ result, ∀ x ∈ r.nodes, q x = true) (h : group items result loc = .ok n) :
    ∀ x ∈ n.nodes, q x = true := by
  have hzero : ∀ {m : Node}, (∀ x ∈ m.nodes, q x = true) ↔ m.count (!q ·) = 0 := by
    intro m
    simp [Node.count_eq_zero]
  have hcount := group_count (p := (!q ·)) (by simp [hlet]) (by simp [hbegin]) h
  have hnone : itemsCount (!q ·) items = 0 := by
    clear h hcount
    induction items with
    | nil => rfl
    | cons i is ih =>
      rw [← List.singleton_append, itemsCount_append, itemsCount_singleton,
        hzero.1 (hitems i (by simp)), ih fun j hj => hitems j (List.mem_cons_of_mem _ hj)]
  rw [hzero, hcount, hnone]
  cases result with
  | none => rfl
  | some r => exact (Nat.zero_add _).trans (hzero.1 (hresult r rfl))

/-- The marked calls inside items, each with the bindings in scope: what an item binds is in the scope of
those behind it. -/
def itemsMarked (scope : List (Symbol × Node)) : List Item → List (Node × List (Symbol × Node))
  | [] => []
  | .assign a :: is => a.value.marked scope ++ itemsMarked (a.binding :: scope) is
  | .plain n :: is => n.marked scope ++ itemsMarked scope is

/-- The scope behind items. -/
def itemsScope (scope : List (Symbol × Node)) : List Item → List (Symbol × Node)
  | [] => scope
  | .assign a :: is => itemsScope (a.binding :: scope) is
  | .plain _ :: is => itemsScope scope is

theorem itemsMarked_append {is js : List Item} : itemsMarked scope (is ++ js) =
    itemsMarked scope is ++ itemsMarked (itemsScope scope is) js := by
  induction is generalizing scope with
  | nil => rfl
  | cons i is ih => cases i <;> simp [itemsMarked, itemsScope, ih]

theorem itemsMarked_assigns {as : List Assignment} {js : List Item} :
    itemsMarked scope (as.map .assign ++ js) =
      Node.bindingMarked scope (as.map Assignment.binding) ++
        itemsMarked ((as.map Assignment.binding).reverse ++ scope) js := by
  induction as generalizing scope with
  | nil => rfl
  | cons a as ih => simp [itemsMarked, Node.bindingMarked, Assignment.binding, ih]

theorem itemsMarked_plains {ns : List Node} {js : List Item} :
    itemsMarked scope (ns.map .plain ++ js) = Node.allMarked scope ns ++ itemsMarked scope js := by
  induction ns with
  | nil => rfl
  | cons n ns ih => simp [itemsMarked, Node.allMarked, ih]

theorem sequence_marked {n : Node} {ns : List Node} :
    (sequence n ns).marked scope = Node.allMarked scope (n :: ns) := by
  unfold sequence
  split <;> simp [Node.marked, Node.allMarked]

theorem assemble_marked (hresult : ∀ r ∈ result, ∀ scope, r.marked scope = []) {rs : List Run}
    (h : assemble result loc rs = .ok n) : n.marked scope = itemsMarked scope (rs.flatMap Run.items) := by
  induction rs generalizing n scope with
  | nil =>
    cases result with
    | none => cases h
    | some r =>
      cases h
      exact hresult _ rfl scope
  | cons run rs ih =>
    rw [List.flatMap_cons]
    cases run with
    | binds a as =>
      obtain ⟨-, body, hbody, rfl⟩ := assemble_binds h
      rw [Run.items, itemsMarked_assigns, Node.marked, ih hbody]
    | nodes m ms =>
      rw [Run.items, itemsMarked_plains]
      rcases assemble_nodes h with ⟨rfl, rfl, rfl⟩ | ⟨body, hbody, rfl⟩
      · simp [sequence_marked, itemsMarked]
      · rw [sequence_marked, ← List.cons_append, Node.allMarked_append, ← ih hbody]
        simp [Node.allMarked]

/-- Grouping keeps the marked calls and their scopes. -/
theorem group_marked (hresult : ∀ r ∈ result, ∀ scope, r.marked scope = [])
    (h : group items result loc = .ok n) : n.marked scope = itemsMarked scope items := by
  rw [assemble_marked hresult h, runs_items]

/-- Runs before a result yield what the later runs and the result do. -/
theorem assemble_onward {T : Table} {run : Run} {rs : List Run}
    (h : assemble (some r) loc (run :: rs) = .ok n) :
    ∃ body, assemble (some r) loc rs = .ok body ∧ n.onward? T = some [body] := by
  cases run with
  | binds a as =>
    obtain ⟨-, body, hbody, rfl⟩ := assemble_binds h
    exact ⟨body, hbody, rfl⟩
  | nodes m ms =>
    rcases assemble_nodes h with ⟨-, hnone, -⟩ | ⟨body, hbody, rfl⟩
    · cases hnone
    · refine ⟨body, hbody, ?_⟩
      have hlast : (m :: (ms ++ [body])).getLast? = some body := by
        rw [← List.cons_append, List.getLast?_append]
        rfl
      unfold sequence
      split
      · simp_all
      · rw [Node.onward?, hlast]
        rfl

end Contents

end Hoist.Lowering
