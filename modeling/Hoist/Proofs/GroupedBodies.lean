import Hoist.Proofs.Lowering.Grouped
import Mathlib.Data.List.Chain

/-!
# Grouping loses and moves nothing

A grouped body is taken apart again by opening its `let`s and sequences, and its items come out in
their order, followed by the result. Neighbours of one kind stay together: the body of a `let` is no
`let`, and the last node of a sequence is no sequence. Only a body without a value at its end is refused.
-/

namespace Hoist.Flat

/-- What a node is taken apart into: bindings, and nodes that stand for themselves. -/
inductive Leaf
  | binding (var : Symbol) (value : Node)
  | node (n : Node)

namespace Node

/-- Whether a node binds symbols. -/
def isLet : Node → Bool
  | .letIn .. => true
  | _ => false

/-- Whether a node is a sequence. -/
def isBegin : Node → Bool
  | .begin .. => true
  | _ => false

/-- Whether a node is neither a `let` nor a sequence. -/
def isSingle (n : Node) : Bool := !n.isLet && !n.isBegin

mutual

/-- The leaves of a node: a `let` has its bindings and then the leaves of its body, a sequence the leaves of
its nodes. -/
def leaves : Node → List Leaf
  | .letIn _ bs b => bs.map (fun p => .binding p.1 p.2) ++ b.leaves
  | .begin _ ss => allLeaves ss
  | n => [.node n]

/-- The leaves of several nodes. -/
def allLeaves : List Node → List Leaf
  | [] => []
  | n :: ns => n.leaves ++ allLeaves ns

end

theorem allLeaves_append (ns ms : List Node) : allLeaves (ns ++ ms) = allLeaves ns ++ allLeaves ms := by
  induction ns with
  | nil => rfl
  | cons n ns ih => simp [allLeaves, ih]

variable {n : Node}

theorem isLet_of_single (h : n.isSingle = true) : n.isLet = false := by
  simp_all [isSingle]

theorem isBegin_of_single (h : n.isSingle = true) : n.isBegin = false := by
  simp_all [isSingle]

theorem leaves_of_single (h : n.isSingle = true) : n.leaves = [.node n] := by
  cases n <;> first | rfl | cases h

theorem allLeaves_of_single {ns : List Node} (h : ∀ n ∈ ns, n.isSingle = true) :
    allLeaves ns = ns.map .node := by
  induction ns with
  | nil => rfl
  | cons n ns ih =>
    rw [allLeaves, leaves_of_single (h n List.mem_cons_self),
      ih fun m hm => h m (List.mem_cons_of_mem _ hm)]
    rfl

/-- A grouped node: a `let` has bindings and a body that is no `let`; a sequence has nodes that stand for
themselves and, behind them, one grouped node that is no sequence. -/
inductive Grouped : Node → Prop
  | single {n : Node} (h : n.isSingle = true) : Grouped n
  | letIn {loc bs b} (binds : bs ≠ []) (maximal : b.isLet = false) (body : Grouped b) :
      Grouped (.letIn loc bs b)
  | begin {n last : Node} {ns : List Node} (singles : ∀ m ∈ n :: ns, m.isSingle = true)
      (maximal : last.isBegin = false) (rest : Grouped last) : Grouped (.begin n.loc (n :: (ns ++ [last])))

end Node

end Hoist.Flat

namespace Hoist.Lowering

open Hoist.Flat (Symbol Node Leaf Location)

/-- The leaf of a body that an item becomes. -/
def Item.leaf : Item → Leaf
  | .assign a => .binding a.var a.value
  | .plain n => .node n

variable {items : List Item} {result : Option Node} {loc : Option Location} {rs : List Run}
  {run : Run} {n : Node} {ns : List Node} {e : Failure}

/-- Runs of one kind do not follow each other. -/
def Alternating (rs : List Run) : Prop := rs.IsChain fun r r' => r.isNodes ≠ r'.isNodes

theorem Item.before_alternating (i : Item) (h : Alternating rs) : Alternating (i.before rs) := by
  unfold Alternating at *
  cases i <;> rcases rs with - | ⟨_ | _, - | ⟨_, _⟩⟩ <;>
    simp_all [Item.before, Run.isNodes]

theorem runs_alternating (items : List Item) : Alternating (runs items) := by
  induction items with
  | nil => exact .nil
  | cons i items ih =>
    rw [runs_cons]
    exact i.before_alternating ih

theorem Run.items_ne_nil (run : Run) : run.items ≠ [] := by
  cases run <;> simp [Run.items]

/-- The items of a run are of its kind, so the last one tells the kind. -/
theorem Run.getLast?_items (run : Run) :
    run.items.getLast? = match run with
      | .binds a as => some (.assign ((a :: as).getLast (by simp)))
      | .nodes n ns => some (.plain ((n :: ns).getLast (by simp))) := by
  cases run <;> simp only [Run.items, List.getLast?_map, List.getLast?_eq_some_getLast
    (List.cons_ne_nil _ _), Option.map_some]

/-- Runs are refused when no result follows them and they are missing, or bind something at the end. -/
theorem assemble_error : assemble result loc rs = .error e ↔ result = none ∧
    ((rs = [] ∧ e = .refused .missingReturn loc) ∨
      ∃ a, (rs.flatMap Run.items).getLast? = some (.assign a) ∧ e = .refused .missingReturn a.loc) := by
  cases result with
  | some r =>
    obtain ⟨n, hn⟩ := assemble_some r loc rs
    simp [hn]
  | none =>
    induction rs with
    | nil => simp [assemble, eq_comm]
    | cons run rs ih =>
      cases rs with
      | nil =>
        rw [List.flatMap_singleton, run.getLast?_items]
        cases run <;> simp [assemble, eq_comm]
      | cons run' rs =>
        have hlast : ((run :: run' :: rs).flatMap Run.items).getLast? =
            ((run' :: rs).flatMap Run.items).getLast? := by
          have hne : (run' :: rs).flatMap Run.items ≠ [] := by simp [run'.items_ne_nil]
          rw [List.flatMap_cons, List.getLast?_append, Option.or_of_isSome]
          rwa [Option.isSome_iff_ne_none, ne_eq, List.getLast?_eq_none_iff]
        have hstep : assemble none loc (run :: run' :: rs) = .error e ↔
            assemble none loc (run' :: rs) = .error e := by
          cases run <;> cases h : assemble none loc (run' :: rs) <;>
            simp [assemble, h, bind, Except.bind, pure, Except.pure]
        rw [hstep, ih, hlast]
        simp

section Shape

variable (hresult : ∀ r ∈ result, r.isSingle = true)
  (hitems : ∀ m, .plain m ∈ rs.flatMap Run.items → m.isSingle = true)

/-- One node is grouped as it stands, several ones in a sequence. -/
theorem sequence_leaves (n : Node) (ns : List Node) :
    (sequence n ns).leaves = Node.allLeaves (n :: ns) := by
  unfold sequence
  split
  · simp [Node.allLeaves]
  · rfl

include hresult hitems in
/-- A grouped body has the leaves that its items and its result are. -/
theorem assemble_leaves (h : assemble result loc rs = .ok n) :
    n.leaves = (rs.flatMap Run.items).map Item.leaf ++ result.toList.map .node := by
  induction rs generalizing n with
  | nil =>
    cases result with
    | none => cases h
    | some r =>
      cases h
      exact Node.leaves_of_single (hresult _ rfl)
  | cons run rs ih =>
    have hlater : ∀ m, .plain m ∈ rs.flatMap Run.items → m.isSingle = true := fun m hm =>
      hitems m (List.mem_append_right _ hm)
    rw [List.flatMap_cons, List.map_append, List.append_assoc]
    cases run with
    | binds a as =>
      obtain ⟨-, body, hbody, rfl⟩ := assemble_binds h
      rw [Node.leaves, ih hlater hbody]
      simp [Run.items, Item.leaf, Assignment.binding, Function.comp_def]
    | nodes m ms =>
      have hsingle : ∀ x ∈ m :: ms, x.isSingle = true := fun x hx =>
        hitems x (List.mem_append_left _ (List.mem_map_of_mem hx))
      have hfront : (Run.nodes m ms).items.map Item.leaf = Node.allLeaves (m :: ms) := by
        rw [Node.allLeaves_of_single hsingle, Run.items, List.map_map]
        rfl
      rw [hfront]
      rcases assemble_nodes h with ⟨rfl, rfl, rfl⟩ | ⟨body, hbody, rfl⟩
      · simp [sequence_leaves]
      · rw [sequence_leaves, ← List.cons_append, Node.allLeaves_append, ← ih hlater hbody]
        simp [Node.allLeaves]

/-- What a node grouped from runs is, as far as the first run tells. -/
def Headed (rs : List Run) (n : Node) : Prop :=
  match rs with
  | [] => n.isSingle = true
  | .binds .. :: _ => n.isBegin = false
  | .nodes .. :: _ => n.isLet = false

include hresult hitems in
/-- A body is grouped, and the kind of its first run is the kind of its node. -/
theorem assemble_grouped (halt : Alternating rs) (h : assemble result loc rs = .ok n) :
    n.Grouped ∧ Headed rs n := by
  induction rs generalizing n with
  | nil =>
    cases result with
    | none => cases h
    | some r =>
      cases h
      exact ⟨.single (hresult _ rfl), hresult _ rfl⟩
  | cons run rs ih =>
    have hlater : ∀ m, .plain m ∈ rs.flatMap Run.items → m.isSingle = true := fun m hm =>
      hitems m (List.mem_append_right _ hm)
    have hkinds : ∀ r ∈ rs.head?, run.isNodes ≠ r.isNodes := by
      cases rs with
      | nil => simp
      | cons r rs => simpa using (List.isChain_cons_cons.1 halt).1
    have hnext := fun {body} => ih hlater (List.IsChain.tail halt) (n := body)
    cases run with
    | binds a as =>
      obtain ⟨-, body, hbody, rfl⟩ := assemble_binds h
      obtain ⟨hgrouped, hhead⟩ := hnext hbody
      refine ⟨.letIn (by simp) ?_ hgrouped, rfl⟩
      rcases rs with - | ⟨_ | _, rs⟩
      · exact Node.isLet_of_single hhead
      · exact (hkinds _ rfl rfl).elim
      · exact hhead
    | nodes m ms =>
      have hsingle : ∀ x ∈ m :: ms, x.isSingle = true := fun x hx =>
        hitems x (List.mem_append_left _ (List.mem_map_of_mem hx))
      rcases assemble_nodes h with ⟨rfl, rfl, rfl⟩ | ⟨body, hbody, rfl⟩
      · rcases List.eq_nil_or_concat ms with rfl | ⟨front, last, rfl⟩
        · have hm := hsingle m List.mem_cons_self
          exact ⟨.single hm, Node.isLet_of_single hm⟩
        · have hlast := hsingle last (by simp)
          rw [List.concat_eq_append] at hsingle ⊢
          have hsequence : sequence m (front ++ [last]) = .begin m.loc (m :: (front ++ [last])) := by
            cases front <;> rfl
          rw [hsequence]
          exact ⟨.begin (fun x hx => hsingle x (by simp_all; tauto)) (Node.isBegin_of_single hlast)
            (.single hlast), rfl⟩
      · obtain ⟨hgrouped, hhead⟩ := hnext hbody
        have hsequence : sequence m (ms ++ [body]) = .begin m.loc (m :: (ms ++ [body])) := by
          cases ms <;> rfl
        rw [hsequence]
        refine ⟨.begin hsingle ?_ hgrouped, rfl⟩
        rcases rs with - | ⟨_ | _, rs⟩
        · exact Node.isBegin_of_single hhead
        · exact hhead
        · exact (hkinds _ rfl rfl).elim

end Shape

/-- Grouping items before a result fails only without a result, when there are no items or the last one is
an assignment, and then at its place. Otherwise it gives a grouped node whose leaves are the items in
order and the result. -/
theorem group_regroups (loc : Option Location) (hitems : ∀ n, .plain n ∈ items → n.isSingle = true)
    (hresult : ∀ r ∈ result, r.isSingle = true) :
    (∀ e, group items result loc = .error e ↔ result = none ∧
      ((items = [] ∧ e = .refused .missingReturn loc) ∨
        ∃ a, items.getLast? = some (.assign a) ∧ e = .refused .missingReturn a.loc)) ∧
    ((result.isSome ∨ endsPlain items = true) → ∃ n, group items result loc = .ok n ∧
      n.leaves = items.map Item.leaf ++ result.toList.map .node ∧ n.Grouped) := by
  have hruns := runs_items items
  rw [← hruns] at hitems
  refine ⟨fun e => ?_, fun h => ?_⟩
  · have hnil : runs items = [] ↔ items = [] := by
      cases items with
      | nil => simp [runs]
      | cons i items => simp [runs_cons, i.before_ne_nil]
    rw [group, assemble_error, hruns, hnil]
  · obtain ⟨n, hn⟩ : ∃ n, group items result loc = .ok n := by
      cases result with
      | none => exact (group_none_iff items loc).2 (by simpa using h)
      | some r => exact group_some items r loc
    have hleaves := assemble_leaves hresult hitems hn
    rw [hruns] at hleaves
    exact ⟨n, hn, hleaves, (assemble_grouped hresult hitems (runs_alternating items) hn).1⟩

/-- Two assignments between nodes, a single one before them and two behind. -/
def mixedItems : List Item :=
  [.plain (.ref none (.global "start")),
   .assign ⟨Flat.fresh 0 "x" .local_, .value none (.int 1), none⟩,
   .assign ⟨Flat.fresh 1 "y" .local_, .ref none (Flat.fresh 0 "x" .local_), none⟩,
   .plain (.ref none (.global "log")), .plain (.ref none (.global "stop"))]

/-- The second variable that is assigned among them. -/
def mixedResult : Option Node := some (.ref none (Flat.fresh 1 "y" .local_))

/-- Before a result, the items become a sequence that ends in a `let` over a sequence. -/
theorem mixedItems_regroup :
    ((∀ n, .plain n ∈ mixedItems → n.isSingle = true) ∧ ∀ r ∈ mixedResult, r.isSingle = true) ∧
    (∀ e, group mixedItems mixedResult none = .error e ↔ mixedResult = none ∧
      ((mixedItems = [] ∧ e = .refused .missingReturn none) ∨
        ∃ a, mixedItems.getLast? = some (.assign a) ∧ e = .refused .missingReturn a.loc)) ∧
    ((mixedResult.isSome ∨ endsPlain mixedItems = true) →
      ∃ n, group mixedItems mixedResult none = .ok n ∧
        n.leaves = mixedItems.map Item.leaf ++ mixedResult.toList.map .node ∧ n.Grouped) := by
  have hitems : ∀ n, .plain n ∈ mixedItems → n.isSingle = true := by
    simp [mixedItems, Node.isSingle, Node.isLet, Node.isBegin]
  have hresult : ∀ r ∈ mixedResult, r.isSingle = true := by
    simp [mixedResult, Node.isSingle, Node.isLet, Node.isBegin]
  exact ⟨⟨hitems, hresult⟩, group_regroups none hitems hresult⟩

end Hoist.Lowering
