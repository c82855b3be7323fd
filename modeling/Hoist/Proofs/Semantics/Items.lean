import Hoist.Proofs.Lowering.Grouped
import Hoist.Proofs.Semantics.Flat

/-!
# Items at work

The items of a body run one after the other: an assignment binds a symbol, a node has a value. The
code that groups them yields the same: the result of the body if it has one, else the value of the
last item.
-/

namespace Hoist.Flat

open Hoist.Lowering (Item Assignment Run assemble group assemble_binds assemble_nodes
  runs_items)

variable {α : Type} {W : World α} {T : Table} {call : Fn α → List (Val α) → Option (Val α)}
  {ρ : Bindings α} {last : Option (Val α)}

/-- Items at work: the bindings behind them, and the value of the last one if it is a node. -/
def runItems (W : World α) (T : Table) (call : Fn α → List (Val α) → Option (Val α))
    (ρ : Bindings α) (last : Option (Val α)) : List Item → Option (Bindings α × Option (Val α))
  | [] => some (ρ, last)
  | .assign a :: is => do
    let v ← eval W T call ρ a.value
    runItems W T call ((a.var, v) :: ρ) none is
  | .plain n :: is => do
    let v ← eval W T call ρ n
    runItems W T call ρ (some v) is

theorem runItems_append (is js : List Item) : runItems W T call ρ last (is ++ js) =
    runItems W T call ρ last is >>= fun p => runItems W T call p.1 p.2 js := by
  induction is generalizing ρ last with
  | nil => rfl
  | cons i is ih => cases i <;> simp only [List.cons_append, runItems, ih, bind_assoc]

theorem runItems_assigns (a : Assignment) (as : List Assignment) :
    runItems W T call ρ last ((a :: as).map .assign) =
      evalBindings W T call ρ ((a :: as).map Assignment.binding) >>= fun ρ' => pure (ρ', none) := by
  induction as generalizing a ρ last with
  | nil =>
    simp only [List.map_cons, List.map_nil, runItems, Assignment.binding, evalBindings, bind_assoc]
    rfl
  | cons b as ih =>
    rw [List.map_cons, runItems]
    simp only [ih]
    simp only [List.map_cons, Assignment.binding, evalBindings, bind_assoc]

theorem evals_append (ns ms : List Node) : evals W T call ρ (ns ++ ms) = (do
    let vs ← evals W T call ρ ns
    let ws ← evals W T call ρ ms
    return vs ++ ws) := by
  induction ns with
  | nil => simp [evals]
  | cons n ns ih => simp only [List.cons_append, evals, ih, bind_assoc, pure_bind]

theorem runItems_plains (n : Node) (ns : List Node) :
    runItems W T call ρ last ((n :: ns).map .plain) =
      evals W T call ρ (n :: ns) >>= fun vs => pure (ρ, vs.getLast?) := by
  induction ns generalizing n last with
  | nil => simp only [List.map_cons, List.map_nil, runItems, evals, bind_assoc, pure_bind]; rfl
  | cons m ns ih =>
    rw [List.map_cons, runItems]
    simp only [ih, evals, bind_assoc, pure_bind, List.getLast?_cons_cons]

theorem eval_sequence (n : Node) (ns : List Node) : eval W T call ρ (Lowering.sequence n ns) =
    evals W T call ρ (n :: ns) >>= List.getLast? := by
  unfold Lowering.sequence
  split
  · simp only [evals, bind_assoc, pure_bind]
    exact (bind_pure _).symm
  · simp only [eval]

/-- What a body comes to behind its items: its result if it has one, else the last value. -/
def finish (W : World α) (T : Table) (call : Fn α → List (Val α) → Option (Val α))
    (result : Option Node) (p : Bindings α × Option (Val α)) : Option (Val α) :=
  match result with
  | some r => eval W T call p.1 r
  | none => p.2

theorem eval_assemble {rs : List Run} {result : Option Node} {loc : Option Location} {n : Node}
    (h : assemble result loc rs = .ok n) : eval W T call ρ n =
      runItems W T call ρ last (rs.flatMap Run.items) >>= finish W T call result := by
  induction rs generalizing n ρ last with
  | nil =>
    cases result with
    | none => simp [assemble] at h
    | some r =>
      simp only [assemble, Except.ok.injEq] at h
      subst h
      rfl
  | cons run rs ih =>
    rw [List.flatMap_cons, runItems_append, bind_assoc]
    cases run with
    | binds a as =>
      obtain ⟨-, body, hbody, rfl⟩ := assemble_binds h
      rw [Run.items, runItems_assigns, eval, bind_assoc]
      exact congrArg _ (funext fun ρ' => ih hbody)
    | nodes m ms =>
      rw [Run.items, runItems_plains, bind_assoc]
      rcases assemble_nodes h with ⟨rfl, rfl, rfl⟩ | ⟨body, hbody, rfl⟩
      · rw [eval_sequence]
        rfl
      · rw [eval_sequence, ← List.cons_append, evals_append, bind_assoc]
        refine congrArg _ (funext fun vs => ?_)
        rw [pure_bind, ← ih hbody]
        simp only [evals, bind_assoc, pure_bind, List.getLast?_append]
        exact bind_pure _

/-- The code of grouped items yields what the items yield. -/
theorem eval_group {items : List Item} {result : Option Node} {loc : Option Location} {n : Node}
    (h : group items result loc = .ok n) : eval W T call ρ n =
      runItems W T call ρ none items >>= finish W T call result := by
  rw [eval_assemble h, runs_items]

end Hoist.Flat
