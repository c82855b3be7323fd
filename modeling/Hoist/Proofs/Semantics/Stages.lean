import Hoist.Proofs.Semantics.Limits
import Hoist.Proofs.Semantics.Related

/-!
# Both languages at work

When the surface program comes first, its calls are nested so deep and those of flat code however deep;
in the other direction it is the other way round. A stage is such a pair. Comparing two calls comes
down to comparing what is called at an earlier stage. Where only one side calls, the other side stays
as it is: flat code enters the lambda of a branch, and the surface language starts a loop again.
-/

namespace Hoist

open Flat (Symbol Table callAt callLimit)
open Surface (Stmt knotAt knotLimit)

variable {α : Type}

/-- How the surface language goes on at a stage. -/
noncomputable def Direction.knot (d : Direction) (W : World α) (r : Nat) : Surface.Knot α :=
  match d with
  | .forth => knotAt W r
  | .back => knotLimit W

/-- How flat code calls at a stage. -/
noncomputable def Direction.call (d : Direction) (W : World α) (T : Table) (r : Nat) :
    Flat.Fn α → List (Flat.Val α) → Option (Flat.Val α) :=
  match d with
  | .forth => callLimit W T
  | .back => callAt W T r

namespace Follows

variable {W : World α} {T : Table} {d : Direction} {r : Nat} {β γ : Type} {ref : Symbol}
  {captured args : List (Flat.Val α)}

/-- A call on either side. -/
theorem call {R : Surface.Val α → Flat.Val α → Prop} {f : Surface.Closure α}
    {args' : List (Surface.Val α)}
    (h : ∀ r' < r, Follows d R (f.enter W (d.knot W r') args')
      ((T.find? ref).bind fun l => l.enter W T (d.call W T r') (captured ++ args))) :
    Follows d R ((d.knot W r).call f args') (d.call W T r ⟨ref, captured⟩ args) := by
  cases d with
  | forth =>
    cases r with
    | zero => exact fun v hv => nomatch hv
    | succ r =>
      rw [Direction.call, Flat.callLimit_eq]
      exact h r (Nat.lt_succ_self r)
  | back =>
    cases r with
    | zero => exact fun v hv => nomatch hv
    | succ r =>
      rw [Direction.knot, Surface.knotLimit_call]
      exact h r (Nat.lt_succ_self r)

/-- A call of flat code alone. -/
theorem enter {R : β → Flat.Val α → Prop} {o : Option β}
    (h : ∀ r' ≤ r, (d = .back → r' < r) → d.knot W r' = d.knot W r → Follows d R o
      ((T.find? ref).bind fun l => l.enter W T (d.call W T r') (captured ++ args))) :
    Follows d R o (d.call W T r ⟨ref, captured⟩ args) := by
  cases d with
  | forth =>
    rw [Direction.call, Flat.callLimit_eq]
    exact h r (Nat.le_refl r) (fun h => nomatch h) rfl
  | back =>
    cases r with
    | zero => exact fun v hv => nomatch hv
    | succ r => exact h r (Nat.le_succ r) (fun _ => Nat.lt_succ_self r) rfl

/-- Another turn of a loop of the surface language alone. -/
theorem again {R : Surface.Flow α → γ → Prop} {o : Option γ} {s : Stmt} {env : Surface.Bindings α}
    (h : ∀ r' ≤ r, (d = .forth → r' < r) → d.call W T r' = d.call W T r →
      Follows d R (Surface.exec W (d.knot W r') env s) o) :
    Follows d R ((d.knot W r).again s env) o := by
  cases d with
  | forth =>
    cases r with
    | zero => exact fun v hv => nomatch hv
    | succ r => exact h r (Nat.le_succ r) (fun _ => Nat.lt_succ_self r) rfl
  | back =>
    rw [Direction.knot, Surface.knotLimit_again]
    exact h r (Nat.le_refl r) (fun h => nomatch h) rfl

end Follows

end Hoist
