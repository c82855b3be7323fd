import Hoist.Proofs.Lowering.Aftermath
import Hoist.Proofs.Lowering.Entry

/-!
# The states that lowering comes to

Lowering goes from state to state in a few ways: it issues symbols, binds and reads names, comes back
from a tree, and turns to an inner body, be it that of a function, of a branch, of a dry run or of a
loop. Whatever the module, a body is lowered only in states that these ways lead to from the root, and
all of them are valid.
-/

namespace Hoist.Lowering

open Hoist.Flat (Symbol Node Location Space Table Lambda)
open Hoist.Surface (Expr Stmt)

/-- The states of the bodies that are lowered in a unit. The way back from a tree is the step of its
lowering, whatever the tree. -/
inductive Reached (env : Env) : State → Prop
  /-- The root of a unit whose table, if it is shared, was filled under the same count of symbols. -/
  | unit {opts : Options} {log : String}
      (named : ∀ l ∈ opts.table.lambdas, l.ref.token ≤ opts.issued)
      (distinct : opts.table.lambdas.Pairwise fun l m => l.ref.same m.ref = false) :
      Reached env (rootState opts log)
  | issue {s : State} (hs : Reached env s) : Reached env s.issuing
  | bind {s t : State} {x : String} {a : Symbol} (hs : Reached env s)
      (h : Yields (Lower.bindFresh x) s a t) : Reached env t
  | read {s t : State} {x : String} {loc : Option Location} {n : Node} (hs : Reached env s)
      (h : Yields (Lower.readName x loc) s n t) : Reached env t
  /-- A return is noted before its value is lowered. -/
  | returning {s : State} (hs : Reached env s) : Reached env (s.returning true)
  | expr {s t : State} {e : Expr} {n : Node} (hs : Reached env s)
      (h : Yields (Lower.lowerExpr env e) s n t) : Reached env t
  | stmt {s t : State} {st : Stmt} {items : List Item} (hs : Reached env s)
      (inside : s.body.topLevel = false) (h : Yields (Lower.lowerStmt env st false) s items t) :
      Reached env t
  /-- Back from a branch, before it is built. -/
  | branched {s t : State} {tag : String} {b : List Stmt} {branch : Lower.Branch}
      (hs : Reached env s) (h : Yields (Lower.lowerBranch tag (Lower.lowerBlock env b)) s branch t) :
      Reached env t
  | explored {s t : State} {c : Expr} {b : List Stmt} {vars : LoopVariables} (hs : Reached env s)
      (h : Yields (Lower.dryRun (Lower.lowerExpr env c) (Lower.lowerBlock env b)) s vars t) :
      Reached env t
  /-- Inside a branch, which inherits what is said of returns. -/
  | branch {s t : State} {ref : Symbol} {child : Body} (hs : Reached env s)
      (href : ref.token ≤ s.issued) (h : Yields (Lower.closureBody none (some ref)) s child t) :
      Reached env (t.resume child)
  /-- Inside a function, named or not, where returns are allowed. -/
  | function {s t : State} {name : Option String} {ref : Symbol} {child : Body}
      (hs : Reached env s) (href : ref.token ≤ s.issued)
      (h : Yields (Lower.closureBody name (some ref)) s child t) :
      Reached env (t.resume { child with returnError := none })
  /-- Inside a dry run, over a table of its own. -/
  | dryRun {s t : State} {child : Body} (hs : Reached env s)
      (h : Yields (Lower.childBody none false (some returnInLoop)) s child t) :
      Reached env (t.scratch.resume child)
  /-- Inside a loop, in the real pass. -/
  | turn {s t : State} {ref : Symbol} {child : Body} (hs : Reached env s)
      (h : Yields (Lower.childBody (some ref) false (some returnInLoop)) s child t) :
      Reached env (t.resume child)

/-- A unit without a text. -/
def plainEnv : Env where
  source := ⟨0, "test.py", 1, []⟩

section Bodies

variable {s t : State} {child : Body}

theorem childBody_valid {dest : Option Symbol} {err : Option String} {pulling : Bool}
    (hs : Valid s) (h : Yields (Lower.childBody dest pulling err) s child t) :
    Valid (t.resume child) := by
  cases dest with
  | some ref =>
    obtain ⟨u, ho, hu⟩ := childBody_opens hs ref pulling err
    obtain ⟨rfl, rfl⟩ := hu.unique h
    exact ho.valid hs
  | none =>
    obtain ⟨u, ho, hu⟩ := childBody_fresh_opens hs pulling err
    obtain ⟨rfl, rfl⟩ := hu.unique h
    exact ho.valid hs

theorem closureBody_valid {name : Option String} {ref : Symbol} (hs : Valid s)
    (href : ref.token ≤ s.issued) (h : Yields (Lower.closureBody name (some ref)) s child t) :
    Valid (t.resume child) := by
  obtain ⟨u, ho, hu⟩ := closureBody_opens hs ref href name s.body.returnError
  obtain ⟨rfl, rfl⟩ := hu.unique h
  have hbody : ({ u.body with returnError := s.body.returnError } : Body) = u.body := by rw [ho.body]
  rw [hbody]
  exact ho.valid hs

theorem Valid.returnError (hs : Valid (t.resume child)) (err : Option String) :
    Valid (t.resume { child with returnError := err }) :=
  { hs with }

end Bodies

/-- Every state that lowering comes to is valid. -/
theorem Reached.valid {env : Env} {s : State} (hx : env.expansions = []) (h : Reached env s) :
    Valid s := by
  induction h with
  | unit named distinct => exact rootState_valid _ named distinct
  | issue hs ih => exact (issued_reads ih).valid
  | bind hs h ih => exact (bindFresh_effect ih h).valid
  | read hs h ih => exact (readName_reads ih h).valid
  | returning hs ih => exact (returning_effect ih true).valid
  | expr hs h ih => exact (lowerExpr_reads hx _ ih h).valid
  | stmt hs inside h ih => exact (lowerStmt_acts hx _ false ih inside h).valid
  | branched hs h ih => exact (lowerBranch_reads ih (lowerBlock_acts hx _) h).1.valid
  | explored hs h ih => exact (dryRun_reads ih (lowerExpr_acts hx _) (lowerBlock_acts hx _) h).1.valid
  | branch hs href h ih => exact closureBody_valid ih href h
  | function hs href h ih => exact (closureBody_valid ih href h).returnError none
  | dryRun hs h ih => exact (childBody_valid ih h).scratch
  | turn hs h ih => exact childBody_valid ih h

end Hoist.Lowering
