import Hoist.Surface.Tree
import Mathlib.Tactic.Common

/-!
# The names of a tree

What a piece of a tree does to names can be told from the tree alone: which names it reads from
outside, which it assigns, which it declares for the statements behind it, and whether it returns.
Lowering computes all of this as it goes; the functions here say what it will find.
-/

namespace Hoist.Surface

/-- The names that parameters bind. -/
def Params.names {ε : Type} (ps : Params ε) : List String := ps.positional.map (·.name)

namespace Expr

/-- Expressions that flat code has no place for. -/
def isForeign : Expr → Bool
  | .boolean .. | .list .. | .dict .. | .conditional .. | .listComp .. | .starred .. | .yield .. => true
  | _ => false

/-- Induction along the expressions that can be lowered. -/
theorem ind {P : Expr → Prop}
    (name : ∀ s x, P (.name s x))
    (constant : ∀ s v, P (.constant s v))
    (binary : ∀ s op l r, P l → P r → P (.binary s op l r))
    (unary : ∀ s op x, P x → P (.unary s op x))
    (compare : ∀ s l op r, P l → P r → P (.compare s l [(op, r)]))
    (chain : ∀ s l rest, rest.length ≠ 1 → P (.compare s l rest))
    (call : ∀ s f args ks, P f → (∀ e ∈ args, P e) → P (.call s f args ks))
    (attr : ∀ s v a, P v → P (.attribute s v a))
    (subscript : ∀ s v i, P v → P i → P (.subscript s v i))
    (slice : ∀ s a b c, (∀ e ∈ a, P e) → (∀ e ∈ b, P e) → (∀ e ∈ c, P e) → P (.slice s a b c))
    (extSlice : ∀ s es, (∀ e ∈ es, P e) → P (.extSlice s es))
    (tuple : ∀ s es, (∀ e ∈ es, P e) → P (.tuple s es))
    (lambda : ∀ s ps b, P b → P (.lambda s ps b))
    (foreign : ∀ e, e.isForeign = true → P e) (e : Expr) : P e := by
  have go := fun x (_ : sizeOf x < sizeOf e) => ind name constant binary unary compare chain call
    attr subscript slice extSlice tuple lambda foreign x
  have goAll : ∀ es : List Expr, sizeOf es < sizeOf e → ∀ x ∈ es, P x := by
    intro es hes x hx
    have := List.sizeOf_lt_of_mem hx
    exact go x (by omega)
  have goOpt : ∀ o : Option Expr, sizeOf o < sizeOf e → ∀ x ∈ o, P x := by
    intro o ho x hx
    subst hx
    exact go x (by simp only [Option.some.sizeOf_spec] at ho; omega)
  match e, go, goAll, goOpt with
  | .name s x, _, _, _ => exact name s x
  | .constant s v, _, _, _ => exact constant s v
  | .binary s op l r, go, _, _ =>
    exact binary s op l r (go l (by simp +arith)) (go r (by simp +arith))
  | .unary s op x, go, _, _ => exact unary s op x (go x (by simp +arith))
  | .compare s l [(op, r)], go, _, _ =>
    exact compare s l op r (go l (by simp +arith)) (go r (by simp +arith))
  | .compare s l [], _, _, _ => exact chain s l _ (by simp)
  | .compare s l (_ :: _ :: _), _, _, _ => exact chain s l _ (by simp)
  | .call s f args ks, go, goAll, _ =>
    exact call s f args ks (go f (by simp +arith)) (goAll args (by simp +arith))
  | .attribute s v a, go, _, _ => exact attr s v a (go v (by simp +arith))
  | .subscript s v i, go, _, _ =>
    exact subscript s v i (go v (by simp +arith)) (go i (by simp +arith))
  | .slice s a b c, _, _, goOpt =>
    exact slice s a b c (goOpt a (by simp +arith)) (goOpt b (by simp +arith))
      (goOpt c (by simp +arith))
  | .extSlice s es, _, goAll, _ => exact extSlice s es (goAll es (by simp +arith))
  | .tuple s es, _, goAll, _ => exact tuple s es (goAll es (by simp +arith))
  | .lambda s ps b, go, _, _ => exact lambda s ps b (go b (by simp +arith))
  | .boolean .., _, _, _ | .list .., _, _, _ | .dict .., _, _, _ | .conditional .., _, _, _
  | .listComp .., _, _, _ | .starred .., _, _, _ | .yield .., _, _, _ => exact foreign _ rfl
termination_by sizeOf e

end Expr

mutual

/-- The names that an expression reads, in order; a name is listed as often as it is read. -/
def Expr.reads : Expr → List String
  | .name _ x => [x]
  | .binary _ _ l r => l.reads ++ r.reads
  | .unary _ _ x => x.reads
  | .compare _ l [(_, r)] => l.reads ++ r.reads
  | .call _ f args _ => allReads args ++ f.reads
  | .attribute _ v _ => v.reads
  | .subscript _ v i => v.reads ++ i.reads
  | .slice _ a b c => optReads a ++ optReads b ++ optReads c
  | .extSlice _ es | .tuple _ es => allReads es
  | .lambda _ ps b => b.reads.filter (!ps.names.contains ·)
  | _ => []

/-- The names that expressions read. -/
def allReads : List Expr → List String
  | [] => []
  | e :: es => e.reads ++ allReads es

/-- The names that an expression reads, if there is one. -/
def optReads : Option Expr → List String
  | none => []
  | some e => e.reads

end

namespace Stmt

/-- Statements that flat code has no place for. -/
def isForeign : Stmt → Bool
  | .forLoop .. | .tryExcept .. | .raise .. | .breakLoop .. | .continueLoop .. | .pass ..
  | .scopeDecl .. => true
  | _ => false

/-- Induction along the statements that can be lowered. -/
theorem ind {P : Stmt → Prop}
    (expr : ∀ s v, P (.expr s v))
    (assign : ∀ s ts v, P (.assign s ts v))
    (augAssign : ∀ s t op v, P (.augAssign s t op v))
    (functionDef : ∀ s f ps b ds, (∀ x ∈ b, P x) → P (.functionDef s f ps b ds))
    (returnValue : ∀ s v, P (.returnValue s v))
    (ifElse : ∀ s t b o, (∀ x ∈ b, P x) → (∀ x ∈ o, P x) → P (.ifElse s t b o))
    (whileLoop : ∀ s t b o, (∀ x ∈ b, P x) → P (.whileLoop s t b o))
    (foreign : ∀ s, s.isForeign = true → P s) (s : Stmt) : P s := by
  have go := fun x (_ : sizeOf x < sizeOf s) =>
    ind expr assign augAssign functionDef returnValue ifElse whileLoop foreign x
  have goAll : ∀ b : List Stmt, sizeOf b < sizeOf s → ∀ x ∈ b, P x := by
    intro b hb x hx
    have := List.sizeOf_lt_of_mem hx
    exact go x (by omega)
  cases s with
  | expr s v => exact expr s v
  | assign s ts v => exact assign s ts v
  | augAssign s t op v => exact augAssign s t op v
  | functionDef s f ps b ds => exact functionDef s f ps b ds (goAll b (by simp +arith))
  | returnValue s v => exact returnValue s v
  | ifElse s t b o => exact ifElse s t b o (goAll b (by simp +arith)) (goAll o (by simp +arith))
  | whileLoop s t b o => exact whileLoop s t b o (goAll b (by simp +arith))
  | forLoop s t i b o => exact foreign _ rfl
  | tryExcept s b hs o f => exact foreign _ rfl
  | raise s e => exact foreign _ rfl
  | breakLoop s => exact foreign _ rfl
  | continueLoop s => exact foreign _ rfl
  | pass s => exact foreign _ rfl
  | scopeDecl s n ns => exact foreign _ rfl
termination_by sizeOf s

end Stmt

mutual

/-- Whether a statement returns on every path: a return does, and a conditional does if its branches
do. -/
def Stmt.returns : Stmt → Bool
  | .returnValue .. => true
  | .ifElse _ _ b _ => blockReturns b
  | _ => false

/-- Whether one of some statements returns on every path. -/
def blockReturns : List Stmt → Bool
  | [] => false
  | s :: ss => s.returns || blockReturns ss

end

mutual

/-- The names that a statement assigns for the statements behind it, in order. A conditional that
returns assigns none: nothing is behind it. -/
def Stmt.assigns : Stmt → List String
  | .assign _ [.name _ x] _ => [x]
  | .assign _ [.subscript _ (.name _ x) _] _ => [x]
  | .augAssign _ (.name _ x) _ _ => [x]
  | .ifElse _ _ b _ => if blockReturns b then [] else blockAssigns b
  | .whileLoop _ _ b _ => blockAssigns b
  | _ => []

/-- The names that statements assign. -/
def blockAssigns : List Stmt → List String
  | [] => []
  | s :: ss => s.assigns ++ blockAssigns ss

end

/-- The names that a statement declares for the statements behind it. -/
def Stmt.declares : Stmt → List String
  | .functionDef _ f _ _ _ => [f]
  | s => s.assigns

/-- The names that statements declare for those behind them. -/
def blockDeclares (b : List Stmt) : List String := b.flatMap Stmt.declares

mutual

/-- The names that a statement reads before it binds them itself, in order. A loop also reads what it
assigns: its turns pass the values on. -/
def Stmt.reads : Stmt → List String
  | .expr _ v => v.reads
  | .assign _ [.name _ _] v => v.reads
  | .assign _ [.subscript _ (.name _ x) i] v => v.reads ++ x :: i.reads
  | .augAssign _ (.name _ x) _ v => v.reads ++ [x]
  | .functionDef _ f ps b _ => (blockReads b).filter (!(f :: ps.names).contains ·)
  | .returnValue _ v => optReads v
  | .ifElse _ t b o => t.reads ++ blockReads b ++ blockReads o
  | .whileLoop _ t b _ => t.reads ++ blockReads b ++ blockAssigns b
  | _ => []

/-- The names that statements read before they bind them themselves. -/
def blockReads : List Stmt → List String
  | [] => []
  | s :: ss => s.reads ++ (blockReads ss).filter (!s.declares.contains ·)

end

end Hoist.Surface
