import Hoist.Proofs.Semantics.Value
import Hoist.Proofs.Surface.Names

/-!
# The meaning of the surface language

Statements run in order over an environment of names. A name that is not bound denotes the global of
that name. A function is a closure over the environment at its definition; a call binds its parameters
over that. Setting an item binds the name to a sequence with that item replaced.

Calls of closures and further turns of loops go through a knot, so that evaluation follows the tree.
`knotAt n` ties the knot `n` deep; a program has a value when some depth gives it.
-/

namespace Hoist.Surface

/-- The body of a function. -/
inductive Code
  | expr (e : Expr)
  | block (b : List Stmt)

/-- A function with the environment it was made in, the latest binding first. -/
inductive Closure (α : Type)
  | mk (params : List String) (code : Code) (env : List (String × Value α (Closure α)))

/-- A value of the surface language. -/
abbrev Val (α : Type) := Value α (Closure α)

/-- The bindings of names, the latest first. -/
abbrev Bindings (α : Type) := List (String × Val α)

/-- What statements come to: they go on, with the value of the last one if it was an expression, or
they return. -/
inductive Flow (α : Type)
  | next (env : Bindings α) (last : Option (Val α))
  | back (v : Val α)

/-- Where statements go on, others follow. -/
def Flow.andThen {α : Type} (flow : Flow α) (k : Bindings α → Option (Flow α)) : Option (Flow α) :=
  match flow with
  | .next env _ => k env
  | .back v => some (.back v)

/-- How closures are called, and how a loop goes on after a turn. -/
structure Knot (α : Type) where
  call : Closure α → List (Val α) → Option (Val α)
  again : Stmt → Bindings α → Option (Flow α)

variable {α : Type}

/-- The value of a name. -/
def read (W : World α) (env : Bindings α) (name : String) : Option (Val α) :=
  (env.lookup name).or ((W.global name).map Value.lift)

/-- A call of any value. -/
def applyValue (W : World α) (K : Knot α) (f : Val α) (args : List (Val α)) : Option (Val α) :=
  match f with
  | .fn c => K.call c args
  | f => W.call.run (f :: args)

mutual

/-- The value of an expression. -/
def eval (W : World α) (K : Knot α) (env : Bindings α) : Expr → Option (Val α)
  | .name _ x => read W env x
  | .constant _ l => some (.lit l)
  | .binary _ op l r => do
    let f ← op.builtin?
    let l ← eval W K env l
    let r ← eval W K env r
    W.apply f [l, r]
  | .unary _ op x => do
    let f ← op.builtin?
    let x ← eval W K env x
    W.apply f [x]
  | .compare _ l [(op, r)] => do
    let f ← op.builtin?
    let l ← eval W K env l
    let r ← eval W K env r
    W.apply f [l, r]
  | .call _ f args [] => do
    let f ← eval W K env f
    let args ← evals W K env args
    applyValue W K f args
  | .attribute _ v name => do
    let v ← eval W K env v
    W.apply "getattr" [v, .lit (.string name)]
  | .subscript _ v i => do
    let v ← eval W K env v
    let i ← eval W K env i
    W.apply "index" [v, i]
  | .slice _ lower upper step => do
    let lower ← match lower with | some x => eval W K env x | none => some (.lit (.int 0))
    let upper ← match upper with | some x => eval W K env x | none => some (.lit .none)
    let step ← match step with | some x => eval W K env x | none => some (.lit (.int 1))
    W.apply "slice" [lower, upper, step]
  | .extSlice _ es | .tuple _ es => (evals W K env es).map .tuple
  | .lambda _ ps body => some (.fn ⟨ps.names, .expr body, env⟩)
  | _ => none

/-- The values of expressions. -/
def evals (W : World α) (K : Knot α) (env : Bindings α) : List Expr → Option (List (Val α))
  | [] => some []
  | e :: es => do
    let v ← eval W K env e
    let vs ← evals W K env es
    return v :: vs

end

/-- The value of an expression that may be missing, for which a literal stands then. -/
def evalOption (W : World α) (K : Knot α) (env : Bindings α) (e : Option Expr) (missing : Literal) :
    Option (Val α) :=
  match e with
  | some e => eval W K env e
  | none => some (.lit missing)

theorem eval_slice (W : World α) (K : Knot α) (env : Bindings α) (sp : Span)
    (a b c : Option Expr) : eval W K env (.slice sp a b c) = (do
      let lower ← evalOption W K env a (.int 0)
      let upper ← evalOption W K env b .none
      let step ← evalOption W K env c (.int 1)
      W.apply "slice" [lower, upper, step]) := by
  cases a <;> cases b <;> cases c <;> simp [eval, evalOption]

mutual

/-- A statement at work. -/
def exec (W : World α) (K : Knot α) (env : Bindings α) : Stmt → Option (Flow α)
  | .expr _ e => do
    let v ← eval W K env e
    return .next env (some v)
  | .assign _ [.name _ x] e => do
    let v ← eval W K env e
    return .next ((x, v) :: env) none
  | .assign _ [.subscript _ (.name _ x) i] e => do
    let v ← eval W K env e
    let o ← read W env x
    let i ← eval W K env i
    let r ← W.apply "setslice" [o, i, v]
    return .next ((x, r) :: env) none
  | .augAssign _ (.name _ x) op e => do
    let f ← op.builtin?
    let o ← read W env x
    let v ← eval W K env e
    let r ← W.apply f [o, v]
    return .next ((x, r) :: env) none
  | .functionDef _ f ps b _ => some (.next ((f, .fn ⟨ps.names, .block b, env⟩) :: env) none)
  | .returnValue _ none => some (.back (.lit .none))
  | .returnValue _ (some e) => do
    let v ← eval W K env e
    return .back v
  | .ifElse _ test b o => do
    let t ← eval W K env test
    let t ← W.truth t
    let flow ← if t then execBlock W K env none b else execBlock W K env none o
    flow.andThen fun env => some (.next env none)
  | .whileLoop s test b [] => do
    let t ← eval W K env test
    let t ← W.truth t
    if t then
      let flow ← execBlock W K env none b
      flow.andThen (K.again (.whileLoop s test b []))
    else return .next env none
  | _ => none

/-- Statements at work, one after the other, behind one with a value if it was an expression. -/
def execBlock (W : World α) (K : Knot α) (env : Bindings α) (last : Option (Val α)) :
    List Stmt → Option (Flow α)
  | [] => some (.next env last)
  | s :: ss => do
    match ← exec W K env s with
    | .next env last => execBlock W K env last ss
    | .back v => return .back v

end

/-- The value of a function body. A block that does not return yields its last expression. -/
def Code.run (W : World α) (K : Knot α) (env : Bindings α) : Code → Option (Val α)
  | .expr e => eval W K env e
  | .block b => do
    match ← execBlock W K env none b with
    | .next _ last => last
    | .back v => return v

/-- A call of a closure: its parameters are bound over its environment, a later one over an earlier
one of its name. -/
def Closure.enter (W : World α) (K : Knot α) : Closure α → List (Val α) → Option (Val α)
  | ⟨params, code, env⟩, args =>
    if params.length = args.length then code.run W K ((params.zip args).reverse ++ env) else none

/-- The knot tied so many times. -/
def knotAt (W : World α) : Nat → Knot α
  | 0 => ⟨fun _ _ => none, fun _ _ => none⟩
  | n + 1 => ⟨Closure.enter W (knotAt W n), fun s env => exec W (knotAt W n) env s⟩

/-- The function of a module that holds nothing else. -/
def Module.function? (m : Module) : Option (Closure α) :=
  match m.body with
  | [.functionDef _ _ ps b _] => some ⟨ps.names, .block b, []⟩
  | _ => none

/-- The function of a module, called with values, yields a value. -/
def Module.Returns (W : World α) (m : Module) (args : List (Value α Empty)) (v : Value α Empty) :
    Prop :=
  ∃ f, m.function? = some f ∧ ∃ n, (knotAt W n).call f (args.map .lift) = some v.lift

end Hoist.Surface
