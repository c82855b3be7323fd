import Hoist.Flat.Table
import Hoist.Proofs.Semantics.Value

/-!
# The meaning of flat code

Flat code is evaluated call by value over a table. A `let` binds in order, a `begin` yields its last
value, a closure is a lambda with its first arguments. `switch` picks its second or third argument by
the truth of the first, `identity` returns its argument, all other builtins belong to the world.

Calls of lambdas go through a parameter, so that evaluation follows the node; `callAt n` allows them
to be nested `n` deep.
-/

namespace Hoist.Flat

/-- A lambda of the table or a builtin, with its first arguments. -/
inductive Fn (α : Type)
  | mk (ref : Symbol) (captured : List (Value α (Fn α)))

/-- A value of flat code. -/
abbrev Val (α : Type) := Value α (Fn α)

/-- The values of symbols, the latest first. -/
abbrev Bindings (α : Type) := List (Symbol × Val α)

variable {α : Type}

/-- The value that is bound to a symbol. -/
def Bindings.get? (ρ : Bindings α) (s : Symbol) : Option (Val α) :=
  (ρ.find? (·.1.same s)).map (·.2)

/-- Whether a symbol is a builtin. -/
def Symbol.isBuiltin (s : Symbol) : Bool := !s.isGenerated && s.space == .builtin

/-- The value of a symbol: a lambda of the table, a variable, a builtin or a global. -/
def readSymbol (W : World α) (T : Table) (ρ : Bindings α) (s : Symbol) : Option (Val α) :=
  if T.contains s then some (.fn ⟨s, []⟩)
  else match ρ.get? s with
    | some v => some v
    | none =>
      if s.isGenerated then none
      else match s.space with
        | .builtin => some (.fn ⟨s, []⟩)
        | .global_ => (W.global s.name).map Value.lift
        | .local_ => none

/-- A builtin at work. -/
def applyBuiltin (W : World α) (name : String) (vs : List (Val α)) : Option (Val α) :=
  if name = "switch" then
    match vs with
    | [c, a, b] => (W.truth c).map fun t => if t then a else b
    | _ => none
  else if name = "identity" then
    match vs with
    | [v] => some v
    | _ => none
  else W.apply name vs

/-- A call of any value. -/
def applyValue (W : World α) (call : Fn α → List (Val α) → Option (Val α)) (f : Val α)
    (args : List (Val α)) : Option (Val α) :=
  match f with
  | .fn ⟨ref, captured⟩ =>
    if ref.isBuiltin then applyBuiltin W ref.name (captured ++ args) else call ⟨ref, captured⟩ args
  | f => W.call.run (f :: args)

mutual

/-- The value of a node. -/
def eval (W : World α) (T : Table) (call : Fn α → List (Val α) → Option (Val α)) (ρ : Bindings α) :
    Node → Option (Val α)
  | .ref _ s => readSymbol W T ρ s
  | .value _ l => some (.lit l)
  | .tuple _ es => (evals W T call ρ es).map .tuple
  | .apply _ f args _ => do
    let f ← eval W T call ρ f
    let args ← evals W T call ρ args
    applyValue W call f args
  | .letIn _ bs body => do
    let ρ ← evalBindings W T call ρ bs
    eval W T call ρ body
  | .begin _ ss => do
    let vs ← evals W T call ρ ss
    vs.getLast?
  | .closure _ f args => do
    let vs ← evals W T call ρ args
    return .fn ⟨f, vs⟩

/-- The values of nodes. -/
def evals (W : World α) (T : Table) (call : Fn α → List (Val α) → Option (Val α)) (ρ : Bindings α) :
    List Node → Option (List (Val α))
  | [] => some []
  | n :: ns => do
    let v ← eval W T call ρ n
    let vs ← evals W T call ρ ns
    return v :: vs

/-- The bindings of a `let`, each made over those before it. -/
def evalBindings (W : World α) (T : Table) (call : Fn α → List (Val α) → Option (Val α))
    (ρ : Bindings α) : List (Symbol × Node) → Option (Bindings α)
  | [] => some ρ
  | (s, n) :: bs => do
    let v ← eval W T call ρ n
    evalBindings W T call ((s, v) :: ρ) bs

end

/-- A call of a lambda: its parameters are bound to the captured values and the arguments. -/
def Lambda.enter (W : World α) (T : Table) (call : Fn α → List (Val α) → Option (Val α))
    (l : Lambda) (vs : List (Val α)) : Option (Val α) :=
  if l.params.length = vs.length then eval W T call (l.params.zip vs).reverse l.body else none

/-- Calls of lambdas of a table, nested so deep. -/
def callAt (W : World α) (T : Table) : Nat → Fn α → List (Val α) → Option (Val α)
  | 0, _, _ => none
  | n + 1, ⟨ref, captured⟩, args =>
    (T.find? ref).bind fun l => l.enter W T (callAt W T n) (captured ++ args)

/-- A lambda of a table, called with values, yields a value. -/
def Table.Returns (W : World α) (T : Table) (ref : Symbol) (args : List (Value α Empty))
    (v : Value α Empty) : Prop :=
  ∃ n, callAt W T n ⟨ref, []⟩ (args.map .lift) = some v.lift

end Hoist.Flat
