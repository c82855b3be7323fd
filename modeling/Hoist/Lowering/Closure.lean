import Hoist.Lowering.State

/-!
# Closures

A function inside another one is lifted into a lambda of its own. The variables it reads from outside,
in the order it met them, are the first parameters of the lambda, and a closure passes their values.
To pass them, the enclosing body reads them, which may make them free there in turn: captures thread
outwards.
-/

namespace Hoist.Lowering

open Hoist.Flat (Symbol Node Location)

namespace Lower

/-- A body for a closure. It sees its own name as the bare lambda, so a call of itself passes no
captured values. -/
def closureBody (name : Option String) (ref : Option Symbol) : Lower Body := do
  let ref ← match ref with
    | some r => pure r
    | none => issue (name.getD "lambda") .global_
  let child ← childBody (some ref) true (← body).returnError
  match name with
  | some n => bind child.frame n ref
  | none => pure ()
  return child

/-- Reads of names, one after the other. -/
def readNames (loc : Option Location) : List String → Lower (List Node)
  | [] => return []
  | n :: ns => do
    let v ← readName n loc
    return v :: (← readNames loc ns)

/-- Defines the lambda of a body and refers to it, with the captured values if there are any. -/
def lift (env : Env) (child : Body) (formals : List Symbol) (code : Node)
    (loc : Option Location) : Lower Node := do
  let captured ← readNames loc (child.free.map (·.1))
  define env child.dest (child.free.map (·.2) ++ formals) code loc
  if captured.isEmpty then return .ref loc child.dest
  return .closure loc child.dest captured

/-- Fresh variables for names. -/
def bindFreshAll : List String → Lower (List Symbol)
  | [] => return []
  | n :: ns => do
    let s ← bindFresh n
    return s :: (← bindFreshAll ns)

/-- The closure of a function with parameters and a body. A return inside belongs to the function, so
it is allowed there. -/
def lowerClosure (env : Env) (params : Surface.Params Surface.Expr) (code : Lower Node)
    (loc : Option Location) (name : Option String) (ref : Option Symbol) : Lower Node := do
  let child ← closureBody name ref
  let ((formals, code), child) ← within { child with returnError := none } do
    let formals ← bindFreshAll (params.positional.map (·.name))
    return (formals, ← code)
  lift env child formals code loc

/-- Refuses the kinds of parameters that lambdas of the table do not have. -/
def requirePositional (params : Surface.Params Surface.Expr) (loc : Option Location) : Lower Unit := do
  if params.vararg?.isSome || params.kwarg?.isSome then refuse .varargs loc
  if !params.keywordOnly.isEmpty then refuse .keywordOnly loc
  if !params.defaults.isEmpty || !params.keywordDefaults.isEmpty then
    refuse .defaultArguments loc

end Lower

end Hoist.Lowering
