import Hoist.Lowering.Branch

/-!
# Loops

A loop becomes two lambdas over the variables it reads or writes:

- `loop` selects by the test between `continue` and the values of the written variables;
- `continue` runs the body and calls `loop` with the values after it.

Which variables these are is found by a dry run: test and body are lowered once into a scratch table.
The loop is then called with the current values, and the tuple it yields is unpacked.
-/

namespace Hoist.Lowering

open Hoist.Flat (Symbol Node Location)

/-- What is said of a return inside a loop. -/
def returnInLoop : String := "'return' is not allowed inside a while loop."

/-- The variables of a loop: those it takes, and those it gives back. -/
structure LoopVariables where
  taken : List String
  given : List String
deriving Repr, DecidableEq

namespace Lower

/-- The variables of a loop, by a dry run that defines nothing in the unit: the free ones in the order
they are met, then the assigned ones that are not among them. -/
def dryRun (test : Lower Node) (statements : Lower (List Item)) : Lower LoopVariables := do
  let child ← childBody none false (some returnInLoop)
  let (_, child) ← inScratch <| within child do
    let _ ← test
    let _ ← statements
  let free := child.free.map (·.1)
  return ⟨free ++ child.assigned.filter (!free.contains ·), child.assigned⟩

/-- References to the symbols that names are bound to now. -/
def currents (loc : Option Location) : List String → Lower (List Node)
  | [] => return []
  | n :: ns => do
    let s ← current n loc
    return .ref loc s :: (← currents loc ns)

/-- What is lowered inside the body of a loop: its parameters, the values of a loop that never runs,
the test, and the code of the body, which ends in the next turn. -/
structure LoopParts where
  formals : List Symbol
  exits : List Node
  test : Node
  code : Node

/-- Lowers the inside of a loop. The exit values are taken before the body binds its names anew. -/
def lowerInside (ref : Symbol) (vars : LoopVariables) (test : Lower Node)
    (statements : Lower (List Item)) (loc : Option Location) : Lower LoopParts := do
  let formals ← bindFreshAll vars.taken
  let exits ← currents loc vars.given
  let test ← test
  let items ← statements
  let updated ← readNames loc vars.taken
  let code ← ofExcept (group items (some (.apply loc (.ref loc ref) updated false)) loc)
  return ⟨formals, exits, test, code⟩

/-- A loop without an else block. -/
def lowerLoop (env : Env) (loc : Option Location) (test : Lower Node)
    (statements : Lower (List Item)) : Lower (List Item) := do
  let vars ← dryRun test statements
  let _ ← currents loc vars.given
  let initial ← readNames loc vars.taken
  let loopRef ← derive (← body).dest "loop"
  let continueRef ← derive (← body).dest "continue"
  let child ← childBody (some loopRef) false (some returnInLoop)
  let (parts, _) ← within child (lowerInside loopRef vars test statements loc)
  define env continueRef parts.formals parts.code loc
  let goOn := Node.closure loc continueRef (parts.formals.map (.ref loc))
  let stop := Node.closure loc Flat.identity [.tuple loc parts.exits]
  define env loopRef parts.formals (branchCall parts.test goOn stop loc) loc
  assignAll vars.given (.apply loc (.ref loc loopRef) initial false) loc

end Lower

end Hoist.Lowering
