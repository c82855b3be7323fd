import Hoist.Lowering.Closure

/-!
# Branches

The branches of a conditional become closures of no arguments; `switch` picks one, which is called at
once. The names that the branches assign are given back: one as it is, several in a tuple in the order
in which the true branch first assigns them.
-/

namespace Hoist.Lowering

open Hoist.Flat (Symbol Node Location)

/-- A call of the closure that a test selects. -/
def branchCall (test whenTrue whenFalse : Node) (loc : Option Location) : Node :=
  .apply loc (.apply loc (.ref loc Flat.switch) [test, whenTrue, whenFalse] false) [] false

/-- Names in the order of their bytes. -/
def sortedNames (names : List String) : List String :=
  names.mergeSort fun a b => Text.precedes a.toList b.toList

namespace Lower

/-- A branch on its way into a lambda: its items and its body. -/
structure Branch where
  items : List Item
  body : Body

/-- Lowers the statements of a branch. -/
def lowerBranch (tag : String) (statements : Lower (List Item)) : Lower Branch := do
  let ref ← derive (← body).dest tag
  let child ← closureBody none (some ref)
  let (items, child) ← within child statements
  return ⟨items, child⟩

/-- What a branch ends in: nothing when it returns, else the values of names, a single one bare. -/
def branchResult (branch : Branch) (returns : Bool) (names : List String)
    (loc : Option Location) : Lower (Option Node) := do
  if returns then return none
  match names with
  | [name] => return some (.ref loc (← currentIn branch.body.frame name loc))
  | _ =>
    let values ← names.mapM fun name =>
      return Node.ref loc (← currentIn branch.body.frame name loc)
    return some (.tuple loc values)

/-- The closure of a branch. -/
def buildBranch (env : Env) (branch : Branch) (result : Option Node) (loc : Option Location) :
    Lower Node := do
  let code ← ofExcept (group branch.items result loc)
  lift env branch.body [] code (code.loc.or loc)

/-- A conditional over two lowered branches. Both return or none, and both assign the same names. -/
def mergeBranches (env : Env) (loc : Option Location) (test : Node) (whenTrue whenFalse : Branch) :
    Lower (List Item) := do
  let returns := whenTrue.body.hasReturned
  if returns != whenFalse.body.hasReturned then refuse .unevenReturns loc
  let names := whenTrue.body.assigned
  if !names.isPerm whenFalse.body.assigned then
    refuse (.unevenBranches (sortedNames names) (sortedNames whenFalse.body.assigned)) loc
  if returns then modifyBody fun b => { b with hasReturned := true }
  let whenTrue ← buildBranch env whenTrue (← branchResult whenTrue returns names loc) loc
  let whenFalse ← buildBranch env whenFalse (← branchResult whenFalse returns names loc) loc
  let app := branchCall test whenTrue whenFalse loc
  if returns then return [.plain app]
  match names with
  | [] => return [.assign ⟨← issue "tmp" .local_, app, loc⟩]
  | [name] => return [← assign name app loc]
  | _ => assignAll names app loc

end Lower

end Hoist.Lowering
