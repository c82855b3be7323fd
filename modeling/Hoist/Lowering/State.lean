import Hoist.Flat.Table
import Hoist.Lowering.Grouping
import Hoist.Lowering.Scope
import Hoist.Surface.Tree

/-!
# The state of lowering

Lowering goes through a unit body by body. All bodies share the symbols issued, the scopes, the table
and the log; each has a frame, the name of its lambda, and what it has met so far: the free variables
it reads and the names it assigns, both in the order of their first encounter.

What was done before a failure stays done: the state goes on behind it.
-/

namespace Hoist.Lowering

open Hoist.Flat (Symbol Node Location Source Table Space)

/-- What a call is replaced by: made of its arguments, or nothing. -/
abbrev Expansion := List Node → Option Node

/-- What does not change in a unit. -/
structure Env where
  source : Source
  /-- The calls that are replaced, by the name that is called. -/
  expansions : List (String × Expansion) := []
  /-- Whether every definition is logged. -/
  verbose : Bool := false

/-- The place of a span. -/
def Env.locate (env : Env) (span : Surface.Span) : Option Location :=
  env.source.locate? span.start

/-- A body on its way into a lambda. -/
structure Body where
  frame : Nat
  /-- The lambda that is being built. -/
  dest : Symbol
  /-- Whether a free variable gets a local name, which is to be a parameter of the lambda. -/
  pulling : Bool
  topLevel : Bool
  /-- What is said of a return, where returns are forbidden. -/
  returnError : Option String
  hasReturned : Bool
  /-- The free variables met so far, and the symbols they are read by. -/
  free : List (String × Symbol)
  /-- The names assigned so far. -/
  assigned : List String
deriving Repr, Inhabited

/-- What all bodies share, and the body that is being lowered. -/
structure State where
  issued : Nat
  scopes : Scopes
  table : Table
  /-- Whether definitions reach the table of the unit. -/
  commits : Bool
  log : String
  body : Body

/-- A step of lowering. -/
abbrev Lower := EStateM Failure State

namespace Lower

/-- A result that is known already. -/
def ofExcept {α : Type} : Except Failure α → Lower α
  | .ok a => pure a
  | .error e => throw e

/-- Refuses a piece of text. -/
def refuse {α : Type} (cause : Cause) (loc : Option Location) : Lower α :=
  throw (.refused cause loc)

/-- The body that is being lowered. -/
def body : Lower Body := return (← get).body

/-- Changes the body that is being lowered. -/
def modifyBody (f : Body → Body) : Lower Unit := modify fun s => { s with body := f s.body }

/-- A fresh symbol. -/
def issue (name : String) (space : Space) : Lower Symbol := do
  let s ← get
  set { s with issued := s.issued + 1 }
  return Flat.fresh s.issued name space

/-- A fresh symbol for a part of what another one stands for. -/
def derive (parent : Symbol) (tag : String) : Lower Symbol := do
  let s ← get
  set { s with issued := s.issued + 1 }
  return Flat.derived s.issued parent tag

/-- Binds a name in a frame. -/
def bind (frame : Nat) (name : String) (sym : Symbol) : Lower Unit := do
  let s ← get
  let scopes ← ofExcept (s.scopes.bind frame name sym)
  set { s with scopes := scopes }

/-- A fresh local variable under a name. -/
def bindFresh (name : String) : Lower Symbol := do
  let sym ← issue name .local_
  bind (← body).frame name sym
  return sym

/-- Notes that a free variable is read by a symbol; a later note replaces an earlier one. -/
def noteFree (name : String) (sym : Symbol) : Lower Unit :=
  modifyBody fun b =>
    { b with free :=
        if b.free.any (·.1 == name) then
          b.free.map fun p => if p.1 == name then (name, sym) else p
        else b.free ++ [(name, sym)] }

/-- The name as the current frame sees it. -/
def find (name : String) : Lower (Option Resolution) := do
  let s ← get
  ofExcept (s.scopes.find s.body.frame name)

/-- A read of a name: a local, a free variable, which a pulling body gives a local name of its own, or
a global. -/
def readName (name : String) (loc : Option Location) : Lower Node := do
  match ← find name with
  | none => return .ref loc (.global name)
  | some ⟨false, sym⟩ => return .ref loc sym
  | some ⟨true, sym⟩ =>
    let sym ← if (← body).pulling then bindFresh name else pure sym
    noteFree name sym
    return .ref loc sym

/-- The symbol that a name is bound to now, as a frame sees it. -/
def currentIn (frame : Nat) (name : String) (loc : Option Location) : Lower Symbol := do
  return (← ofExcept ((← get).scopes.lookup frame name loc)).sym

/-- The symbol that a name is bound to now. -/
def current (name : String) (loc : Option Location) : Lower Symbol := do
  currentIn (← body).frame name loc

/-- An assignment of a value to a name. -/
def assign (name : String) (value : Node) (loc : Option Location) : Lower Item := do
  let sym ← bindFresh name
  modifyBody fun b =>
    if b.assigned.contains name then b else { b with assigned := b.assigned ++ [name] }
  return .assign ⟨sym, value, loc⟩

/-- The projection of a tuple to one of its items. -/
def projection (tuple : Symbol) (i : Nat) (loc : Option Location) : Node :=
  .apply loc (.ref loc Flat.index)
    [.ref loc tuple, .value none (.int (Int64.ofNat i))] true

/-- Assigns the items of a tuple to names, the first item having a given index. -/
def assignItems (tuple : Symbol) (loc : Option Location) : Nat → List String → Lower (List Item)
  | _, [] => return []
  | i, name :: names => do
    let item ← assign name (projection tuple i loc) loc
    return item :: (← assignItems tuple loc (i + 1) names)

/-- Assigns a tuple to a fresh variable and its items to names. -/
def assignAll (names : List String) (value : Node) (loc : Option Location) :
    Lower (List Item) := do
  let tuple ← issue "tmp" .local_
  return .assign ⟨tuple, value, loc⟩ :: (← assignItems tuple loc 0 names)

/-- Adds a line to the log of a verbose unit. -/
def logDefinition (env : Env) (what : String) (sym : Symbol) : Lower Unit := do
  if env.verbose then
    modify fun s =>
      { s with log := s.log ++ Report.styled .note (what ++ " " ++ sym.write) }

/-- Defines a lambda, whose name must be new, and logs it. -/
def define (env : Env) (ref : Symbol) (params : List Symbol) (body : Node)
    (loc : Option Location) : Lower Unit := do
  let s ← get
  match s.table.define? ⟨ref, params, body, loc⟩ with
  | none => throw (.redefinition ref.write)
  | some table =>
    set { s with table := table }
    logDefinition env (if s.commits then "defined" else "explored") ref

/-- Lowers inside another body and comes back, also after a failure. -/
def within {α : Type} (inner : Body) (step : Lower α) : Lower (α × Body) := fun s =>
  match step { s with body := inner } with
  | .ok a t => .ok (a, t.body) { t with body := s.body }
  | .error e t => .error e { t with body := s.body }

/-- Lowers into a table of its own, which is thrown away. -/
def inScratch {α : Type} (step : Lower α) : Lower α := fun s =>
  match step { s with table := .empty, commits := false } with
  | .ok a t => .ok a { t with table := s.table, commits := s.commits }
  | .error e t => .error e { t with table := s.table, commits := s.commits }

/-- A body whose lambda has a name, or a fresh one. -/
def newBody (frame : Nat) (dest : Option Symbol) (pulling topLevel : Bool)
    (returnError : Option String) : Lower Body := do
  let dest ← match dest with
    | some d => pure d
    | none => issue "lambda" .global_
  return ⟨frame, dest, pulling, topLevel, returnError, false, [], []⟩

/-- A body inside the current one. -/
def childBody (dest : Option Symbol) (pulling : Bool) (returnError : Option String) :
    Lower Body := do
  let s ← get
  let (frame, scopes) ← ofExcept (s.scopes.child s.body.frame)
  set { s with scopes := scopes }
  newBody frame dest pulling false returnError

end Lower

end Hoist.Lowering
