import Hoist.Lowering.Tree
import Hoist.Surface.Grammar.Statement

/-!
# Units

A unit is a text with one function definition, lowered into a table. The symbols and the table may go
on from earlier units; then they hold, after a failure too, what was issued and defined before it.
-/

namespace Hoist.Lowering

open Hoist.Flat (Symbol Source Table)
open Hoist.Surface (Module Fault)

/-- What a unit starts from. -/
structure Options where
  /-- How many symbols were issued before. -/
  issued : Nat := 0
  /-- The table that the lambdas go to. -/
  table : Table := .empty
  expansions : List (String × Expansion) := []
  verbose : Bool := false

/-- Why a unit has no result. -/
inductive UnitError
  | unreadable (fault : Fault)
  | failed (failure : Failure)
deriving Repr

/-- What a unit leaves behind: the name of its function, or why it has none, and what later units go
on from. -/
structure Outcome where
  result : Except UnitError Symbol
  issued : Nat
  table : Table
  log : String

namespace Lower

/-- The first body of a unit, in a scope of its own. A unit needs a table to define its lambdas in. -/
def rootBody (dest : Option Symbol) (hasTable pulling topLevel : Bool)
    (returnError : Option String) : Lower Body := do
  let s ← get
  let (frame, scopes) := s.scopes.root
  set { s with scopes := scopes }
  if !hasTable then throw .internal
  newBody frame dest pulling topLevel returnError

/-- Makes a body the current one for good. -/
def enter (b : Body) : Lower Unit := modify fun s => { s with body := b }

end Lower

/-- The state before the first body of a unit. -/
def State.initial (opts : Options) (commits : Bool) (log : String) : State where
  issued := opts.issued
  scopes := .empty
  table := opts.table
  commits := commits
  log := log
  body := default

/-- Lowers a module read from a source. -/
def lowerModule (m : Module) (source : Source) (opts : Options) (log : String) : Outcome :=
  let env : Env := ⟨source, opts.expansions, opts.verbose⟩
  let step : Lower Symbol := do
    Lower.enter (← Lower.rootBody none true false true none)
    Lower.lowerEntry env m
  match step (State.initial opts true log) with
  | .ok entry s => ⟨.ok entry, s.issued, s.table, s.log⟩
  | .error e s => ⟨.error (.failed e), s.issued, s.table, s.log⟩

/-- What a verbose unit logs before it is read. -/
def announcement (source : Source) : String :=
  Report.styled .note
    ("translating " ++ source.url ++ ":" ++ toString source.firstLine.toNat)

/-- Reads a source and lowers it. -/
def lowerSource (source : Source) (opts : Options) : Outcome :=
  let log := if opts.verbose then announcement source else ""
  match Surface.readModule source.text with
  | .error fault => ⟨.error (.unreadable fault), opts.issued, opts.table, log⟩
  | .ok m => lowerModule m source opts log

end Hoist.Lowering
