import Hoist.Lowering.Unit

/-!
# Namespaces of compiled functions

A registered unit binds each lambda of its table in a namespace, to a sentinel that stands for the
compiled function. A sentinel cannot be called: it only carries its lambda, its table and the
namespace it was made for. Units of one session may share their symbols or their table; a shared table
keeps growing under the sentinels that point to it.
-/

namespace Hoist

open Hoist.Flat (Symbol Lambda Table Source)
open Hoist.Lowering (Expansion UnitError Outcome)

/-- What a compiled function is bound to. -/
structure Sentinel where
  /-- Tells sentinels apart, in the order of their making. -/
  serial : Nat
  name : String
  fn : Lambda
  /-- The number of the table that holds the lambda. -/
  table : Nat
  /-- The namespace it was made for. -/
  origin : String
deriving Repr

/-- What is said of a call of a sentinel, as far as the first NUL. -/
def Sentinel.refusal (s : Sentinel) : String :=
  Text.beforeNul ("Function " ++ s.name ++ " is for internal use only.")

/-- The name a lambda is bound to: the plain name of a global, the text of a generated symbol. -/
def boundName (l : Lambda) : String := if l.ref.isGenerated then l.ref.write else l.ref.name

/-- The names that a namespace binds. -/
structure Namespace where
  name : String
  bindings : List (String × Sentinel)
deriving Repr

namespace Namespace

/-- The sentinel bound to a name. -/
def find? (ns : Namespace) (name : String) : Option Sentinel := ns.bindings.lookup name

/-- A namespace with a name bound, whatever it was bound to before. -/
def bind (ns : Namespace) (name : String) (s : Sentinel) : Namespace :=
  { ns with bindings := ns.bindings.filter (·.1 != name) ++ [(name, s)] }

/-- A namespace with sentinels bound one after the other, each to its own name. -/
def bindAll (ns : Namespace) (xs : List Sentinel) : Namespace :=
  xs.foldl (fun ns x => ns.bind x.name x) ns

/-- The bound names in order. -/
def names (ns : Namespace) : List String := Lowering.sortedNames (ns.bindings.map (·.1))

end Namespace

/-- A list with a value in one of its places, or behind the last place if it has no such place. -/
def place {α : Type} (xs : List α) (i : Nat) (x : α) : List α := xs.take i ++ x :: xs.drop (i + 1)

/-- Several units and what they leave behind. -/
structure Session where
  sharesSymbols : Bool
  sharesTable : Bool
  /-- How many symbols each generator issued; a shared one is the first. -/
  generators : List Nat := [0]
  /-- The tables of all units; a shared one is the first. -/
  tables : List Table := [.empty]
  namespaces : List Namespace := []
  /-- How many sentinels were made. -/
  sentinels : Nat := 0

/-- The generator and the table that a unit is lowered with, by their numbers. A number that none has
stands for a new one. -/
structure Supplies where
  generator : Nat
  table : Nat

namespace Session

/-- A table by its number. -/
def table (s : Session) (i : Nat) : Table := s.tables[i]?.getD .empty

/-- How many symbols the shared generator issued. -/
def issued (s : Session) : Nat := s.generators.headD 0

/-- What the units of the session are lowered with. -/
def supplies (s : Session) : Supplies where
  generator := if s.sharesSymbols then 0 else s.generators.length
  table := if s.sharesTable then 0 else s.tables.length

/-- A namespace by its name, empty if nothing was ever bound in it. -/
def namespaceOf (s : Session) (name : String) : Namespace :=
  (s.namespaces.find? (·.name == name)).getD ⟨name, []⟩

/-- A session with a namespace put in the place of the one with its name. -/
def setNamespace (s : Session) (ns : Namespace) : Session :=
  { s with namespaces := s.namespaces.filter (·.name != ns.name) ++ [ns] }

/-- The unit that a source is lowered to with some supplies. -/
def unit (s : Session) (g : Supplies) (source : Source) (expansions : List (String × Expansion)) :
    Outcome :=
  Lowering.lowerSource source
    { issued := s.generators[g.generator]?.getD 0
      table := s.table g.table
      expansions := expansions }

/-- Lowers a source with some supplies: the name of its function and the number of the table it is in.
However that ends, the generator and the table stay as they are then. -/
def lowerWith (s : Session) (g : Supplies) (source : Source) (expansions : List (String × Expansion)) :
    Except UnitError (Symbol × Nat) × Session :=
  let o := s.unit g source expansions
  (o.result.map (·, min g.table s.tables.length),
    { s with
      generators := place s.generators g.generator o.issued
      tables := place s.tables g.table o.table })

/-- Lowers a source as a unit of the session. -/
def lower (s : Session) (source : Source) (expansions : List (String × Expansion)) :
    Except UnitError (Symbol × Nat) × Session :=
  s.lowerWith s.supplies source expansions

/-- Sentinels for lambdas, each numbered after the one before it. -/
def sentinelsFor (first table : Nat) (origin : String) : List Lambda → List Sentinel
  | [] => []
  | l :: ls => ⟨first, boundName l, l, table, origin⟩ :: sentinelsFor (first + 1) table origin ls

/-- Lowers a source with some supplies and binds every lambda of its table in a namespace. Yields the
sentinel of its function; a unit that fails binds nothing. -/
def registerWith (s : Session) (g : Supplies) (origin : String) (source : Source)
    (expansions : List (String × Expansion)) : Except UnitError Sentinel × Session :=
  match s.lowerWith g source expansions with
  | (.error e, s) => (.error e, s)
  | (.ok (entry, number), s) =>
    let made := sentinelsFor s.sentinels number origin (s.table number).lambdas
    let ns := (s.namespaceOf origin).bindAll made
    let s := { s.setNamespace ns with sentinels := s.sentinels + made.length }
    match made.reverse.find? (·.fn.ref.same entry) with
    | some x => (.ok x, s)
    | none => (.error (.failed .internal), s)

/-- Registers a source as a unit of the session. -/
def register (s : Session) (origin : String) (source : Source)
    (expansions : List (String × Expansion)) : Except UnitError Sentinel × Session :=
  s.registerWith s.supplies origin source expansions

end Session

end Hoist
