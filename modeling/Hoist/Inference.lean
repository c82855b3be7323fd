import Hoist.Flat.Node

/-!
# Faults of inference

What goes wrong when a property of flat code is computed: a fault has a kind, a message, and the nodes
it is about, whose lines are shown. A problem says why a function cannot be specialised.
-/

namespace Hoist.Inference

open Hoist.Flat (Node)

/-- The kind of a fault. -/
inductive Kind
  | inference
  | type
  | shape
deriving DecidableEq, Repr

/-- The name of a kind. -/
def Kind.name : Kind → String
  | .inference => "InferenceError"
  | .type => "TypeError"
  | .shape => "ShapeError"

/-- A fault about some nodes; a node may be missing. -/
structure Fault where
  kind : Kind
  message : String
  refs : List (Option Node)
deriving Repr

namespace Fault

/-- The short form of a fault: its message as far as the first NUL. -/
def brief (f : Fault) : String := Text.beforeNul f.message

/-- A fault with its message on one line. -/
def summary (f : Fault) : String := f.kind.name ++ ": " ++ f.message ++ "\n"

/-- A fault in colour, with the lines of the nodes whose places are known. -/
def report (f : Fault) : String :=
  Report.Severity.error.escape ++ f.kind.name ++ Report.clear ++ ": " ++ f.message ++ "\n" ++
    String.join (f.refs.filterMap fun r => (r.bind Node.loc).map (·.traceback))

/-- The last line of a traceback through a call. A type fault of a named function says what the
function was called with, and why that is wrong only if the function is a primitive. -/
def callSummary (f : Fault) (fn : Option String) (args : String) (isPrimitive : Bool) : String :=
  match f.kind, fn with
  | .type, some name =>
    f.kind.name ++ ": \x60" ++ name ++ "\x60 cannot be called with argument types " ++ args ++ "." ++
      (if isPrimitive then " Reason: " ++ f.message else "") ++ "\n"
  | _, _ => f.summary

end Fault

/-- Why a function cannot be specialised. -/
inductive Problem
  | dead
  | poly
  | inaccessible
deriving DecidableEq, Repr

namespace Problem

/-- The name of a problem. -/
def name : Problem → String
  | .dead => "DEAD"
  | .poly => "POLY"
  | .inaccessible => "INACCESSIBLE"

/-- The problem with a name, or what is said of a name that no problem has, which ends before a
NUL. -/
def ofName (name : String) : Except String Problem :=
  match [Problem.dead, .poly, .inaccessible].find? (·.name == name) with
  | some p => .ok p
  | none => .error (Text.beforeNul ("unknown specialization problem " ++ name))

end Problem

end Hoist.Inference
