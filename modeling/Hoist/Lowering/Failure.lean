import Hoist.Flat.Location

/-!
# Failures of lowering

What can be read need not be lowered: the constructs beyond the supported ones are refused, each in
words of its own and with the place of the text. A diagnostic is what a failure shows: its kind, its
message and its place.
-/

namespace Hoist.Lowering

open Hoist.Flat (Location)

/-- A kind of error, its message, and the place it is about when that is known. -/
structure Diagnostic where
  kind : String
  message : String
  loc : Option Location
deriving DecidableEq, Repr

namespace Diagnostic

/-- The short form of a diagnostic: its kind and its message, as far as the first NUL. -/
def summary (d : Diagnostic) : String := Text.beforeNul (d.kind ++ ": " ++ d.message)

/-- A diagnostic in colour, with an excerpt of its line. -/
def report (d : Diagnostic) : String :=
  Report.Severity.error.escape ++ d.kind ++ Report.clear ++ ": " ++ d.message ++ "\n" ++
    match d.loc with
    | none => ""
    | some l => l.traceback

end Diagnostic

/-- Why a piece of text cannot be lowered. -/
inductive Cause
  | varargs
  | keywordOnly
  | defaultArguments
  | keywordArguments
  | decorated
  | chainedComparison
  | chainedAssignment
  | deconstruction
  | subscriptOfExpression
  | badTarget (what : String)
  | augmentedSubscript
  | augmentedTarget
  | unsupported (what : String)
  | missingReturn
  | deadCode
  /-- A return where returns are forbidden, in the words of the place that forbids them. -/
  | forbiddenReturn (why : String)
  | unevenReturns
  /-- The names that the two branches of a conditional assign, each list sorted. -/
  | unevenBranches (whenTrue whenFalse : List String)
  | loopElse
  | notOneFunction
deriving DecidableEq, Repr

namespace Cause

/-- Names between spaces. -/
def nameList (names : List String) : String := " ".intercalate names

/-- The message of a cause. -/
def message : Cause → String
  | .varargs => "Varargs are not allowed."
  | .keywordOnly => "Keyword-only arguments are not allowed."
  | .defaultArguments => "Default arguments are not allowed."
  | .keywordArguments => "Keyword arguments are not allowed."
  | .decorated => "Functions should not have decorators."
  | .chainedComparison => "Comparisons must have a maximum of two operands"
  | .chainedAssignment => "Chained assignment is not supported."
  | .deconstruction => "Deconstructing assignment is not supported."
  | .subscriptOfExpression => "You can only set a slice on a variable."
  | .badTarget what => "Unsupported assignment target: " ++ what ++ "."
  | .augmentedSubscript => "Augmented assignment to subscripts or slices is not supported."
  | .augmentedTarget => "Augmented assignment is only supported on variables."
  | .unsupported what => "Unsupported construct: " ++ what ++ "."
  | .missingReturn => "Missing return statement."
  | .deadCode => "There should be no statements after return."
  | .forbiddenReturn why => why
  | .unevenReturns => "Either none or all branches of an if statement must return a value."
  | .unevenBranches t e =>
    "All branches of an if statement must assign to the same set of variables." ++
      "\nTrue branch sets: \x7b" ++ nameList t ++ "\x7d" ++
      "\nElse branch sets: \x7b" ++ nameList e ++ "\x7d"
  | .loopElse => "while/else is not supported."
  | .notOneFunction => "Expected a single function definition at top level."

end Cause

/-- Why lowering stopped. The last three are no faults of the text. -/
inductive Failure
  | refused (cause : Cause) (loc : Option Location)
  | undeclared (name : String) (loc : Option Location)
  /-- A lambda was defined under a name that the table has already. -/
  | redefinition (name : String)
  /-- A call was expanded to nothing, a missing frame was extended, or there was no table. -/
  | internal
  /-- A missing frame was read or written. -/
  | unknownFrame
deriving DecidableEq, Repr

namespace Failure

/-- The diagnostic of a refusal. -/
def refusal (message : String) (loc : Option Location) : Diagnostic :=
  ⟨"TranslationError", message, loc⟩

/-- The diagnostic of a name that nothing binds. -/
def unbound (name : String) (loc : Option Location) : Diagnostic :=
  ⟨"UndeclaredVariable", "Undeclared variable: " ++ name, loc⟩

/-- What a failure shows, if it is a fault of the text. -/
def diagnostic? : Failure → Option Diagnostic
  | .refused cause loc => some (refusal cause.message loc)
  | .undeclared name loc => some (unbound name loc)
  | .redefinition _ | .internal | .unknownFrame => none

/-- What is said of a failure that is no fault of the text: a short form, which ends before a NUL. -/
def internalMessage : Failure → String
  | .redefinition name => Text.beforeNul ("internal_error: redefinition of " ++ name)
  | _ => "internal_error"

end Failure

end Hoist.Lowering
