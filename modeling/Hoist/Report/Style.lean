/-!
# Terminal styles

The escape sequences that reports are written with, and one-line messages in them.
-/

namespace Hoist.Report

/-- Starts bold text. -/
def bold : String := "\x1b[1m"

/-- Ends every style. -/
def clear : String := "\x1b[0m"

/-- How grave a report is. -/
inductive Severity
  | none
  | error
  | note
deriving DecidableEq, Repr

namespace Severity

/-- The word before the colon of a report. -/
def name : Severity → String
  | .none => ""
  | .error => "error"
  | .note => "note"

/-- The escape sequence of a severity's colour. -/
def escape : Severity → String
  | .none => clear
  | .error => "\x1b[31m"
  | .note => "\x1b[36m"

end Severity

/-- A message on a line of its own, after its severity. -/
def styled (severity : Severity) (message : String) : String :=
  severity.escape ++ severity.name ++ ": " ++ clear ++ message ++ "\n"

end Hoist.Report
