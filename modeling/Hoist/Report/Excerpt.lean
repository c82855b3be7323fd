import Hoist.Report.Style

/-!
# Excerpts

A line of a source with a part of it highlighted, and a second line with a caret under the first
highlighted character and tildes under the others. Column and width are cut to the line: the column
lies between 1 and one past the end, and the highlight never leaves the line.
-/

namespace Hoist.Report

/-- The blanks for a count. -/
def blanks (n : Nat) : String := String.ofList (List.replicate n ' ')

/-- A line cut into the text before the highlight, the highlight, and the text after it. -/
structure Highlight where
  before : List Char
  marked : List Char
  after : List Char
  /-- The column of the highlight, counted from 1. -/
  column : Nat
  /-- The caret and its tildes together. -/
  width : Nat

/-- The highlight of `width` characters from `column` on, both cut to the line. -/
def Highlight.of (line : List Char) (column width : UInt64) : Highlight :=
  let column := max 1 (min column.toNat (line.length + 1))
  let width := max 1 (min width.toNat (max 1 (line.length + 1 - column)))
  let rest := line.drop (column - 1)
  { before := line.take (column - 1)
    marked := rest.take width
    after := rest.drop width
    column := column
    width := width }

/-- The number of a line, padded to five places. -/
def lineNumber (n : UInt64) : String :=
  let digits := toString n.toNat
  blanks (5 - digits.length) ++ digits

/-- The excerpt of a line: its number and text, and the marks under the highlight. -/
def excerpt (line : List Char) (number column width : UInt64) (escape : String) : String :=
  let h := Highlight.of line column width
  lineNumber number ++ " | " ++ String.ofList h.before ++ bold ++ escape ++
    String.ofList h.marked ++ clear ++ String.ofList h.after ++ "\n" ++
  "      |" ++ blanks h.column ++ bold ++ escape ++ "^" ++
    String.ofList (List.replicate (h.width - 1) '~') ++ clear ++ "\n"

end Hoist.Report
