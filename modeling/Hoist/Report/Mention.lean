import Hoist.Report.Excerpt
import Hoist.Text.Class

/-!
# Mentions

A report may be about a piece of some text. Where the piece lies in the text of a file, the report
names the file, the line and the column, and shows the line; elsewhere it shows the message alone.
-/

namespace Hoist.Report

/-- A piece of text, and where it starts in the text it was taken from, if it was taken from one. -/
structure Mention where
  text : List Char
  start? : Option Nat
deriving DecidableEq, Repr

/-- A named text. -/
structure File where
  name : String
  text : List Char
deriving DecidableEq, Repr

/-- Where a mention starts in a text, if all of it lies inside. Nothing lies inside an empty text. -/
def Mention.inside? (m : Mention) (text : List Char) : Option Nat :=
  match m.start? with
  | some start => if !text.isEmpty && start + m.text.length ≤ text.length then some start else none
  | none => none

/-- A report about a mention: `describe` is the message itself. -/
def mention (severity : Severity) (file : Option File) (m : Mention) (describe : String) : String :=
  let line := severity.escape ++ severity.name ++ ": " ++ clear ++ describe ++ "\n"
  match file with
  | none => bold ++ line
  | some file =>
    match m.inside? file.text with
    | none => bold ++ line
    | some start =>
      let behind := file.text.take start
      let head := Text.lastLine behind
      let tail := Text.line (file.text.drop start)
      let number := Text.lineEnds behind + 1
      let column := head.length + 1
      let width := max 1 (min m.text.length tail.length)
      bold ++ file.name ++ ":" ++ toString number ++ ":" ++ toString column ++ ": " ++ line ++
        excerpt (head ++ tail) number.toUInt64 column.toUInt64 width.toUInt64 severity.escape

/-- A message made of a text before a mention, the mention in bold, and a text after it, with single
spaces between them. -/
def around (front : String) (m : List Char) (back : String) : String :=
  let gap := fun (c : Option Char) => if c == none || c == some ' ' then "" else " "
  front ++ gap front.toList.getLast? ++ bold ++ String.ofList m ++ clear ++
    gap back.toList.head? ++ back

end Hoist.Report
