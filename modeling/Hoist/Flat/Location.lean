import Hoist.Report.Excerpt
import Hoist.Sexp
import Hoist.Text.Class

/-!
# Locations

A location is a line and a column of a source. Lines count from the number that the first line of the
source was given, modulo 2 ^ 64; columns count from zero. `Source.locate` finds the location of an
offset, and `Location.lineText` the text of its line.
-/

namespace Hoist.Flat

/-- A text that was lowered. Two sources are one only if they were loaded at once, which the serial
number tells: equal texts under equal names may still be two sources. -/
structure Source where
  serial : Nat
  url : String
  /-- The number of the first line. -/
  firstLine : UInt64
  text : List Char
deriving DecidableEq, Repr, Inhabited

/-- A place in a source. -/
structure Location where
  source : Source
  line : UInt64
  column : UInt64
deriving DecidableEq, Repr, Inhabited

/-- The location of an offset: the line ends before it are counted, and the column is the distance to
the last of them. -/
def Source.locate (s : Source) (offset : Nat) : Location :=
  let behind := s.text.take offset
  ⟨s, s.firstLine + (Text.lineEnds behind).toUInt64, (Text.lastLine behind).length.toUInt64⟩

/-- The location of an offset, if it lies in the text or at its end. -/
def Source.locate? (s : Source) (offset : Nat) : Option Location :=
  if offset ≤ s.text.length then some (s.locate offset) else none

/-- A text behind a number of line ends, empty when it has fewer. -/
def skipLines : Nat → List Char → List Char
  | 0, text => text
  | n + 1, text => if text.isEmpty then [] else skipLines n (Text.afterLine text)

namespace Location

/-- The text of the line, empty when the source has no such line. -/
def lineText (l : Location) : List Char :=
  Text.line (skipLines (l.line - l.source.firstLine).toNat l.source.text)

/-- The place of a location, and an excerpt of its line with a caret under the column. -/
def traceback (l : Location) : String :=
  Report.bold ++ l.source.url ++ ":" ++ toString l.line.toNat ++ ":" ++
    toString (l.column + 1).toNat ++ Report.clear ++ "\n" ++
    Report.excerpt l.lineText l.line (l.column + 1) 1 Report.Severity.error.escape

instance : Sexp.ToSexp Location :=
  ⟨fun l => .list
    [.atom l.source.url, .atom (toString l.line.toNat), .atom (toString l.column.toNat)]⟩

/-- Whether two locations are one place of one source. -/
def same (a b : Location) : Bool :=
  a.source.serial == b.source.serial && a.line == b.line && a.column == b.column

end Location

end Hoist.Flat
