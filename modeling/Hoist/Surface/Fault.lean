import Hoist.Report.Mention
import Hoist.Surface.Token

/-!
# Faults of a text

Why a text cannot be read, and the piece of it that is to blame. A fault describes itself in one
sentence; its report shows the line once the text is at hand.
-/

namespace Hoist.Surface

/-- What is wrong with a piece of text. -/
inductive Complaint
  | unterminatedString
  | malformedNumber
  | integerTooLarge
  | invalidEscape
  | strayCharacter
  | unclosedBracket
  | misplacedIndentation
  /-- A token that no rule expects, with a note that may be empty. -/
  | unexpected (note : String)
  /-- A token of another kind was required. -/
  | expected (kind : Kind)
deriving DecidableEq, Repr

/-- A complaint about the text that starts at an offset. -/
structure Fault where
  complaint : Complaint
  start : Nat
  text : List Char
deriving DecidableEq, Repr

namespace Fault

/-- A fault as one sentence, the blamed text in bold. -/
def describe (f : Fault) : String :=
  let framed := fun front back => Report.around front f.text back
  let bold := fun text => Report.bold ++ text ++ Report.clear
  match f.complaint with
  | .unterminatedString => framed "string literal" "is not terminated."
  | .malformedNumber => framed "number literal" "is malformed."
  | .integerTooLarge => framed "integer literal" "does not fit in 64 bits."
  | .invalidEscape => framed "escape sequence" "is not valid."
  | .strayCharacter => framed "character" "cannot start any token."
  | .unclosedBracket => framed "bracket" "is never closed."
  | .misplacedIndentation => framed "this line" "does not match any outer indentation level."
  | .unexpected note =>
    "token " ++ bold (String.ofList f.text) ++ " was not expected here." ++
      (if note.isEmpty then "" else " " ++ note)
  | .expected kind =>
    "token " ++ bold kind.name ++ " was expected, but " ++ bold (String.ofList f.text) ++
      " was found"

/-- The piece of text a fault is about. -/
def mention (f : Fault) : Report.Mention := ⟨f.text, some f.start⟩

/-- The offset of a fault in the text it was found in; an empty text has no offsets. -/
def offset? (f : Fault) (text : List Char) : Option Nat := f.mention.inside? text

/-- The report of a fault; without a file it names no place. -/
def report (f : Fault) (file : Option Report.File) : String :=
  Report.mention .error file f.mention f.describe

end Fault

end Hoist.Surface
