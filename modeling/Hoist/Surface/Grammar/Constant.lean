import Hoist.Surface.Cursor
import Hoist.Surface.Numeral

/-!
# The constants of a text

Numbers and strings are tokens with a text of their own, and stand for constants: a numeral has a
value in range, and a string hides special characters behind backslashes.
-/

namespace Hoist.Surface

/-- The constant of a number token. Out of range, an integer and a fraction are refused in words of
their own. -/
def numberValue (t : Token) : Except Fault Literal :=
  let n := (Numeral.scan t.text).1
  match n.value? with
  | some v => .ok v
  | none =>
    .error ⟨if n.isInteger then .integerTooLarge else .malformedNumber, t.start, t.text⟩

/-- The text that stands between quotes at an offset. A backslash before a line end joins two lines;
before any other character it must form an escape. -/
def unescape (pos : Nat) : List Char → Except Fault (List Char)
  | [] => .ok []
  | ['\\'] => .error ⟨.invalidEscape, pos, ['\\']⟩
  | '\\' :: c :: rest =>
    if c == '\n' then unescape (pos + 2) rest
    else
      match Text.ofMnemonic? c with
      | some x => (x :: ·) <$> unescape (pos + 2) rest
      | none => .error ⟨.invalidEscape, pos, ['\\', c]⟩
  | c :: rest => (c :: ·) <$> unescape (pos + 1) rest

/-- How many quotes stand on each side of a string token. -/
def quoteWidth (text : List Char) : Nat :=
  match text with
  | a :: b :: c :: rest => if a == b && b == c && 3 ≤ rest.length then 3 else 1
  | _ => 1

/-- The constant of a string token. -/
def stringValue (t : Token) : Except Fault (List Char) :=
  let width := quoteWidth t.text
  unescape (t.start + width) ((t.text.drop width).take (t.text.length - 2 * width))

end Hoist.Surface
