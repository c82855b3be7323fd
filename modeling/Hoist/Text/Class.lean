/-!
# Classes of characters

Texts are read byte by byte, one character for one byte, and only the ASCII range has letters,
digits and blanks: every character above it stands for a byte that belongs to no class.
-/

namespace Hoist.Text

/-- A decimal digit. -/
def isDigit (c : Char) : Bool := '0' ≤ c && c ≤ '9'

/-- An ASCII letter of either case. -/
def isLetter (c : Char) : Bool := ('a' ≤ c && c ≤ 'z') || ('A' ≤ c && c ≤ 'Z')

/-- A character that may stand anywhere in an identifier but at its start, where digits may not. -/
def isIdent (c : Char) : Bool := isLetter c || isDigit c || c == '_'

/-- Blanks that separate tokens inside a line. -/
def isBlank (c : Char) : Bool := c == ' ' || c == '\t' || c == '\r' || c == '\x0c'

/-- Blanks that make up the indentation of a line; a carriage return is not one of them. -/
def isIndent (c : Char) : Bool := c == ' ' || c == '\t' || c == '\x0c'

/-- White space in the widest sense: blanks, line ends and the vertical tab. -/
def isSpace (c : Char) : Bool :=
  c == ' ' || c == '\t' || c == '\n' || c == '\x0b' || c == '\x0c' || c == '\r'

/-- Whether a text stands no later than another one in a list ordered by characters. -/
def precedes : List Char → List Char → Bool
  | [], _ => true
  | _ :: _, [] => false
  | c :: cs, d :: ds => c < d || (c == d && precedes cs ds)

/-- Dropping characters makes no text longer. -/
theorem length_dropWhile_le (p : Char → Bool) (text : List Char) :
    (text.dropWhile p).length ≤ text.length :=
  (List.dropWhile_suffix p).length_le

/-- The part of a text before its first line end. -/
def line (text : List Char) : List Char := text.takeWhile (· != '\n')

/-- The part of a text after its first line end, empty when it has no line end. -/
def afterLine (text : List Char) : List Char := (text.dropWhile (· != '\n')).drop 1

/-- A text with a first character is longer than what comes after its first line. -/
theorem length_afterLine_lt (c : Char) (text : List Char) :
    (afterLine (c :: text)).length < (c :: text).length := by
  have h := length_dropWhile_le (· != '\n') (c :: text)
  simp only [afterLine, List.length_drop, List.length_cons] at *
  omega

/-- The part of a text before its first NUL, the whole text when it has none. The short forms of
messages end there. -/
def beforeNul (text : String) : String := String.ofList (text.toList.takeWhile (· != '\x00'))

/-- How many line ends a text has. -/
def lineEnds (text : List Char) : Nat := text.count '\n'

/-- The text after its last line end, the whole text when it has none. -/
def lastLine (text : List Char) : List Char := (text.reverse.takeWhile (· != '\n')).reverse

end Hoist.Text
