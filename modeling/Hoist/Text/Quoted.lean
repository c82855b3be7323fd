/-!
# Quoted text

A text is written between single quotes, each special character as a backslash and a letter that
stands for it. `quote` writes this form; the reader of string tokens undoes it letter by letter
with `ofMnemonic?`.
-/

namespace Hoist.Text

/-- The letter after a backslash and the character that the pair stands for. -/
def escapes : List (Char × Char) :=
  [('\'', '\''), ('"', '"'), ('\\', '\\'), ('n', '\n'), ('r', '\r'), ('t', '\t'),
   ('b', '\x08'), ('f', '\x0c'), ('a', '\x07'), ('v', '\x0b'), ('0', '\x00')]

/-- The letter that stands for a special character. -/
def mnemonic? (c : Char) : Option Char := (escapes.find? (·.2 == c)).map (·.1)

/-- The character that a letter stands for after a backslash. -/
def ofMnemonic? (c : Char) : Option Char := (escapes.find? (·.1 == c)).map (·.2)

/-- One character as it stands between single quotes: a double quote needs no backslash there. -/
def quoteChar (c : Char) : List Char :=
  if c == '"' then [c]
  else match mnemonic? c with
    | some m => ['\\', m]
    | none => [c]

/-- A text between single quotes. -/
def quote (s : String) : String :=
  String.ofList ('\'' :: (s.toList.flatMap quoteChar ++ ['\'']))

end Hoist.Text
