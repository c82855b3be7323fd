/-!
# Tokens

A token has a kind, the place where it starts and the text it covers. Besides names, numbers and
strings there are keywords, marks, and the layout tokens that stand for line ends and changes of
indentation.
-/

namespace Hoist.Surface

/-- The words that cannot be names. -/
inductive Word
  | def_ | return_ | if_ | elif_ | else_ | while_ | for_ | in_ | not_ | and_ | or_ | is_ | lambda_
  | true_ | false_ | none_ | pass_ | break_ | continue_ | try_ | except_ | finally_ | raise_
  | global_ | nonlocal_ | yield_ | as_
deriving DecidableEq, Repr

namespace Word

/-- The spelling of a keyword. -/
def spelling : Word → String
  | .def_ => "def"
  | .return_ => "return"
  | .if_ => "if"
  | .elif_ => "elif"
  | .else_ => "else"
  | .while_ => "while"
  | .for_ => "for"
  | .in_ => "in"
  | .not_ => "not"
  | .and_ => "and"
  | .or_ => "or"
  | .is_ => "is"
  | .lambda_ => "lambda"
  | .true_ => "True"
  | .false_ => "False"
  | .none_ => "None"
  | .pass_ => "pass"
  | .break_ => "break"
  | .continue_ => "continue"
  | .try_ => "try"
  | .except_ => "except"
  | .finally_ => "finally"
  | .raise_ => "raise"
  | .global_ => "global"
  | .nonlocal_ => "nonlocal"
  | .yield_ => "yield"
  | .as_ => "as"

/-- Every keyword. -/
def all : List Word :=
  [.def_, .return_, .if_, .elif_, .else_, .while_, .for_, .in_, .not_, .and_, .or_, .is_, .lambda_,
   .true_, .false_, .none_, .pass_, .break_, .continue_, .try_, .except_, .finally_, .raise_,
   .global_, .nonlocal_, .yield_, .as_]

/-- The keyword with a spelling. -/
def ofSpelling? (text : List Char) : Option Word := all.find? (·.spelling.toList == text)

end Word

/-- The marks: augmented assignments, operators, brackets and separators. -/
inductive Mark
  | powEq | floorDivEq | rshiftEq | lshiftEq | plusEq | minusEq | starEq | slashEq | percentEq | atEq
  | ampersandEq | pipeEq | caretEq
  | doubleStar | doubleSlash | lshift | rshift | lessEq | greaterEq | doubleEq | notEq | arrow
  | plus | minus | star | slash | percent | at | ampersand | pipe | caret | tilde | less | greater
  | equal
  | parenOpen | parenClose | bracketOpen | bracketClose | braceOpen | braceClose | comma | colon
  | semicolon | dot
deriving DecidableEq, Repr

namespace Mark

/-- The spelling of a mark. -/
def spelling : Mark → String
  | .powEq => "**="
  | .floorDivEq => "//="
  | .rshiftEq => ">>="
  | .lshiftEq => "<<="
  | .plusEq => "+="
  | .minusEq => "-="
  | .starEq => "*="
  | .slashEq => "/="
  | .percentEq => "%="
  | .atEq => "@="
  | .ampersandEq => "&="
  | .pipeEq => "|="
  | .caretEq => "^="
  | .doubleStar => "**"
  | .doubleSlash => "//"
  | .lshift => "<<"
  | .rshift => ">>"
  | .lessEq => "<="
  | .greaterEq => ">="
  | .doubleEq => "=="
  | .notEq => "!="
  | .arrow => "->"
  | .plus => "+"
  | .minus => "-"
  | .star => "*"
  | .slash => "/"
  | .percent => "%"
  | .at => "@"
  | .ampersand => "&"
  | .pipe => "|"
  | .caret => "^"
  | .tilde => "~"
  | .less => "<"
  | .greater => ">"
  | .equal => "="
  | .parenOpen => "("
  | .parenClose => ")"
  | .bracketOpen => "["
  | .bracketClose => "]"
  | .braceOpen => "\x7b"
  | .braceClose => "\x7d"
  | .comma => ","
  | .colon => ":"
  | .semicolon => ";"
  | .dot => "."

/-- Every mark, a longer spelling before a shorter one. -/
def all : List Mark :=
  [.powEq, .floorDivEq, .rshiftEq, .lshiftEq, .plusEq, .minusEq, .starEq, .slashEq, .percentEq, .atEq,
   .ampersandEq, .pipeEq, .caretEq, .doubleStar, .doubleSlash, .lshift, .rshift, .lessEq, .greaterEq,
   .doubleEq, .notEq, .arrow, .plus, .minus, .star, .slash, .percent, .at, .ampersand, .pipe, .caret,
   .tilde, .less, .greater, .equal, .parenOpen, .parenClose, .bracketOpen, .bracketClose, .braceOpen,
   .braceClose, .comma, .colon, .semicolon, .dot]

/-- The mark with the longest spelling that a text starts with. -/
def ofFront? (text : List Char) : Option Mark := all.find? (·.spelling.toList.isPrefixOf text)

/-- The closing bracket of an opening one. -/
def closing? : Mark → Option Mark
  | .parenOpen => some .parenClose
  | .bracketOpen => some .bracketClose
  | .braceOpen => some .braceClose
  | _ => none

/-- Whether a mark closes a bracket. -/
def isClosing : Mark → Bool
  | .parenClose | .bracketClose | .braceClose => true
  | _ => false

end Mark

/-- The kind of a token. -/
inductive Kind
  | identifier
  | number
  | string
  | newline
  | indent
  | dedent
  | endOfInput
  | word (w : Word)
  | mark (m : Mark)
deriving DecidableEq, Repr

namespace Kind

/-- The name of a kind in messages. -/
def name : Kind → String
  | .identifier => "identifier"
  | .number => "number"
  | .string => "string"
  | .newline => "newline"
  | .indent => "indent"
  | .dedent => "dedent"
  | .endOfInput => "end of input"
  | .word w => w.spelling
  | .mark m => m.spelling

/-- Every kind of token. -/
def all : List Kind :=
  [.identifier, .number, .string, .newline, .indent, .dedent, .endOfInput] ++
    Word.all.map .word ++ Mark.all.map .mark

/-- The kind with a name. -/
def ofName? (name : String) : Option Kind := all.find? (·.name == name)

/-- Whether tokens of a kind stand for the layout of the lines. -/
def isLayout : Kind → Bool
  | .newline | .indent | .dedent | .endOfInput => true
  | _ => false

end Kind

/-- A token of a text: its kind, the offset at which it starts, and the text it covers. -/
structure Token where
  kind : Kind
  start : Nat
  text : List Char
deriving DecidableEq, Repr

namespace Token

/-- The offset at which a token ends. -/
def stop (t : Token) : Nat := t.start + t.text.length

/-- A token on its own, as lists of tokens show it. -/
def write (t : Token) : String :=
  match t.kind with
  | .identifier => "<" ++ String.ofList t.text ++ ">"
  | .number | .string => String.ofList t.text
  | .newline => "NEWLINE"
  | .indent => "INDENT"
  | .dedent => "DEDENT"
  | .endOfInput => "END_OF_INPUT"
  | .word w => w.spelling
  | .mark m => m.spelling

end Token

end Hoist.Surface
