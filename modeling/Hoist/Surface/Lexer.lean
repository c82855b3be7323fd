import Hoist.Surface.Fault
import Hoist.Surface.Numeral

/-!
# The lexer

A text is cut into tokens from left to right. Lines matter: outside brackets a line end is a token,
and the blanks at the start of a line open and close blocks. Blanks inside a line, comments and
joined lines leave no token, and neither do lines that hold nothing else.

`scan` reads one step and goes on with a shorter text; the last tokens close what is still open.
-/

namespace Hoist.Surface.Lexer

/-- The column a margin reaches: a tab goes to the next multiple of eight. -/
def marginWidth (margin : List Char) : Nat :=
  margin.foldl (fun w c => if c == '\t' then (w / 8 + 1) * 8 else w + 1) 0

/-- Looks for the end of a string after `i` of its characters: the offset behind the closing quotes,
or the offset at which the search gave up. A backslash hides the character after it. -/
def stringEnd (closing : List Char) : List Char → Nat → Except Nat Nat
  | [], i => .error i
  | ['\\'], i => .error (i + 2)
  | '\\' :: _ :: rest, i => stringEnd closing rest (i + 2)
  | c :: rest, i =>
    if closing.length == 1 && c == '\n' then .error i
    else if closing.isPrefixOf (c :: rest) then .ok (i + closing.length)
    else stringEnd closing rest (i + 1)

/-- The quotes that close the string at the front of a text: three when it starts with three. -/
def closingQuotes (q : Char) (rest : List Char) : List Char :=
  if rest.take 2 == [q, q] then [q, q, q] else [q]

/-- The length of the string literal at the front of a text. -/
def stringLength (pos : Nat) (q : Char) (rest : List Char) : Except Fault Nat :=
  let closing := closingQuotes q rest
  match stringEnd closing ((q :: rest).drop closing.length) closing.length with
  | .ok n => .ok n
  | .error i => .error ⟨.unterminatedString, pos, Text.line ((q :: rest).take i)⟩

/-- The length of the numeral at the front of a text; a letter must not follow it. -/
def numberLength (pos : Nat) (cs : List Char) : Except Fault Nat :=
  let rest := (Numeral.scan cs).2
  let length := cs.length - rest.length
  if rest.head?.any Text.isIdent then .error ⟨.malformedNumber, pos, cs.take (length + 1)⟩
  else .ok length

/-- The kind and the length of the token at the front of a text that starts with no blank. -/
def lexeme (pos : Nat) (c : Char) (rest : List Char) : Except Fault (Kind × Nat) :=
  if c == '\'' || c == '"' then (Kind.string, ·) <$> stringLength pos c rest
  else if Numeral.starts (c :: rest) then (Kind.number, ·) <$> numberLength pos (c :: rest)
  else if Text.isIdent c then
    let run := c :: rest.takeWhile Text.isIdent
    match Word.ofSpelling? run with
    | some w => .ok (.word w, run.length)
    | none => .ok (.identifier, run.length)
  else
    match Mark.ofFront? (c :: rest) with
    | some m => .ok (.mark m, m.spelling.length)
    | none => .error ⟨.strayCharacter, pos, [c]⟩

/-- What the lexer knows of the text behind it. -/
structure Context where
  /-- The margins of the open blocks, innermost first. -/
  indents : List Nat
  /-- The open brackets, innermost first. -/
  brackets : List Token
  /-- Whether the last token is one that a line end has to follow. -/
  unended : Bool

/-- Nothing is open at the start of a text. -/
def Context.start : Context := ⟨[], [], false⟩

/-- The layout tokens at a line with a margin, and the blocks that are open after them. The margin
opens a block when it is wider than the innermost one; otherwise it must be the margin of an open
block, and closes those inside it. -/
def layout (indents : List Nat) (width pos : Nat) (rest : List Char) :
    Except Fault (List Token × List Nat) :=
  if indents.headD 0 < width then .ok ([⟨.indent, pos, []⟩], width :: indents)
  else
    let inner := indents.takeWhile (width < ·)
    let outer := indents.dropWhile (width < ·)
    if outer.headD 0 == width then .ok (inner.map fun _ => ⟨.dedent, pos, []⟩, outer)
    else .error ⟨.misplacedIndentation, pos, rest.take 1⟩

/-- The open brackets after a token. -/
def matchBracket (brackets : List Token) (t : Token) : Except Fault (List Token) :=
  match t.kind with
  | .mark m =>
    if m.closing?.isSome then .ok (t :: brackets)
    else if m.isClosing then
      match brackets with
      | ⟨.mark o, _, _⟩ :: outer =>
        if o.closing? == some m then .ok outer
        else .error ⟨.unexpected "It does not close any open bracket.", t.start, t.text⟩
      | _ => .error ⟨.unexpected "It does not close any open bracket.", t.start, t.text⟩
    else .ok brackets
  | _ => .ok brackets

/-- The tokens at the end of a text: a line end where one is missing, and the end of every open
block. An open bracket is a fault. -/
def finish (context : Context) (pos : Nat) : Except Fault (List Token) :=
  match context.brackets with
  | b :: _ => .error ⟨.unclosedBracket, b.start, b.text⟩
  | [] => .ok ((if context.unended then [⟨.newline, pos, []⟩] else []) ++
      context.indents.map (fun _ => ⟨.dedent, pos, []⟩) ++ [⟨.endOfInput, pos, []⟩])

/-- The tokens of a text that starts at `pos`; `atMargin` tells that a new line starts there. -/
def scan (context : Context) (atMargin : Bool) (pos : Nat) (cs : List Char) :
    Except Fault (List Token) :=
  match atMargin with
  | true =>
    let margin := cs.takeWhile Text.isIndent
    let start := pos + margin.length
    match _hr : cs.dropWhile Text.isIndent with
    | [] => finish context start
    | c :: tail =>
      if c == '\n' || c == '\r' || c == '#' then
        let next := Text.afterLine (c :: tail)
        scan context true (start + (tail.length + 1 - next.length)) next
      else do
        let (tokens, indents) ← layout context.indents (marginWidth margin) start (c :: tail)
        let unended := context.unended || !tokens.isEmpty
        return tokens ++ (← scan ⟨indents, context.brackets, unended⟩ false start (c :: tail))
  | false =>
    match cs with
    | [] => finish context pos
    | c :: rest =>
      if Text.isBlank c then scan context false (pos + 1) rest
      else if c == '\\' && rest.head? == some '\n' then
        scan context false (pos + 2) (rest.drop 1)
      else if c == '#' then
        let next := rest.dropWhile (· != '\n')
        scan context false (pos + 1 + (rest.length - next.length)) next
      else if c == '\n' then
        if context.brackets.isEmpty then do
          let tokens ← scan ⟨context.indents, [], false⟩ true (pos + 1) rest
          return ⟨.newline, pos, ['\n']⟩ :: tokens
        else scan context false (pos + 1) rest
      else do
        let (kind, length) ← lexeme pos c rest
        let token : Token := ⟨kind, pos, (c :: rest).take length⟩
        let brackets ← matchBracket context.brackets token
        let tokens ← scan ⟨context.indents, brackets, true⟩ false (pos + length)
          (rest.drop (length - 1))
        return token :: tokens
termination_by 2 * cs.length + atMargin.toNat
decreasing_by
  · have h := Text.length_dropWhile_le Text.isIndent cs
    have hn := Text.length_afterLine_lt c tail
    rw [_hr] at h
    show 2 * (Text.afterLine (c :: tail)).length + 1 < 2 * cs.length + 1
    omega
  · have h := Text.length_dropWhile_le Text.isIndent cs
    rw [_hr] at h
    show 2 * (c :: tail).length + 0 < 2 * cs.length + 1
    omega
  all_goals
    have h := Text.length_dropWhile_le (· != '\n') rest
    simp only [List.length_cons, List.length_drop, Bool.toNat_true, Bool.toNat_false]
    omega

end Lexer

/-- The tokens of a text. -/
def tokenize (text : List Char) : Except Fault (List Token) :=
  Lexer.scan .start true 0 text

end Hoist.Surface
