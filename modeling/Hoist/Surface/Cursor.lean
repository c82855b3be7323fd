import Hoist.Surface.Fault

/-!
# Reading tokens

A cursor stands between the tokens that were taken and those still to be read, and sees both. Readers
take tokens from the front of a cursor or stop with a fault; the end of the input is never taken away,
so there is always a next token to look at.
-/

namespace Hoist.Surface

/-- A place among tokens. -/
structure Cursor where
  /-- The tokens taken so far, the latest first. -/
  taken : List Token
  rest : List Token
deriving Repr

/-- A computation that reads tokens. -/
abbrev Reader := StateT Cursor (Except Fault)

namespace Cursor

/-- The cursor before the first of some tokens. -/
def ofTokens (tokens : List Token) : Cursor := ⟨[], tokens⟩

/-- The end of the last token taken that was no layout. -/
def lastEnd (c : Cursor) : Nat :=
  match c.taken.find? fun t => !t.kind.isLayout with
  | some t => t.stop
  | none => 0

/-- The next token. -/
def head (c : Cursor) : Token := c.rest.headD ⟨.endOfInput, c.lastEnd, []⟩

/-- The kind of the token behind the next one, or of the next one if it is the last. -/
def secondKind (c : Cursor) : Kind := ((c.rest.drop 1).headD c.head).kind

/-- All tokens, taken or not. -/
def tokens (c : Cursor) : List Token := c.taken.reverse ++ c.rest

/-- The kind of the token at a distance from the next one. Places are counted modulo 2 ^ 64, so that
the distance 2 ^ 64 - n leads n tokens back; a place where no token is stands for the last token. -/
def kindAt (c : Cursor) (distance : UInt64) : Kind :=
  let place := (c.taken.length.toUInt64 + distance).toNat
  match c.tokens[place]? <|> c.tokens.getLast? with
  | some t => t.kind
  | none => .endOfInput

/-- The cursor behind the next token. -/
def advance (c : Cursor) : Cursor :=
  match c.rest with
  | [] => c
  | t :: rest => if t.kind == .endOfInput then c else ⟨t :: c.taken, rest⟩

/-- No token is lost on the way. -/
theorem tokens_advance (c : Cursor) : c.advance.tokens = c.tokens := by
  unfold advance
  split
  · rfl
  · next t rest h =>
    split
    · rfl
    · simp [tokens, h]

/-- Whether nothing but the end of the input is left. -/
def atEnd (c : Cursor) : Bool := c.head.kind == .endOfInput

end Cursor

namespace Reader

/-- The next token, which stays. -/
def next : Reader Token := return (← get).head

/-- The kind of the next token. -/
def peek : Reader Kind := return (← next).kind

/-- The kind of the token behind the next one. -/
def peekSecond : Reader Kind := return (← get).secondKind

/-- Takes the next token. -/
def pop : Reader Token := do
  let t ← next
  modify Cursor.advance
  return t

/-- Refuses the next token, with a note that may be empty. -/
def unexpected {α : Type} (note : String) : Reader α := do
  let t ← next
  throw ⟨.unexpected note, t.start, t.text⟩

/-- Requires the next token to be of a kind. -/
def require (kind : Kind) : Reader Unit := do
  let t ← next
  if t.kind != kind then throw ⟨.expected kind, t.start, t.text⟩

/-- Requires the next token to be of one of some kinds. -/
def requireAny (kinds : List Kind) : Reader Unit := do
  if !kinds.contains (← peek) then unexpected ""

/-- Takes the next token, which must be of a kind. -/
def expect (kind : Kind) : Reader Token := do
  require kind
  pop

/-- The offset of the next token. -/
def start : Reader Nat := return (← next).start

/-- The end of the last token that was no layout. -/
def lastEnd : Reader Nat := return (← get).lastEnd

/-- How many tokens are left: no loop that takes a token in each turn has more turns. -/
def remaining : Reader Nat := return (← get).rest.length

end Reader

end Hoist.Surface
