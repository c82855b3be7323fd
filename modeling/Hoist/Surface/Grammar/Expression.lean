import Hoist.Surface.Grammar.Constant
import Hoist.Surface.Tree

/-!
# The grammar of expressions

From the loosest to the tightest: lambdas and conditionals, `or`, `and`, `not`, comparisons, the
binary operators by precedence, unary operators, powers, and atoms with calls, subscripts and
attributes behind them.

A rule refers to looser rules only behind a token that it has taken, so the depth of such references
is bounded by the number of tokens. The rules are plain definitions over the rules one level deeper;
`Grammar.level` ties them together, one level for each token.
-/

namespace Hoist.Surface

open Reader

/-- The rules that other rules refer to behind a token of their own. -/
structure Grammar where
  test : Reader Expr
  orTest : Reader Expr
  notTest : Reader Expr
  bitOr : Reader Expr
  factor : Reader Expr
  testList : Reader Expr

namespace Grammar

/-- Whether an expression may start with a token of a kind. -/
def startsExpression : Kind → Bool
  | .identifier | .number | .string => true
  | .word w => [.true_, .false_, .none_, .not_, .lambda_].contains w
  | .mark m => [.parenOpen, .bracketOpen, .braceOpen, .minus, .plus, .tilde, .star].contains m
  | _ => false

/-- The binary operator that a mark stands for. -/
def binaryOperator? : Kind → Option Operator
  | .mark .plus => some .add
  | .mark .minus => some .sub
  | .mark .star => some .mult
  | .mark .at => some .matMult
  | .mark .slash => some .div
  | .mark .doubleSlash => some .floorDiv
  | .mark .percent => some .mod
  | .mark .lshift => some .lshift
  | .mark .rshift => some .rshift
  | .mark .pipe => some .bitOr
  | .mark .caret => some .bitXor
  | .mark .ampersand => some .bitAnd
  | _ => none

/-- The unary operator that a mark stands for. -/
def unaryOperator? : Kind → Option Operator
  | .mark .plus => some .plus
  | .mark .minus => some .minus
  | .mark .tilde => some .invert
  | _ => none

/-- The comparison that starts with the next token, and how many tokens it has. -/
def comparison? (c : Cursor) : Option (Operator × Nat) :=
  match c.head.kind with
  | .mark .less => some (.lt, 1)
  | .mark .greater => some (.gt, 1)
  | .mark .doubleEq => some (.eq, 1)
  | .mark .greaterEq => some (.gtE, 1)
  | .mark .lessEq => some (.ltE, 1)
  | .mark .notEq => some (.notEq, 1)
  | .word .in_ => some (.isIn, 1)
  | .word .not_ => if c.secondKind == .word .in_ then some (.notIn, 2) else none
  | .word .is_ => if c.secondKind == .word .not_ then some (.isNot, 2) else some (.is, 1)
  | _ => none

/-- The span from an offset to the end of the last token. -/
def spanFrom (start : Nat) : Reader Span := return ⟨start, ← lastEnd⟩

/-- The span from the start of one expression to the end of another. -/
def spanning (first last : Expr) : Span := ⟨first.span.start, last.span.stop⟩

/-- Operands joined by the operators of one level, from the left: the operand before the next
operator is everything read so far. -/
def leftFold (operators : List Operator) (operand : Reader Expr) : Nat → Expr → Reader Expr
  | 0, left => return left
  | turns + 1, left => do
    match binaryOperator? (← peek) with
    | none => return left
    | some op =>
      if !operators.contains op then return left
      let _ ← pop
      let right ← operand
      leftFold operators operand turns (.binary (spanning left right) op left right)

/-- One level of binary operators. -/
def binaryLevel (operators : List Operator) (operand : Reader Expr) : Reader Expr := do
  let left ← operand
  leftFold operators operand (← remaining) left

/-- A parameter name. -/
def param : Reader Param := do
  let t ← expect .identifier
  return ⟨⟨t.start, t.stop⟩, String.ofList t.text⟩

/-- A default value behind an equals sign, if there is one. -/
def defaultValue? (g : Grammar) : Reader (Option Expr) := do
  if (← peek) != .mark .equal then return none
  let _ ← pop
  return some (← g.test)

/-- One parameter, added to those before it; `keywordOnly` tells that a star has been read. -/
def oneParam (g : Grammar) (ps : Params Expr) (keywordOnly : Bool) :
    Reader (Params Expr × Bool) := do
  match ← peek with
  | .mark .star =>
    let _ ← pop
    if keywordOnly then unexpected "Only one * is allowed among the parameters."
    if (← peek) == .identifier then return ({ ps with vararg? := some (← param) }, true)
    return (ps, true)
  | .mark .doubleStar =>
    let _ ← pop
    return ({ ps with kwarg? := some (← param) }, keywordOnly)
  | _ =>
    let p ← param
    let value := (← defaultValue? g).toList
    if keywordOnly then
      return ({ ps with
        keywordOnly := ps.keywordOnly ++ [p]
        keywordDefaults := ps.keywordDefaults ++ value }, keywordOnly)
    return ({ ps with
      positional := ps.positional ++ [p]
      defaults := ps.defaults ++ value }, keywordOnly)

/-- Parameters up to a closing token, which stays. Nothing but the closing token may follow the comma
behind a double star. -/
def paramLoop (g : Grammar) (close : Kind) : Nat → Params Expr → Bool → Reader (Params Expr)
  | 0, ps, _ => return ps
  | turns + 1, ps, keywordOnly => do
    if (← peek) == close then return ps
    let (ps, keywordOnly) ← oneParam g ps keywordOnly
    if (← peek) == close then return ps
    let _ ← expect (.mark .comma)
    if ps.kwarg?.isSome then require close
    paramLoop g close turns ps keywordOnly

/-- The parameters of a function or lambda up to a closing token, which stays. -/
def params (g : Grammar) (close : Kind) : Reader (Params Expr) := do
  paramLoop g close ((← remaining) + 1) {} false

/-- Further targets of a loop, each behind a comma; a comma may stand before `in`. -/
def targetLoop (g : Grammar) : Nat → Reader (List Expr)
  | 0 => return []
  | turns + 1 => do
    if (← peek) != .mark .comma then return []
    let _ ← pop
    if (← peek) == .word .in_ then return []
    let e ← g.bitOr
    return e :: (← targetLoop g turns)

/-- The targets of a loop over `bitOr`: more than one form a tuple. -/
def targetListWith (bitOr : Reader Expr) (g : Grammar) : Reader Expr := do
  let start ← start
  let first ← bitOr
  if (← peek) != .mark .comma then return first
  let others ← targetLoop g (← remaining)
  return .tuple (← spanFrom start) (first :: others)

/-- The conditions of a loop in a comprehension. -/
def conditionLoop (g : Grammar) : Nat → Reader (List Expr)
  | 0 => return []
  | turns + 1 => do
    if (← peek) != .word .if_ then return []
    let _ ← pop
    let e ← g.orTest
    return e :: (← conditionLoop g turns)

/-- The loops of a comprehension. -/
def generatorLoop (g : Grammar) : Nat → Reader (List (Generator Expr))
  | 0 => return []
  | turns + 1 => do
    if (← peek) != .word .for_ then return []
    let _ ← pop
    let target ← targetListWith g.bitOr g
    let _ ← expect (.word .in_)
    let iter ← g.orTest
    let conditions ← conditionLoop g (← remaining)
    return ⟨target, iter, conditions⟩ :: (← generatorLoop g turns)

/-- A yield with its value, if an expression follows. -/
def yieldExpr (g : Grammar) : Reader Expr := do
  let t ← expect (.word .yield_)
  if startsExpression (← peek) then
    let value ← g.testList
    return .yield (← spanFrom t.start) (some value)
  return .yield (← spanFrom t.start) none

/-- A starred expression, or what `test` reads. -/
def testOrStarWith (test : Reader Expr) (g : Grammar) : Reader Expr := do
  if (← peek) != .mark .star then return (← test)
  let t ← pop
  let value ← g.bitOr
  return .starred ⟨t.start, value.span.stop⟩ value

/-- Elements separated by commas up to a closing token, which stays, and whether there was a comma. -/
def elementLoop (g : Grammar) (close : Kind) : Nat → Reader (List Expr × Bool)
  | 0 => return ([], false)
  | turns + 1 => do
    if (← peek) == close then return ([], false)
    let e ← testOrStarWith g.test g
    if (← peek) == close then return ([e], false)
    let _ ← expect (.mark .comma)
    let (es, _) ← elementLoop g close turns
    return (e :: es, true)

/-- Elements up to a closing token, with as many turns as there are tokens. -/
def elements (g : Grammar) (close : Kind) : Reader (List Expr × Bool) := do
  elementLoop g close ((← remaining) + 1)

/-- The values of adjacent string tokens, one after the other. -/
def stringLoop : Nat → Reader (List Char)
  | 0 => return []
  | turns + 1 => do
    if (← peek) != .string then return []
    let t ← pop
    let s ← (stringValue t : Except Fault (List Char))
    return s ++ (← stringLoop turns)

/-- What stands between parentheses: a yield, a tuple, or a single expression, which keeps its own
span. -/
def parenthesised (g : Grammar) : Reader Expr := do
  let opening ← pop
  if (← peek) == .word .yield_ then
    let y ← yieldExpr g
    let _ ← expect (.mark .parenClose)
    return y
  let (es, comma) ← elements g (.mark .parenClose)
  let closing ← expect (.mark .parenClose)
  match es, comma with
  | [e], false => return e
  | _, _ => return .tuple ⟨opening.start, closing.stop⟩ es

/-- A list display or a comprehension. -/
def bracketed (g : Grammar) : Reader Expr := do
  let opening ← pop
  if (← peek) == .mark .bracketClose then
    let closing ← expect (.mark .bracketClose)
    return .list ⟨opening.start, closing.stop⟩ []
  let first ← testOrStarWith g.test g
  if (← peek) == .word .for_ then
    let generators ← generatorLoop g (← remaining)
    let closing ← expect (.mark .bracketClose)
    return .listComp ⟨opening.start, closing.stop⟩ first generators
  if (← peek) == .mark .bracketClose then
    let closing ← expect (.mark .bracketClose)
    return .list ⟨opening.start, closing.stop⟩ [first]
  let _ ← expect (.mark .comma)
  let (others, _) ← elements g (.mark .bracketClose)
  let closing ← expect (.mark .bracketClose)
  return .list ⟨opening.start, closing.stop⟩ (first :: others)

/-- The entries of a dict display up to the closing brace, which stays. -/
def entryLoop (g : Grammar) : Nat → Reader (List (Expr × Expr))
  | 0 => return []
  | turns + 1 => do
    if (← peek) == .mark .braceClose then return []
    let key ← g.test
    let _ ← expect (.mark .colon)
    let value ← g.test
    if (← peek) == .mark .braceClose then return [(key, value)]
    let _ ← expect (.mark .comma)
    return (key, value) :: (← entryLoop g turns)

/-- A dict display. -/
def braced (g : Grammar) : Reader Expr := do
  let opening ← pop
  let entries ← entryLoop g ((← remaining) + 1)
  let closing ← expect (.mark .braceClose)
  return .dict ⟨opening.start, closing.stop⟩ entries

/-- The expressions that nothing binds tighter than. -/
def atom (g : Grammar) : Reader Expr := do
  let t ← next
  let span : Span := ⟨t.start, t.stop⟩
  match t.kind with
  | .identifier =>
    let _ ← pop
    return .name span (String.ofList t.text)
  | .number =>
    let _ ← pop
    return .constant span (← (numberValue t : Except Fault Literal))
  | .string =>
    let s ← stringLoop (← remaining)
    return .constant (← spanFrom t.start) (.string (String.ofList s))
  | .word .true_ =>
    let _ ← pop
    return .constant span (.bool true)
  | .word .false_ =>
    let _ ← pop
    return .constant span (.bool false)
  | .word .none_ =>
    let _ ← pop
    return .constant span .none
  | .mark .parenOpen => parenthesised g
  | .mark .bracketOpen => bracketed g
  | .mark .braceOpen => braced g
  | _ => unexpected ""

/-- Whether the next token is one of some marks. -/
def atMark (marks : List Mark) : Reader Bool := do
  match ← peek with
  | .mark m => return marks.contains m
  | _ => return false

/-- The last part of a slice, behind its second colon. -/
def sliceStep (g : Grammar) : Reader (Option Expr) := do
  if (← peek) != .mark .colon then return none
  let _ ← pop
  if ← atMark [.comma, .bracketClose] then return none
  return some (← g.test)

/-- A slice from its first colon on, with the lower end read before it. Any part may be missing. -/
def sliceFrom (g : Grammar) (start : Nat) (lower : Option Expr) : Reader Expr := do
  let _ ← pop
  let upper ← if ← atMark [.colon, .comma, .bracketClose] then pure none else some <$> g.test
  let step ← sliceStep g
  return .slice (← spanFrom start) lower upper step

/-- One item between the brackets of a subscript: an expression or a slice. -/
def subscriptItem (g : Grammar) : Reader Expr := do
  let start ← start
  if (← peek) == .mark .colon then return (← sliceFrom g start none)
  let e ← g.test
  if (← peek) != .mark .colon then return e
  sliceFrom g start (some e)

/-- The items of a subscript, and whether there was a comma. -/
def subscriptLoop (g : Grammar) : Nat → Reader (List Expr × Bool)
  | 0 => return ([], false)
  | turns + 1 => do
    let item ← subscriptItem g
    if (← peek) != .mark .comma then return ([item], false)
    let _ ← pop
    if (← peek) == .mark .bracketClose then return ([item], true)
    let (items, _) ← subscriptLoop g turns
    return (item :: items, true)

/-- What stands between the brackets of a subscript: one item, or a tuple of several, which is
extended when a slice is among them. -/
def subscripts (g : Grammar) : Reader Expr := do
  let start ← start
  let (items, comma) ← subscriptLoop g ((← remaining) + 1)
  match items, comma with
  | [e], false => return e
  | _, _ =>
    let span ← spanFrom start
    return if items.any Expr.isSlice then .extSlice span items else .tuple span items

/-- One argument of a call: spread keywords, a keyword, or a positional value. -/
def oneArgument (g : Grammar) : Reader (Expr ⊕ Keyword Expr) := do
  if (← peek) == .mark .doubleStar then
    let t ← pop
    let value ← g.test
    return .inr ⟨⟨t.start, value.span.stop⟩, none, value⟩
  if (← peek) == .identifier && (← peekSecond) == .mark .equal then
    let t ← pop
    let _ ← pop
    let value ← g.test
    return .inr ⟨⟨t.start, value.span.stop⟩, some (String.ofList t.text), value⟩
  return .inl (← testOrStarWith g.test g)

/-- The arguments of a call up to the closing parenthesis, which stays. -/
def argumentLoop (g : Grammar) : Nat → Reader (List (Expr ⊕ Keyword Expr))
  | 0 => return []
  | turns + 1 => do
    if (← peek) == .mark .parenClose then return []
    let a ← oneArgument g
    if (← peek) == .mark .parenClose then return [a]
    let _ ← expect (.mark .comma)
    return a :: (← argumentLoop g turns)

/-- The positional arguments among the arguments of a call. -/
def positionals (as : List (Expr ⊕ Keyword Expr)) : List Expr :=
  as.filterMap fun | .inl e => some e | .inr _ => none

/-- The keyword arguments among the arguments of a call. -/
def keywords (as : List (Expr ⊕ Keyword Expr)) : List (Keyword Expr) :=
  as.filterMap fun | .inl _ => none | .inr k => some k

/-- Calls, subscripts and attributes behind an expression. -/
def trailerLoop (g : Grammar) : Nat → Expr → Reader Expr
  | 0, e => return e
  | turns + 1, e => do
    match ← peek with
    | .mark .parenOpen =>
      let _ ← pop
      let arguments ← argumentLoop g ((← remaining) + 1)
      let closing ← expect (.mark .parenClose)
      trailerLoop g turns
        (.call ⟨e.span.start, closing.stop⟩ e (positionals arguments) (keywords arguments))
    | .mark .bracketOpen =>
      let _ ← pop
      let index ← subscripts g
      let closing ← expect (.mark .bracketClose)
      trailerLoop g turns (.subscript ⟨e.span.start, closing.stop⟩ e index)
    | .mark .dot =>
      let _ ← pop
      let t ← expect .identifier
      trailerLoop g turns (.attribute ⟨e.span.start, t.stop⟩ e (String.ofList t.text))
    | _ => return e

/-- An atom with everything that is called, indexed or selected behind it. -/
def atomExpr (g : Grammar) : Reader Expr := do
  let e ← atom g
  trailerLoop g (← remaining) e

/-- A power: its exponent may start with a sign. -/
def power (g : Grammar) : Reader Expr := do
  let base ← atomExpr g
  if (← peek) != .mark .doubleStar then return base
  let _ ← pop
  let exponent ← g.factor
  return .binary (spanning base exponent) .pow base exponent

/-- Signs before a power. -/
def factorRule (g : Grammar) : Reader Expr := do
  match unaryOperator? (← peek) with
  | none => power g
  | some op =>
    let t ← pop
    let x ← g.factor
    return .unary ⟨t.start, x.span.stop⟩ op x

/-- The binary operators: products bind tightest, then sums, shifts, and the bitwise operators. -/
def bitOrRule (g : Grammar) : Reader Expr :=
  binaryLevel [.bitOr] <| binaryLevel [.bitXor] <| binaryLevel [.bitAnd] <|
    binaryLevel [.lshift, .rshift] <| binaryLevel [.add, .sub] <|
      binaryLevel [.mult, .div, .floorDiv, .mod, .matMult] <| factorRule g

/-- The comparisons behind a first value. -/
def comparisonLoop (g : Grammar) : Nat → Reader (List (Operator × Expr))
  | 0 => return []
  | turns + 1 => do
    match comparison? (← get) with
    | none => return []
    | some (op, width) =>
      let _ ← pop
      if width == 2 then let _ ← pop
      let e ← g.bitOr
      return (op, e) :: (← comparisonLoop g turns)

/-- A chain of comparisons, or a single value. -/
def comparison (g : Grammar) : Reader Expr := do
  let left ← bitOrRule g
  let rest ← comparisonLoop g (← remaining)
  match rest.getLast? with
  | none => return left
  | some (_, last) => return .compare (spanning left last) left rest

/-- Negations before a comparison. -/
def notRule (g : Grammar) : Reader Expr := do
  if (← peek) != .word .not_ then return (← comparison g)
  let t ← pop
  let x ← g.notTest
  return .unary ⟨t.start, x.span.stop⟩ .not x

/-- The operands behind the first one of a connective. -/
def connectiveLoop (word : Word) (operand : Reader Expr) : Nat → Reader (List Expr)
  | 0 => return []
  | turns + 1 => do
    if (← peek) != .word word then return []
    let _ ← pop
    let e ← operand
    return e :: (← connectiveLoop word operand turns)

/-- Operands joined by a connective, all on one level. -/
def connective (word : Word) (op : Operator) (operand : Reader Expr) : Reader Expr := do
  let first ← operand
  let others ← connectiveLoop word operand (← remaining)
  match others.getLast? with
  | none => return first
  | some last => return .boolean (spanning first last) op (first :: others)

/-- Disjunctions of conjunctions. -/
def orRule (g : Grammar) : Reader Expr :=
  connective .or_ .or (connective .and_ .and (notRule g))

/-- A lambda. -/
def lambdaRule (g : Grammar) : Reader Expr := do
  let t ← pop
  let ps ← params g (.mark .colon)
  let _ ← expect (.mark .colon)
  let body ← g.test
  return .lambda ⟨t.start, body.span.stop⟩ ps body

/-- Lambdas and conditionals, the loosest of single expressions. -/
def testRule (g : Grammar) : Reader Expr := do
  if (← peek) == .word .lambda_ then return (← lambdaRule g)
  let body ← orRule g
  if (← peek) != .word .if_ then return body
  let _ ← pop
  let test ← g.orTest
  let _ ← expect (.word .else_)
  let orelse ← g.test
  return .conditional (spanning body orelse) test body orelse

/-- Further expressions of a list, each behind a comma; the last comma may stand alone. -/
def testListLoop (g : Grammar) : Nat → Reader (List Expr)
  | 0 => return []
  | turns + 1 => do
    if (← peek) != .mark .comma then return []
    let _ ← pop
    if !startsExpression (← peek) then return []
    let e ← testOrStarWith g.test g
    return e :: (← testListLoop g turns)

/-- One expression, or a tuple without parentheses. -/
def testListRule (g : Grammar) : Reader Expr := do
  let first ← testOrStarWith (testRule g) g
  if (← peek) != .mark .comma then return first
  let others ← testListLoop g (← remaining)
  return .tuple (← spanFrom first.span.start) (first :: others)

/-- The rules with a number of levels below them. Below the last level nothing is an expression. -/
def level : Nat → Grammar
  | 0 => ⟨unexpected "", unexpected "", unexpected "", unexpected "", unexpected "", unexpected ""⟩
  | n + 1 =>
    let g := level n
    { test := testRule g
      orTest := orRule g
      notTest := notRule g
      bitOr := bitOrRule g
      factor := factorRule g
      testList := testListRule g }

end Grammar

end Hoist.Surface
