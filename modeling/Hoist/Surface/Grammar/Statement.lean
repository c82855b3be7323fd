import Hoist.Surface.Grammar.Expression
import Hoist.Surface.Lexer

/-!
# The grammar of statements

Simple statements share a line, separated by semicolons; compound statements own blocks, which stand
behind a colon on the same line or indented below. As with expressions, a rule refers to statements
only behind a token that it has taken, and `Blocks.level` ties the rules together.
-/

namespace Hoist.Surface

open Reader

/-- The rules that compound statements refer to behind a token of their own. -/
structure Blocks where
  statement : Reader (List Stmt)
  branch : Reader Stmt

namespace Blocks

/-- The operator of an augmented assignment. -/
def augmented? : Kind → Option Operator
  | .mark .plusEq => some .add
  | .mark .minusEq => some .sub
  | .mark .starEq => some .mult
  | .mark .atEq => some .matMult
  | .mark .slashEq => some .div
  | .mark .floorDivEq => some .floorDiv
  | .mark .percentEq => some .mod
  | .mark .powEq => some .pow
  | .mark .lshiftEq => some .lshift
  | .mark .rshiftEq => some .rshift
  | .mark .pipeEq => some .bitOr
  | .mark .caretEq => some .bitXor
  | .mark .ampersandEq => some .bitAnd
  | _ => none

/-- Whether a simple statement ends before a token of a kind. -/
def endsSimple (kind : Kind) : Bool := kind == .newline || kind == .mark .semicolon

/-- A value that is missing at the end of a statement. -/
def valueBeforeEnd (g : Grammar) : Reader (Option Expr) := do
  if endsSimple (← peek) then return none
  return some (← g.testList)

/-- The right side of an assignment, or an expression that stands alone: a yield needs no
parentheses there. -/
def rightSide (g : Grammar) : Reader Expr := do
  if (← peek) != .word .yield_ then return (← g.testList)
  let t ← pop
  let value ← valueBeforeEnd g
  return .yield (← Grammar.spanFrom t.start) value

/-- The name at a cursor. -/
def nameOf : Reader String := return String.ofList (← expect .identifier).text

/-- Further names, each behind a comma. -/
def nameLoop : Nat → Reader (List String)
  | 0 => return []
  | turns + 1 => do
    if (← peek) != .mark .comma then return []
    let _ ← pop
    let n ← nameOf
    return n :: (← nameLoop turns)

/-- The right sides of a chain of assignments. -/
def assignLoop (g : Grammar) : Nat → Reader (List Expr)
  | 0 => return []
  | turns + 1 => do
    if (← peek) != .mark .equal then return []
    let _ ← pop
    let e ← rightSide g
    return e :: (← assignLoop g turns)

/-- An expression, an augmented assignment, or a chain of assignments, whose last part is the value. -/
def expressionStatement (g : Grammar) (start : Nat) : Reader Stmt := do
  let first ← rightSide g
  match augmented? (← peek) with
  | some op =>
    let _ ← pop
    let value ← rightSide g
    return .augAssign (← Grammar.spanFrom start) first op value
  | none =>
    let others ← assignLoop g (← remaining)
    let span ← Grammar.spanFrom start
    match others.getLast? with
    | none => return .expr span first
    | some value => return .assign span (first :: others.dropLast) value

/-- A statement that owns no block. -/
def simple (g : Grammar) : Reader Stmt := do
  let t ← next
  match t.kind with
  | .word .return_ =>
    let _ ← pop
    let value ← valueBeforeEnd g
    return .returnValue (← Grammar.spanFrom t.start) value
  | .word .pass_ =>
    let _ ← pop
    return .pass (← Grammar.spanFrom t.start)
  | .word .break_ =>
    let _ ← pop
    return .breakLoop (← Grammar.spanFrom t.start)
  | .word .continue_ =>
    let _ ← pop
    return .continueLoop (← Grammar.spanFrom t.start)
  | .word .raise_ =>
    let _ ← pop
    let exc ← valueBeforeEnd g
    return .raise (← Grammar.spanFrom t.start) exc
  | .word .global_ | .word .nonlocal_ =>
    let _ ← pop
    let first ← nameOf
    let others ← nameLoop (← remaining)
    return .scopeDecl (← Grammar.spanFrom t.start) (t.kind == .word .nonlocal_) (first :: others)
  | _ => expressionStatement g t.start

/-- Simple statements separated by semicolons, up to the line end; the last semicolon may stand
alone. -/
def simpleLoop (g : Grammar) : Nat → Reader (List Stmt)
  | 0 => return []
  | turns + 1 => do
    let s ← simple g
    if (← peek) != .mark .semicolon then return [s]
    let _ ← pop
    if (← peek) == .newline then return [s]
    return s :: (← simpleLoop g turns)

/-- The simple statements of a line. -/
def simpleLine (g : Grammar) : Reader (List Stmt) := do
  let ss ← simpleLoop g ((← remaining) + 1)
  let _ ← expect .newline
  return ss

/-- Statements up to the end of an indented block, which stays. -/
def statementLoop (b : Blocks) : Nat → Reader (List Stmt)
  | 0 => return []
  | turns + 1 => do
    if (← peek) == .dedent then return []
    let ss ← b.statement
    return ss ++ (← statementLoop b turns)

/-- The block of a compound statement, from its colon on. -/
def suite (g : Grammar) (b : Blocks) : Reader (List Stmt) := do
  let _ ← expect (.mark .colon)
  if (← peek) != .newline then return (← simpleLine g)
  let _ ← pop
  let _ ← expect .indent
  let ss ← statementLoop b ((← remaining) + 1)
  let _ ← pop
  return ss

/-- The block behind a keyword, empty when the keyword is missing. -/
def optionalSuite (g : Grammar) (b : Blocks) (word : Word) : Reader (List Stmt) := do
  if (← peek) != .word word then return []
  let _ ← pop
  suite g b

/-- A function definition that starts, decorators included, at an offset. -/
def functionDef (g : Grammar) (b : Blocks) (start : Nat) (decorators : List Expr) :
    Reader Stmt := do
  let _ ← expect (.word .def_)
  let name ← nameOf
  let _ ← expect (.mark .parenOpen)
  let ps ← Grammar.params g (.mark .parenClose)
  let _ ← expect (.mark .parenClose)
  let body ← suite g b
  return .functionDef (← Grammar.spanFrom start) name ps body decorators

/-- A conditional statement from `if` or `elif` on; an `elif` is a conditional of its own in the other
branch. -/
def branchRule (g : Grammar) (b : Blocks) : Reader Stmt := do
  let t ← pop
  let test ← g.test
  let body ← suite g b
  let orelse ←
    if (← peek) == .word .elif_ then (do return [← b.branch])
    else optionalSuite g b .else_
  return .ifElse (← Grammar.spanFrom t.start) test body orelse

/-- A while loop. -/
def whileRule (g : Grammar) (b : Blocks) : Reader Stmt := do
  let t ← expect (.word .while_)
  let test ← g.test
  let body ← suite g b
  let orelse ← optionalSuite g b .else_
  return .whileLoop (← Grammar.spanFrom t.start) test body orelse

/-- A for loop. -/
def forRule (g : Grammar) (b : Blocks) : Reader Stmt := do
  let t ← expect (.word .for_)
  let target ← Grammar.targetListWith g.bitOr g
  let _ ← expect (.word .in_)
  let iter ← g.testList
  let body ← suite g b
  let orelse ← optionalSuite g b .else_
  return .forLoop (← Grammar.spanFrom t.start) target iter body orelse

/-- The type of a handler and the name it gives to the exception, if they are there. -/
def handlerHead (g : Grammar) : Reader (Option Expr × Option String) := do
  if (← peek) == .mark .colon then return (none, none)
  let type ← g.test
  if (← peek) != .word .as_ then return (some type, none)
  let _ ← pop
  return (some type, some (← nameOf))

/-- The handlers of a try statement. -/
def handlerLoop (g : Grammar) (b : Blocks) : Nat → Reader (List (Handler Stmt))
  | 0 => return []
  | turns + 1 => do
    if (← peek) != .word .except_ then return []
    let t ← pop
    let (type, name) ← handlerHead g
    let body ← suite g b
    let span ← Grammar.spanFrom t.start
    return ⟨span, type, name, body⟩ :: (← handlerLoop g b turns)

/-- A try statement, which needs a handler or a final block. -/
def tryRule (g : Grammar) (b : Blocks) : Reader Stmt := do
  let t ← expect (.word .try_)
  let body ← suite g b
  let handlers ← handlerLoop g b (← remaining)
  let orelse ← optionalSuite g b .else_
  let finalbody ← optionalSuite g b .finally_
  if handlers.isEmpty && finalbody.isEmpty then require (.word .except_)
  return .tryExcept (← Grammar.spanFrom t.start) body handlers orelse finalbody

/-- Decorators, each on a line of its own. -/
def decoratorLoop (g : Grammar) : Nat → Reader (List Expr)
  | 0 => return []
  | turns + 1 => do
    if (← peek) != .mark .at then return []
    let _ ← pop
    let e ← g.test
    let _ ← expect .newline
    return e :: (← decoratorLoop g turns)

/-- A compound statement, or the simple statements of a line. -/
def statementRule (g : Grammar) (b : Blocks) : Reader (List Stmt) := do
  let t ← next
  match t.kind with
  | .mark .at =>
    let decorators ← decoratorLoop g (← remaining)
    require (.word .def_)
    return [← functionDef g b t.start decorators]
  | .word .def_ => return [← functionDef g b t.start []]
  | .word .if_ => return [← branchRule g b]
  | .word .while_ => return [← whileRule g b]
  | .word .for_ => return [← forRule g b]
  | .word .try_ => return [← tryRule g b]
  | .indent => unexpected "Unexpected indentation."
  | _ => simpleLine g

/-- The rules with a number of levels below them. Below the last level nothing is a statement. -/
def level (g : Grammar) : Nat → Blocks
  | 0 => ⟨unexpected "", unexpected ""⟩
  | n + 1 =>
    let b := level g n
    { statement := statementRule g b
      branch := branchRule g b }

/-- The statements of a module up to the end of the input; empty lines are skipped. -/
def moduleLoop (b : Blocks) : Nat → Reader (List Stmt)
  | 0 => return []
  | turns + 1 => do
    match ← peek with
    | .endOfInput => return []
    | .newline =>
      let _ ← pop
      moduleLoop b turns
    | _ =>
      let ss ← b.statement
      return ss ++ (← moduleLoop b turns)

end Blocks

/-- The rules of expressions for what is left to read. -/
def readGrammar : Reader Grammar := return .level ((← remaining) + 1)

/-- Reads one expression, or a tuple without parentheses. -/
def readExpression : Reader Expr := do (← readGrammar).testList

/-- Reads one statement, or the simple statements of one line. -/
def readStatement : Reader (List Stmt) := do
  let g ← readGrammar
  (Blocks.level g ((← remaining) + 1)).statement

/-- Reads statements up to the end of the input. -/
def readStatements : Reader (List Stmt) := do
  let g ← readGrammar
  Blocks.moduleLoop (.level g ((← remaining) + 1)) ((← remaining) + 1)

/-- What a reader reads from the front of a text, and the cursor it leaves. -/
def readFront {α : Type} (reader : Reader α) (text : List Char) : Except Fault (α × Cursor) := do
  reader.run (.ofTokens (← tokenize text))

/-- The module that a text holds. -/
def readModule (text : List Char) : Except Fault Module := do
  let (body, _) ← readFront readStatements text
  return ⟨⟨0, text.length⟩, body⟩

end Hoist.Surface
