import Hoist.Literal
import Hoist.Surface.Operator

/-!
# Trees of the surface language

Expressions and statements, each with the span of text it was read from. The language is wider than
what can be lowered, so that what cannot is refused where its meaning is at stake, with its span.
-/

namespace Hoist.Surface

/-- A piece of a text, from an offset up to another. -/
structure Span where
  start : Nat
  stop : Nat
deriving DecidableEq, Repr, Inhabited

/-- A name that a function binds when it is called. -/
structure Param where
  span : Span
  name : String
deriving DecidableEq, Repr, Inhabited

/-- The parameters of a function. Default values stand apart from the names they belong to. -/
structure Params (ε : Type) where
  positional : List Param := []
  vararg? : Option Param := none
  keywordOnly : List Param := []
  kwarg? : Option Param := none
  defaults : List ε := []
  keywordDefaults : List ε := []
deriving Repr, Inhabited

/-- A keyword argument of a call; without a name it spreads its value. -/
structure Keyword (ε : Type) where
  span : Span
  name? : Option String
  value : ε
deriving Repr, Inhabited

/-- A loop of a list comprehension, with its conditions. -/
structure Generator (ε : Type) where
  target : ε
  iter : ε
  conditions : List ε
deriving Repr, Inhabited

/-- An expression. -/
inductive Expr
  | name (span : Span) (id : String)
  | constant (span : Span) (value : Literal)
  | binary (span : Span) (op : Operator) (left right : Expr)
  | unary (span : Span) (op : Operator) (operand : Expr)
  | boolean (span : Span) (op : Operator) (values : List Expr)
  /-- A chain of comparisons: a first value, then an operator and a value for each. -/
  | compare (span : Span) (left : Expr) (rest : List (Operator × Expr))
  | call (span : Span) (callee : Expr) (args : List Expr) (keywords : List (Keyword Expr))
  | attribute (span : Span) (value : Expr) (attr : String)
  | subscript (span : Span) (value index : Expr)
  | slice (span : Span) (lower upper step : Option Expr)
  | extSlice (span : Span) (dims : List Expr)
  | tuple (span : Span) (elems : List Expr)
  | list (span : Span) (elems : List Expr)
  | dict (span : Span) (entries : List (Expr × Expr))
  | lambda (span : Span) (params : Params Expr) (body : Expr)
  | conditional (span : Span) (test body orelse : Expr)
  | listComp (span : Span) (elem : Expr) (generators : List (Generator Expr))
  | starred (span : Span) (value : Expr)
  | yield (span : Span) (value : Option Expr)
deriving Inhabited, Repr

namespace Expr

/-- The piece of text an expression was read from. -/
def span : Expr → Span
  | .name s _ | .constant s _ | .binary s _ _ _ | .unary s _ _ | .boolean s _ _ | .compare s _ _
  | .call s _ _ _ | .attribute s _ _ | .subscript s _ _ | .slice s _ _ _ | .extSlice s _
  | .tuple s _ | .list s _ | .dict s _ | .lambda s _ _ | .conditional s _ _ _ | .listComp s _ _
  | .starred s _ | .yield s _ => s

/-- What an expression is called in messages. -/
def describe : Expr → String
  | .name .. => "name"
  | .constant .. => "constant"
  | .binary .. => "binary operation"
  | .unary .. => "unary operation"
  | .boolean .. => "boolean operation"
  | .compare .. => "comparison"
  | .call .. => "call"
  | .attribute .. => "attribute access"
  | .subscript .. => "subscript"
  | .slice .. => "slice"
  | .extSlice .. => "extended slice"
  | .tuple .. => "tuple"
  | .list .. => "list display"
  | .dict .. => "dict display"
  | .lambda .. => "lambda"
  | .conditional .. => "conditional expression"
  | .listComp .. => "list comprehension"
  | .starred .. => "starred expression"
  | .yield .. => "yield expression"

/-- Whether an expression is a slice. -/
def isSlice : Expr → Bool
  | .slice .. => true
  | _ => false

end Expr

/-- A handler of a try statement; without a type it takes every exception. -/
structure Handler (σ : Type) where
  span : Span
  type? : Option Expr
  name? : Option String
  body : List σ
deriving Repr, Inhabited

/-- A statement. -/
inductive Stmt
  | expr (span : Span) (value : Expr)
  | assign (span : Span) (targets : List Expr) (value : Expr)
  | augAssign (span : Span) (target : Expr) (op : Operator) (value : Expr)
  | functionDef (span : Span) (name : String) (params : Params Expr) (body : List Stmt)
      (decorators : List Expr)
  | returnValue (span : Span) (value : Option Expr)
  | ifElse (span : Span) (test : Expr) (body orelse : List Stmt)
  | whileLoop (span : Span) (test : Expr) (body orelse : List Stmt)
  | forLoop (span : Span) (target iter : Expr) (body orelse : List Stmt)
  | tryExcept (span : Span) (body : List Stmt) (handlers : List (Handler Stmt))
      (orelse finalbody : List Stmt)
  | raise (span : Span) (exc : Option Expr)
  | breakLoop (span : Span)
  | continueLoop (span : Span)
  | pass (span : Span)
  | scopeDecl (span : Span) (nonlocal : Bool) (names : List String)
deriving Inhabited, Repr

namespace Stmt

/-- The piece of text a statement was read from. -/
def span : Stmt → Span
  | .expr s _ | .assign s _ _ | .augAssign s _ _ _ | .functionDef s _ _ _ _ | .returnValue s _
  | .ifElse s _ _ _ | .whileLoop s _ _ _ | .forLoop s _ _ _ _ | .tryExcept s _ _ _ _ | .raise s _
  | .breakLoop s | .continueLoop s | .pass s | .scopeDecl s _ _ => s

/-- What a statement is called in messages. -/
def describe : Stmt → String
  | .expr .. => "expression statement"
  | .assign .. => "assignment"
  | .augAssign .. => "augmented assignment"
  | .functionDef .. => "function definition"
  | .returnValue .. => "return statement"
  | .ifElse .. => "if statement"
  | .whileLoop .. => "while loop"
  | .forLoop .. => "for loop"
  | .tryExcept .. => "try statement"
  | .raise .. => "raise statement"
  | .breakLoop .. => "break statement"
  | .continueLoop .. => "continue statement"
  | .pass .. => "pass statement"
  | .scopeDecl _ nonlocal _ => if nonlocal then "nonlocal declaration" else "global declaration"

end Stmt

/-- A text as a sequence of statements. Its span is the whole text. -/
structure Module where
  span : Span
  body : List Stmt
deriving Inhabited, Repr

end Hoist.Surface
