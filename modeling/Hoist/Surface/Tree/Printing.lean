import Hoist.Sexp
import Hoist.Surface.Tree

/-!
# Trees as s-expressions

The s-expression of a tree starts with the kind of its root and holds those of its parts. What is
missing from a slice, a raise, a yield or a handler is written as an underscore; spans are not written.
-/

namespace Hoist.Surface

open Hoist.Sexp

/-- A list that starts with a tag. -/
def tagged (tag : String) (items : List Sexp) : Sexp := .list (.atom tag :: items)

/-- The names of parameters in printed order. -/
def paramSexps (ps : Params Expr) : List Sexp :=
  ps.positional.map (fun p => .atom p.name) ++
  (ps.vararg?.toList.map fun p => .atom ("*" ++ p.name)) ++
  (ps.keywordOnly.map fun p => tagged "kwonly" [.atom p.name]) ++
  (ps.kwarg?.toList.map fun p => .atom ("**" ++ p.name))

/-- Default values after the names, if there are any. Those of keyword-only parameters are not
written. -/
def defaultSexps (defaults : List Sexp) : List Sexp :=
  if defaults.isEmpty then [] else [tagged "defaults" defaults]

mutual

/-- The s-expression of an expression. -/
def Expr.sexp : Expr → Sexp
  | .name _ id => tagged "name" [.atom id]
  | .constant _ v => tagged "const" [.atom v.writeSurface]
  | .binary _ op l r => tagged "bin_op" [.atom op.name, l.sexp, r.sexp]
  | .unary _ op x => tagged "unary_op" [.atom op.name, x.sexp]
  | .boolean _ op vs => tagged "bool_op" (.atom op.name :: exprSexps vs)
  | .compare _ l rest => tagged "compare" (l.sexp :: comparisonSexps rest)
  | .call _ f args ks => tagged "call" (f.sexp :: (exprSexps args ++ keywordSexps ks))
  | .attribute _ v attr => tagged "attr" [v.sexp, .atom attr]
  | .subscript _ v i => tagged "subscript" [v.sexp, i.sexp]
  | .slice _ a b c => tagged "slice" [optionSexp a, optionSexp b, optionSexp c]
  | .extSlice _ dims => tagged "ext_slice" (exprSexps dims)
  | .tuple _ es => tagged "tuple" (exprSexps es)
  | .list _ es => tagged "list" (exprSexps es)
  | .dict _ entries => tagged "dict" (entrySexps entries)
  | .lambda _ ps b => tagged "lambda" [.list (paramSexps ps ++ defaultsOf ps), b.sexp]
  | .conditional _ t b o => tagged "if_exp" [t.sexp, b.sexp, o.sexp]
  | .listComp _ e gs => tagged "list_comp" (e.sexp :: generatorSexps gs)
  | .starred _ v => tagged "starred" [v.sexp]
  | .yield _ v => tagged "yield" [optionSexp v]

/-- The s-expressions of several expressions. -/
def exprSexps : List Expr → List Sexp
  | [] => []
  | e :: es => e.sexp :: exprSexps es

/-- The s-expression of an expression that may be missing. -/
def optionSexp : Option Expr → Sexp
  | none => .atom "_"
  | some e => e.sexp

/-- The operators and values of a chain of comparisons. -/
def comparisonSexps : List (Operator × Expr) → List Sexp
  | [] => []
  | (op, e) :: rest => tagged op.name [e.sexp] :: comparisonSexps rest

/-- The keyword arguments of a call. -/
def keywordSexps : List (Keyword Expr) → List Sexp
  | [] => []
  | ⟨_, none, v⟩ :: rest => tagged "**" [v.sexp] :: keywordSexps rest
  | ⟨_, some n, v⟩ :: rest => tagged "=" [.atom n, v.sexp] :: keywordSexps rest

/-- The entries of a dict display. -/
def entrySexps : List (Expr × Expr) → List Sexp
  | [] => []
  | (k, v) :: rest => .list [k.sexp, v.sexp] :: entrySexps rest

/-- The loops of a comprehension. -/
def generatorSexps : List (Generator Expr) → List Sexp
  | [] => []
  | ⟨t, i, cs⟩ :: rest =>
    tagged "for" (t.sexp :: i.sexp :: exprSexps cs) :: generatorSexps rest

/-- The default values of parameters. -/
def defaultsOf : Params Expr → List Sexp
  | ⟨_, _, _, _, ds, _⟩ => defaultSexps (exprSexps ds)

end

mutual

/-- The s-expression of a statement. -/
def Stmt.sexp : Stmt → Sexp
  | .expr _ v => tagged "expr" [v.sexp]
  | .assign _ ts v => tagged "=" (exprSexps ts ++ [v.sexp])
  | .augAssign _ t op v => tagged "aug_assign" [.atom op.name, t.sexp, v.sexp]
  | .functionDef _ name ps b ds =>
    tagged "def" ([.atom name, .list (paramSexps ps ++ defaultsOf ps)] ++
      (if ds.isEmpty then [] else [tagged "@" (exprSexps ds)]) ++ [.list (stmtSexps b)])
  | .returnValue _ none => tagged "return" []
  | .returnValue _ (some v) => tagged "return" [v.sexp]
  | .ifElse _ t b o => tagged "if" [t.sexp, .list (stmtSexps b), .list (stmtSexps o)]
  | .whileLoop _ t b o => tagged "while" [t.sexp, .list (stmtSexps b), .list (stmtSexps o)]
  | .forLoop _ t i b o =>
    tagged "for" [t.sexp, i.sexp, .list (stmtSexps b), .list (stmtSexps o)]
  | .tryExcept _ b hs o f =>
    tagged "try" (.list (stmtSexps b) ::
      (handlerSexps hs ++ [.list (stmtSexps o), .list (stmtSexps f)]))
  | .raise _ v => tagged "raise" [optionSexp v]
  | .breakLoop _ => tagged "break" []
  | .continueLoop _ => tagged "continue" []
  | .pass _ => tagged "pass" []
  | .scopeDecl _ nonlocal names =>
    tagged (if nonlocal then "nonlocal" else "global") (names.map .atom)

/-- The s-expressions of a block. -/
def stmtSexps : List Stmt → List Sexp
  | [] => []
  | s :: ss => s.sexp :: stmtSexps ss

/-- The s-expressions of the handlers of a try statement. -/
def handlerSexps : List (Handler Stmt) → List Sexp
  | [] => []
  | ⟨_, type, name, body⟩ :: rest =>
    tagged "except" [optionSexp type, .atom (name.getD ""), .list (stmtSexps body)] ::
      handlerSexps rest

end

/-- The s-expression of a block. -/
def blockSexp (body : List Stmt) : Sexp := .list (stmtSexps body)

/-- The s-expression of a module: the list of its statements. -/
def Module.sexp (m : Module) : Sexp := blockSexp m.body

end Hoist.Surface
