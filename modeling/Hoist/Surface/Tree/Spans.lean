import Hoist.Surface.Tree

/-!
# The spans of a tree

Every element of a tree with what it is called and the span it covers, an element before its parts.
Parameters, keyword arguments and handlers are elements of their own.
-/

namespace Hoist.Surface

/-- An element of a tree: what it is called, and its span. -/
structure Labelled where
  label : String
  span : Span
deriving DecidableEq, Repr

/-- The names of parameters, in the order of the grammar. -/
def paramSpans (ps : Params Expr) : List Labelled :=
  ps.positional.map (fun p => ⟨"arg", p.span⟩) ++
  (ps.vararg?.toList.map fun p => ⟨"vararg", p.span⟩) ++
  (ps.keywordOnly.map fun p => ⟨"kwonlyarg", p.span⟩) ++
  (ps.kwarg?.toList.map fun p => ⟨"kwarg", p.span⟩)

mutual

/-- The elements of an expression. -/
def Expr.spans (e : Expr) : List Labelled :=
  ⟨e.describe, e.span⟩ :: match e with
  | .name .. | .constant .. => []
  | .binary _ _ l r => l.spans ++ r.spans
  | .unary _ _ x => x.spans
  | .boolean _ _ vs => exprSpans vs
  | .compare _ l rest => l.spans ++ comparisonSpans rest
  | .call _ f args ks => f.spans ++ exprSpans args ++ keywordSpans ks
  | .attribute _ v _ => v.spans
  | .subscript _ v i => v.spans ++ i.spans
  | .slice _ a b c => optionSpans a ++ optionSpans b ++ optionSpans c
  | .extSlice _ es | .tuple _ es | .list _ es => exprSpans es
  | .dict _ entries => entrySpans entries
  | .lambda _ ps b => paramsSpans ps ++ b.spans
  | .conditional _ t b o => t.spans ++ b.spans ++ o.spans
  | .listComp _ e gs => e.spans ++ generatorSpans gs
  | .starred _ v => v.spans
  | .yield _ v => optionSpans v

/-- The elements of several expressions. -/
def exprSpans : List Expr → List Labelled
  | [] => []
  | e :: es => e.spans ++ exprSpans es

/-- The elements of an expression that may be missing. -/
def optionSpans : Option Expr → List Labelled
  | none => []
  | some e => e.spans

/-- The elements of the values of a chain of comparisons. -/
def comparisonSpans : List (Operator × Expr) → List Labelled
  | [] => []
  | (_, e) :: rest => e.spans ++ comparisonSpans rest

/-- The elements of keyword arguments. -/
def keywordSpans : List (Keyword Expr) → List Labelled
  | [] => []
  | ⟨span, _, v⟩ :: rest => ⟨"keyword", span⟩ :: (v.spans ++ keywordSpans rest)

/-- The elements of the entries of a dict display, key by key. -/
def entrySpans : List (Expr × Expr) → List Labelled
  | [] => []
  | (k, v) :: rest => k.spans ++ v.spans ++ entrySpans rest

/-- The elements of the loops of a comprehension. -/
def generatorSpans : List (Generator Expr) → List Labelled
  | [] => []
  | ⟨t, i, cs⟩ :: rest => t.spans ++ i.spans ++ exprSpans cs ++ generatorSpans rest

/-- The elements of parameters: the names, then the default values. -/
def paramsSpans : Params Expr → List Labelled
  | ⟨ps, v, ks, kw, ds, kds⟩ =>
    paramSpans ⟨ps, v, ks, kw, [], []⟩ ++ exprSpans ds ++ exprSpans kds

end

mutual

/-- The elements of a statement. -/
def Stmt.spans (s : Stmt) : List Labelled :=
  ⟨s.describe, s.span⟩ :: match s with
  | .expr _ v => v.spans
  | .assign _ ts v => exprSpans ts ++ v.spans
  | .augAssign _ t _ v => t.spans ++ v.spans
  | .functionDef _ _ ps b ds => exprSpans ds ++ paramsSpans ps ++ stmtSpans b
  | .returnValue _ v | .raise _ v => optionSpans v
  | .ifElse _ t b o | .whileLoop _ t b o => t.spans ++ stmtSpans b ++ stmtSpans o
  | .forLoop _ t i b o => t.spans ++ i.spans ++ stmtSpans b ++ stmtSpans o
  | .tryExcept _ b hs o f => stmtSpans b ++ handlerSpans hs ++ stmtSpans o ++ stmtSpans f
  | .breakLoop _ | .continueLoop _ | .pass _ | .scopeDecl .. => []

/-- The elements of a block. -/
def stmtSpans : List Stmt → List Labelled
  | [] => []
  | s :: ss => s.spans ++ stmtSpans ss

/-- The elements of the handlers of a try statement. -/
def handlerSpans : List (Handler Stmt) → List Labelled
  | [] => []
  | ⟨span, type, _, body⟩ :: rest =>
    ⟨"handler", span⟩ :: (optionSpans type ++ stmtSpans body ++ handlerSpans rest)

end

end Hoist.Surface
