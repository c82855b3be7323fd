import Hoist.Proofs.Surface.Names

/-!
# The modules that can be lowered

A check of the tree alone, which carries nothing but the names declared so far and whether a return is
allowed. How the names are counted that a block assigns is a parameter: the branches of a conditional
have to agree in them.
-/

namespace Hoist.Surface

/-- Whether parameters are plain names. -/
def Params.isPositional {ε : Type} (ps : Params ε) : Bool :=
  ps.vararg?.isNone && ps.kwarg?.isNone && ps.keywordOnly.isEmpty && ps.defaults.isEmpty &&
    ps.keywordDefaults.isEmpty

/-- Whether an operator stands for a builtin. -/
def Operator.isSupported (op : Operator) : Bool := op.builtin?.isSome

mutual

/-- Whether an expression holds nothing but what flat code has a place for. -/
def Expr.isSupported : Expr → Bool
  | .name .. | .constant .. => true
  | .binary _ op l r => op.isSupported && l.isSupported && r.isSupported
  | .unary _ op x => op.isSupported && x.isSupported
  | .compare _ l [(op, r)] => op.isSupported && l.isSupported && r.isSupported
  | .call _ f args keywords => keywords.isEmpty && allSupported args && f.isSupported
  | .attribute _ v _ => v.isSupported
  | .subscript _ v i => v.isSupported && i.isSupported
  | .slice _ a b c => optSupported a && optSupported b && optSupported c
  | .extSlice _ es | .tuple _ es => allSupported es
  | .lambda _ ps b => ps.isPositional && b.isSupported
  | _ => false

/-- Whether all of some expressions are supported. -/
def allSupported : List Expr → Bool
  | [] => true
  | e :: es => e.isSupported && allSupported es

/-- Whether an expression is supported, if there is one. -/
def optSupported : Option Expr → Bool
  | none => true
  | some e => e.isSupported

end

/-- The name that an expression is, if it is one. -/
def Expr.name? : Expr → Option String
  | .name _ x => some x
  | _ => none

/-- Whether an expression can be assigned to: a name, or a subscript of one. -/
def Expr.isTarget : Expr → Bool
  | .name .. => true
  | .subscript _ object index => object.name?.isSome && index.isSupported
  | _ => false

/-- Whether a statement leaves a value behind: an expression does, and what returns. -/
def Stmt.isValue : Stmt → Bool
  | .expr .. => true
  | s => s.returns

/-- Whether a body ends in a value. -/
def blockEnds (b : List Stmt) : Bool := b.getLast?.any Stmt.isValue

mutual

/-- The names that a statement assigns anywhere but in a nested function, be it followed by a return or
not. -/
def Stmt.targets : Stmt → List String
  | .ifElse _ _ b o => blockTargets b ++ blockTargets o
  | .whileLoop _ _ b _ => blockTargets b
  | s => s.assigns

/-- The names that statements assign anywhere but in nested functions. -/
def blockTargets : List Stmt → List String
  | [] => []
  | s :: ss => s.targets ++ blockTargets ss

end

/-- Whether two lists hold the same names. -/
def sameNames (xs ys : List String) : Bool := xs.all ys.contains && ys.all xs.contains

mutual

/-- Whether a statement is accepted where some names are declared. A return may be forbidden; inside
a function it never is. -/
def Stmt.accepts (assigned : List Stmt → List String) (mayReturn : Bool) (declared : List String) :
    Stmt → Bool
  | .expr _ v => v.isSupported
  | .assign _ ts v => ts.length == 1 && ts.all Expr.isTarget && v.isSupported
  | .augAssign _ t op v => t.name?.any declared.contains && op.isSupported && v.isSupported
  | .functionDef _ f ps b ds =>
    ps.isPositional && ds.isEmpty && blockEnds b &&
      blockAccepts assigned true (ps.names ++ f :: declared) b
  | .returnValue _ v => mayReturn && optSupported v
  | .ifElse _ t b o =>
    t.isSupported && blockAccepts assigned mayReturn declared b &&
      blockAccepts assigned mayReturn declared o && blockReturns b == blockReturns o &&
      sameNames (assigned b) (assigned o)
  | .whileLoop _ t b o =>
    o.isEmpty && t.isSupported && blockAccepts assigned false declared b &&
      (assigned b).all declared.contains
  | _ => false

/-- Whether statements are accepted one after the other. Nothing may follow one that returns. -/
def blockAccepts (assigned : List Stmt → List String) (mayReturn : Bool)
    (declared : List String) : List Stmt → Bool
  | [] => true
  | s :: ss =>
    s.accepts assigned mayReturn declared && (!s.returns || ss.isEmpty) &&
      blockAccepts assigned mayReturn (s.declares ++ declared) ss

end

/-- Whether a module is one function that is accepted. Its decorators are not looked at. -/
def Module.accepts (assigned : List Stmt → List String) (m : Module) : Bool :=
  match m.body with
  | [.functionDef _ f ps b _] =>
    ps.isPositional && blockEnds b && blockAccepts assigned true (ps.names ++ [f]) b
  | _ => false

end Hoist.Surface
