import Hoist.Lowering.Loop

/-!
# Lowering of trees

Expressions become nodes and statements become items, in the order in which they are evaluated. What
flat code has no place for is refused with its place.
-/

namespace Hoist.Lowering

open Hoist.Flat (Symbol Node Location)
open Hoist.Surface (Expr Stmt Operator Params Module)

namespace Lower

/-- The builtin of an operator. -/
def operatorNode (op : Operator) (loc : Option Location) : Lower Node :=
  match op.builtin? with
  | some name => return .ref loc (.builtin name)
  | none => throw .internal

/-- Refuses a starred argument. -/
def refuseStarred (env : Env) : List Expr → Lower Unit
  | [] => return ()
  | .starred span _ :: _ => refuse .varargs (env.locate span)
  | _ :: rest => refuseStarred env rest

/-- What a call of a name is expanded by. -/
def expansionOf? (env : Env) : Expr → Option Expansion
  | .name _ id => env.expansions.lookup id
  | _ => none

/-- A part of a slice that is missing. -/
def missing (v : Literal) : Lower Node := return .value none v

mutual

/-- The node of an expression. -/
def lowerExpr (env : Env) (e : Expr) : Lower Node :=
  let loc := env.locate e.span
  match e with
  | .name _ id => readName id loc
  | .constant _ v => return .value loc v
  | .binary _ op l r => do
    let f ← operatorNode op loc
    let l ← lowerExpr env l
    let r ← lowerExpr env r
    return .apply loc f [l, r] false
  | .unary _ op x => do
    let f ← operatorNode op loc
    let x ← lowerExpr env x
    return .apply loc f [x] false
  | .compare _ l [(op, r)] => do
    let f ← operatorNode op loc
    let l ← lowerExpr env l
    let r ← lowerExpr env r
    return .apply loc f [l, r] false
  | .compare .. => refuse .chainedComparison loc
  | .call _ callee args keywords => do
    if !keywords.isEmpty then refuse .keywordArguments loc
    refuseStarred env args
    let args ← lowerExprs env args
    match expansionOf? env callee with
    | some expand =>
      match expand args with
      | some n => return n
      | none => throw .internal
    | none =>
      let f ← lowerExpr env callee
      return .apply loc f args false
  | .attribute _ v attr => do
    let v ← lowerExpr env v
    return .apply loc (.ref loc Flat.getattr) [v, .value loc (.string attr)] false
  | .subscript _ v i => do
    let v ← lowerExpr env v
    let i ← lowerExpr env i
    return .apply loc (.ref loc Flat.index) [v, i] false
  | .slice _ lower upper step => do
    let lower ← match lower with | some x => lowerExpr env x | none => missing (.int 0)
    let upper ← match upper with | some x => lowerExpr env x | none => missing .none
    let step ← match step with | some x => lowerExpr env x | none => missing (.int 1)
    return .apply loc (.ref loc Flat.slice) [lower, upper, step] false
  | .extSlice _ es | .tuple _ es => do
    return .tuple loc (← lowerExprs env es)
  | .lambda _ params body => do
    requirePositional params loc
    lowerClosure env params (lowerExpr env body) loc none none
  | .boolean .. | .list .. | .dict .. | .conditional .. | .listComp .. | .starred .. | .yield .. =>
    refuse (.unsupported e.describe) loc

/-- The nodes of expressions, one after the other. -/
def lowerExprs (env : Env) : List Expr → Lower (List Node)
  | [] => return []
  | e :: es => do
    let n ← lowerExpr env e
    return n :: (← lowerExprs env es)

end

/-- An assignment of an expression to a target: a name, or a subscript of one, which is bound to a
sequence with that item replaced. -/
def lowerAssign (env : Env) (loc : Option Location) (target value : Expr) :
    Lower (List Item) := do
  match target with
  | .name _ id =>
    let v ← lowerExpr env value
    return [← assign id v loc]
  | .subscript _ object index =>
    match object with
    | .name _ id =>
      let v ← lowerExpr env value
      let o ← lowerExpr env object
      let i ← lowerExpr env index
      return [← assign id (.apply loc (.ref loc Flat.setslice) [o, i, v] false) loc]
    | _ => refuse .subscriptOfExpression loc
  | .tuple .. | .list .. => refuse .deconstruction loc
  | _ => refuse (.badTarget target.describe) loc

/-- An assignment of a variable combined with a value. The variable must be declared. -/
def lowerAugAssign (env : Env) (loc : Option Location) (target : Expr) (op : Operator)
    (value : Expr) : Lower (List Item) := do
  match target with
  | .name _ id =>
    let v ← lowerExpr env value
    let f ← operatorNode op loc
    let _ ← readName id loc
    let before := Node.ref loc (← current id loc)
    return [← assign id (.apply loc f [before, v] false) loc]
  | .subscript .. => refuse .augmentedSubscript loc
  | _ => refuse .augmentedTarget loc

/-- A return, with or without a value. The statements after it are dead. -/
def lowerReturn (env : Env) (loc : Option Location) (value : Option Expr) :
    Lower (List Item) := do
  match (← body).returnError with
  | some why => refuse (.forbiddenReturn why) loc
  | none => pure ()
  modifyBody fun b => { b with hasReturned := true }
  match value with
  | none => return [.plain (.value loc .none)]
  | some e => return [.plain (← lowerExpr env e)]

/-- A function definition over the lowering of its statements. At top level the function keeps its
name; elsewhere its lambda gets a fresh one. -/
def lowerFunction (env : Env) (loc : Option Location) (name : String) (params : Params Expr)
    (decorators : List Expr) (allowDecorators : Bool) (statements : Lower (List Item)) :
    Lower (List Item) := do
  requirePositional params loc
  if !allowDecorators && !decorators.isEmpty then refuse .decorated loc
  let ref ← if (← body).topLevel then pure (.global name) else issue name .global_
  let sym ← bindFresh name
  let code : Lower Node := do
    let items ← statements
    ofExcept (group items none loc)
  let closure ← lowerClosure env params code loc (some name) (some ref)
  return [.assign ⟨sym, closure, loc⟩]

mutual

/-- The items of a statement. -/
def lowerStmt (env : Env) (s : Stmt) (allowDecorators : Bool) : Lower (List Item) :=
  let loc := env.locate s.span
  match s with
  | .expr _ v => return [.plain (← lowerExpr env v)]
  | .assign _ [target] v => lowerAssign env loc target v
  | .assign .. => refuse .chainedAssignment loc
  | .augAssign _ target op v => lowerAugAssign env loc target op v
  | .functionDef _ name params body decorators =>
    lowerFunction env loc name params decorators allowDecorators (lowerBlock env body)
  | .returnValue _ v => lowerReturn env loc v
  | .ifElse _ test body orelse => do
    let test ← lowerExpr env test
    let whenTrue ← lowerBranch "then" (lowerBlock env body)
    let whenFalse ← lowerBranch "else" (lowerBlock env orelse)
    mergeBranches env loc test whenTrue whenFalse
  | .whileLoop _ test body orelse => do
    if !orelse.isEmpty then refuse .loopElse loc
    lowerLoop env loc (lowerExpr env test) (lowerBlock env body)
  | .forLoop .. | .tryExcept .. | .raise .. | .breakLoop .. | .continueLoop .. | .pass ..
  | .scopeDecl .. => refuse (.unsupported s.describe) loc

/-- The items of statements, one after the other. Nothing may follow a return. -/
def lowerBlock (env : Env) : List Stmt → Lower (List Item)
  | [] => return []
  | s :: ss => do
    if (← body).hasReturned then refuse .deadCode (env.locate s.span)
    let items ← lowerStmt env s false
    return items ++ (← lowerBlock env ss)

end

/-- Lowers a module that holds one function definition, and yields the name of its lambda. -/
def lowerEntry (env : Env) (m : Module) : Lower Symbol := do
  match m.body with
  | [s] =>
    match s with
    | .functionDef _ name _ _ _ =>
      let _ ← lowerStmt env s true
      return .global name
    | _ => refuse .notOneFunction (env.locate s.span)
  | body =>
    refuse .notOneFunction (env.locate ((body.getLast?.map (·.span)).getD m.span))

end Lower

end Hoist.Lowering
