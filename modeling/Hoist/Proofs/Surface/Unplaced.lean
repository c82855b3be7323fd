import Hoist.Surface.Tree

/-!
# Trees without places

A tree without its places: every span is replaced by the empty one at the start of the text. Two trees
are the same up to spans when they are the same without places.
-/

namespace Hoist.Surface

/-- A parameter without its place. -/
def Param.unplaced (p : Param) : Param := ⟨default, p.name⟩

mutual

/-- An expression without places. -/
def Expr.unplaced : Expr → Expr
  | .name _ id => .name default id
  | .constant _ v => .constant default v
  | .binary _ op l r => .binary default op l.unplaced r.unplaced
  | .unary _ op x => .unary default op x.unplaced
  | .boolean _ op vs => .boolean default op (exprsUnplaced vs)
  | .compare _ l rest => .compare default l.unplaced (comparisonsUnplaced rest)
  | .call _ f args ks => .call default f.unplaced (exprsUnplaced args) (keywordsUnplaced ks)
  | .attribute _ v a => .attribute default v.unplaced a
  | .subscript _ v i => .subscript default v.unplaced i.unplaced
  | .slice _ a b c => .slice default (optionUnplaced a) (optionUnplaced b) (optionUnplaced c)
  | .extSlice _ dims => .extSlice default (exprsUnplaced dims)
  | .tuple _ es => .tuple default (exprsUnplaced es)
  | .list _ es => .list default (exprsUnplaced es)
  | .dict _ entries => .dict default (entriesUnplaced entries)
  | .lambda _ ps b => .lambda default (paramsUnplaced ps) b.unplaced
  | .conditional _ t b o => .conditional default t.unplaced b.unplaced o.unplaced
  | .listComp _ e gs => .listComp default e.unplaced (generatorsUnplaced gs)
  | .starred _ v => .starred default v.unplaced
  | .yield _ v => .yield default (optionUnplaced v)

/-- Expressions without places. -/
def exprsUnplaced : List Expr → List Expr
  | [] => []
  | e :: es => e.unplaced :: exprsUnplaced es

/-- An expression that may be missing, without places. -/
def optionUnplaced : Option Expr → Option Expr
  | none => none
  | some e => some e.unplaced

/-- The values of a chain of comparisons without places. -/
def comparisonsUnplaced : List (Operator × Expr) → List (Operator × Expr)
  | [] => []
  | (op, e) :: rest => (op, e.unplaced) :: comparisonsUnplaced rest

/-- Keyword arguments without places. -/
def keywordsUnplaced : List (Keyword Expr) → List (Keyword Expr)
  | [] => []
  | ⟨_, n, v⟩ :: rest => ⟨default, n, v.unplaced⟩ :: keywordsUnplaced rest

/-- The entries of a dict display without places. -/
def entriesUnplaced : List (Expr × Expr) → List (Expr × Expr)
  | [] => []
  | (k, v) :: rest => (k.unplaced, v.unplaced) :: entriesUnplaced rest

/-- The loops of a comprehension without places. -/
def generatorsUnplaced : List (Generator Expr) → List (Generator Expr)
  | [] => []
  | ⟨t, i, cs⟩ :: rest => ⟨t.unplaced, i.unplaced, exprsUnplaced cs⟩ :: generatorsUnplaced rest

/-- Parameters without places. -/
def paramsUnplaced : Params Expr → Params Expr
  | ⟨ps, v, ks, kw, ds, kds⟩ =>
    ⟨ps.map Param.unplaced, v.map Param.unplaced, ks.map Param.unplaced, kw.map Param.unplaced,
      exprsUnplaced ds, exprsUnplaced kds⟩

end

attribute [simp] Expr.unplaced

/-- A keyword argument without places. -/
def Keyword.unplaced (k : Keyword Expr) : Keyword Expr := ⟨default, k.name?, k.value.unplaced⟩

/-- A loop of a comprehension without places. -/
def Generator.unplaced (g : Generator Expr) : Generator Expr :=
  ⟨g.target.unplaced, g.iter.unplaced, g.conditions.map Expr.unplaced⟩

@[simp] theorem exprsUnplaced_eq (es : List Expr) : exprsUnplaced es = es.map Expr.unplaced := by
  induction es with
  | nil => rfl
  | cons e es ih => simp [exprsUnplaced, ih]

@[simp] theorem optionUnplaced_eq (e : Option Expr) : optionUnplaced e = e.map Expr.unplaced := by
  cases e <;> rfl

@[simp] theorem comparisonsUnplaced_eq (rest : List (Operator × Expr)) :
    comparisonsUnplaced rest = rest.map (Prod.map id Expr.unplaced) := by
  induction rest with
  | nil => rfl
  | cons p rest ih => simp [comparisonsUnplaced, Prod.map, ih]

@[simp] theorem keywordsUnplaced_eq (ks : List (Keyword Expr)) :
    keywordsUnplaced ks = ks.map Keyword.unplaced := by
  induction ks with
  | nil => rfl
  | cons k ks ih => simp [keywordsUnplaced, Keyword.unplaced, ih]

@[simp] theorem entriesUnplaced_eq (entries : List (Expr × Expr)) :
    entriesUnplaced entries = entries.map (Prod.map Expr.unplaced Expr.unplaced) := by
  induction entries with
  | nil => rfl
  | cons p entries ih => simp [entriesUnplaced, Prod.map, ih]

@[simp] theorem generatorsUnplaced_eq (gs : List (Generator Expr)) :
    generatorsUnplaced gs = gs.map Generator.unplaced := by
  induction gs with
  | nil => rfl
  | cons g gs ih => simp [generatorsUnplaced, Generator.unplaced, ih]

mutual

/-- A statement without places. -/
def Stmt.unplaced : Stmt → Stmt
  | .expr _ v => .expr default v.unplaced
  | .assign _ ts v => .assign default (ts.map Expr.unplaced) v.unplaced
  | .augAssign _ t op v => .augAssign default t.unplaced op v.unplaced
  | .functionDef _ f ps b ds =>
    .functionDef default f (paramsUnplaced ps) (blockUnplaced b) (ds.map Expr.unplaced)
  | .returnValue _ v => .returnValue default (v.map Expr.unplaced)
  | .ifElse _ t b o => .ifElse default t.unplaced (blockUnplaced b) (blockUnplaced o)
  | .whileLoop _ t b o => .whileLoop default t.unplaced (blockUnplaced b) (blockUnplaced o)
  | .forLoop _ t i b o =>
    .forLoop default t.unplaced i.unplaced (blockUnplaced b) (blockUnplaced o)
  | .tryExcept _ b hs o f =>
    .tryExcept default (blockUnplaced b) (handlersUnplaced hs) (blockUnplaced o) (blockUnplaced f)
  | .raise _ e => .raise default (e.map Expr.unplaced)
  | .breakLoop _ => .breakLoop default
  | .continueLoop _ => .continueLoop default
  | .pass _ => .pass default
  | .scopeDecl _ nonlocal names => .scopeDecl default nonlocal names

/-- The statements of a block without places. -/
def blockUnplaced : List Stmt → List Stmt
  | [] => []
  | s :: ss => s.unplaced :: blockUnplaced ss

/-- The handlers of a try statement without places. -/
def handlersUnplaced : List (Handler Stmt) → List (Handler Stmt)
  | [] => []
  | ⟨_, t, n, b⟩ :: rest =>
    ⟨default, t.map Expr.unplaced, n, blockUnplaced b⟩ :: handlersUnplaced rest

end

attribute [simp] Stmt.unplaced

/-- A handler without places. -/
def Handler.unplaced (h : Handler Stmt) : Handler Stmt :=
  ⟨default, h.type?.map Expr.unplaced, h.name?, h.body.map Stmt.unplaced⟩

@[simp] theorem blockUnplaced_eq (ss : List Stmt) : blockUnplaced ss = ss.map Stmt.unplaced := by
  induction ss with
  | nil => rfl
  | cons s ss ih => simp [blockUnplaced, ih]

@[simp] theorem handlersUnplaced_eq (hs : List (Handler Stmt)) :
    handlersUnplaced hs = hs.map Handler.unplaced := by
  induction hs with
  | nil => rfl
  | cons h hs ih => simp [handlersUnplaced, Handler.unplaced, ih]

end Hoist.Surface
