import Hoist.Proofs.Lowering.Loops

/-!
# The code of a tree

`ExprCode`, `StmtCode` and `BlockCode` say which code stands for a tree over a table, apart from how it
is made. A context tells which names are visible, by which symbols they are read, and which symbols
the lambda binds so far. Bodies of functions, branches and loops are lambdas of the table, and a piece
of code comes with all the lambdas that were made for it; each of them begins in a context of its own,
over the names it captures.
-/

namespace Hoist.Lowering

open Hoist.Flat (Symbol Node Location Table Lambda)
open Hoist.Surface (Expr Stmt blockReads blockAssigns blockReturns)

/-- What code is read in. -/
structure Ctx where
  /-- The names bound here or further out. -/
  visible : String → Bool
  /-- The symbols that names are read by. -/
  sym : String → Option Symbol
  /-- The symbols that the lambda binds. -/
  bound : List Symbol

namespace Ctx

/-- The symbol of a name: a name that is not visible is a global. -/
def symbol (Γ : Ctx) (x : String) : Option Symbol :=
  if Γ.visible x then Γ.sym x else some (.global x)

/-- A context with one more symbol bound, to no name. -/
def hide (Γ : Ctx) (a : Symbol) : Ctx := { Γ with bound := Γ.bound ++ [a] }

/-- A context with a name bound to a symbol. -/
def bind (Γ : Ctx) (x : String) (a : Symbol) : Ctx where
  visible y := y == x || Γ.visible y
  sym y := if y = x then some a else Γ.sym y
  bound := Γ.bound ++ [a]

/-- The context at the start of a lambda inside another one: it has names of its own and the names it
captures, which are its first parameters. -/
def inner (Γ : Ctx) (own captured : List (String × Symbol)) (formals : List Symbol) : Ctx where
  visible x := (own.lookup x).isSome || Γ.visible x
  sym x := (own.lookup x).or (captured.lookup x)
  bound := captured.map (·.2) ++ formals

end Ctx

/-- A symbol that nothing else is called by, neither a lambda nor what a lambda binds so far. -/
structure Fresh (T : Table) (bound : List Symbol) (a : Symbol) : Prop where
  generated : a.isGenerated = true
  table : T.contains a = false
  bound : ∀ b ∈ bound, b.token ≠ a.token

/-- Parameters of a lambda: generated symbols that differ from each other and from all lambdas. -/
structure Formals (T : Table) (as : List Symbol) : Prop where
  generated : ∀ a ∈ as, a.isGenerated = true
  table : ∀ a ∈ as, T.contains a = false
  distinct : as.Pairwise fun a b => a.token ≠ b.token

/-- The names of parameters with their symbols, a later one over an earlier one of its name. -/
def paramBindings (xs : List String) (formals : List Symbol) : List (String × Symbol) :=
  (xs.zip formals).reverse

/-- Names that are visible, and the symbols that they are read by. -/
structure Ctx.Have (Γ : Ctx) (xs : List String) (syms : List Symbol) : Prop where
  visible : ∀ x ∈ xs, Γ.visible x = true
  syms : xs.map Γ.sym = syms.map some

/-- What a lambda is made for: a function, which has some parameters of its own, or a part of a
conditional or of a loop. -/
inductive Role
  | function (params : Nat)
  | whenTrue
  | whenFalse
  | next
  | loop
deriving DecidableEq, Repr

/-- How the name of a lambda is derived from the body around it; that of a function is not. -/
def Role.tag : Role → String
  | .function _ => ""
  | .whenTrue => "then"
  | .whenFalse => "else"
  | .next => "continue"
  | .loop => "loop"

/-- A lambda that was made for some code, under a new name that tells what it is. -/
structure Made where
  role : Role
  lambda : Lambda
  generated : lambda.ref.isGenerated = true
  named : lambda.ref.relation = role.tag

/-- A node for the value of a lambda over what it captures of the names that it reads, and the context
in which the code of the lambda begins. -/
inductive Lifted (T : Table) (Γ : Ctx) (own : List (String × Symbol)) (reads : List String)
    (formals : List Symbol) : Ctx → Made → Node → Prop
  | mk {m : Made} {captured : List (String × Symbol)} {syms : List Symbol} {loc : Option Location}
      (found : T.find? m.lambda.ref = some m.lambda)
      (bound : m.lambda.params = captured.map (·.2) ++ formals) (params : Formals T m.lambda.params)
      (free : ∀ p ∈ captured, own.lookup p.1 = none) (read : ∀ p ∈ captured, p.1 ∈ reads)
      (have_ : Γ.Have (captured.map (·.1)) syms) :
      Lifted T Γ own reads formals (Γ.inner own captured formals) m
        (closureNode loc m.lambda.ref (syms.map (.ref loc)))

/-- A call of a builtin. -/
def invoke (loc : Option Location) (builtin : Symbol) (args : List Node) : Node :=
  .apply loc (.ref loc builtin) args false

mutual

/-- The code of an expression, and the lambdas that it needs, in the order of their definition. -/
inductive ExprCode (T : Table) : Ctx → Expr → Node → List Made → Prop
  | name {Γ s x a loc} (h : Γ.symbol x = some a) : ExprCode T Γ (.name s x) (.ref loc a) []
  | constant {Γ s v loc} : ExprCode T Γ (.constant s v) (.value loc v) []
  | binary {Γ s op f l l' r r' loc L R} (hop : op.builtin? = some f) (hl : ExprCode T Γ l l' L)
      (hr : ExprCode T Γ r r' R) :
      ExprCode T Γ (.binary s op l r) (invoke loc (.builtin f) [l', r']) (L ++ R)
  | unary {Γ s op f x x' loc L} (hop : op.builtin? = some f) (hx : ExprCode T Γ x x' L) :
      ExprCode T Γ (.unary s op x) (invoke loc (.builtin f) [x']) L
  | compare {Γ s op f l l' r r' loc L R} (hop : op.builtin? = some f) (hl : ExprCode T Γ l l' L)
      (hr : ExprCode T Γ r r' R) :
      ExprCode T Γ (.compare s l [(op, r)]) (invoke loc (.builtin f) [l', r']) (L ++ R)
  | call {Γ s f f' args args' loc L R} (hargs : ExprsCode T Γ args args' L)
      (hf : ExprCode T Γ f f' R) :
      ExprCode T Γ (.call s f args []) (.apply loc f' args' false) (L ++ R)
  | attr {Γ s v v' name loc L} (hv : ExprCode T Γ v v' L) :
      ExprCode T Γ (.attribute s v name)
        (invoke loc Flat.getattr [v', .value loc (.string name)]) L
  | subscript {Γ s v v' i i' loc L R} (hv : ExprCode T Γ v v' L) (hi : ExprCode T Γ i i' R) :
      ExprCode T Γ (.subscript s v i) (invoke loc Flat.index [v', i']) (L ++ R)
  | slice {Γ s a a' b b' c c' loc L M R} (ha : OptionCode T Γ (.int 0) a a' L)
      (hb : OptionCode T Γ .none b b' M) (hc : OptionCode T Γ (.int 1) c c' R) :
      ExprCode T Γ (.slice s a b c) (invoke loc Flat.slice [a', b', c']) (L ++ M ++ R)
  | extSlice {Γ s es es' loc L} (h : ExprsCode T Γ es es' L) :
      ExprCode T Γ (.extSlice s es) (.tuple loc es') L
  | tuple {Γ s es es' loc L} (h : ExprsCode T Γ es es' L) :
      ExprCode T Γ (.tuple s es) (.tuple loc es') L
  | lambda {Γ Δ s ps b m formals n L} (hrole : m.role = .function ps.names.length)
      (hlen : ps.names.length = formals.length)
      (h : Lifted T Γ (paramBindings ps.names formals) b.reads formals Δ m n)
      (hb : ExprCode T Δ b m.lambda.body L) : ExprCode T Γ (.lambda s ps b) n (L ++ [m])

/-- The codes of expressions. -/
inductive ExprsCode (T : Table) : Ctx → List Expr → List Node → List Made → Prop
  | nil {Γ} : ExprsCode T Γ [] [] []
  | cons {Γ e n es ns L R} (he : ExprCode T Γ e n L) (hes : ExprsCode T Γ es ns R) :
      ExprsCode T Γ (e :: es) (n :: ns) (L ++ R)

/-- The code of an expression that may be missing, for which a value stands then. -/
inductive OptionCode (T : Table) : Ctx → Literal → Option Expr → Node → List Made → Prop
  | none {Γ v loc} : OptionCode T Γ v none (.value loc v) []
  | some {Γ v e n L} (he : ExprCode T Γ e n L) : OptionCode T Γ v (some e) n L

end

/-- The assignments of the items of a tuple to names, from an index on. -/
inductive Unpacks (T : Table) (tuple : Symbol) : Nat → Ctx → List String → List Item → Ctx → Prop
  | nil {i Γ} : Unpacks T tuple i Γ [] [] Γ
  | cons {i Γ Γ' x xs is a loc} (ha : Fresh T Γ.bound a)
      (h : Unpacks T tuple (i + 1) (Γ.bind x a) xs is Γ') :
      Unpacks T tuple i Γ (x :: xs) (.assign ⟨a, Lower.projection tuple i loc, loc⟩ :: is) Γ'

/-- The assignment of a tuple to names. -/
inductive Unpacked (T : Table) (Γ : Ctx) (xs : List String) (value : Node) :
    List Item → Ctx → Prop
  | mk {Γ' tmp is loc} (htmp : Fresh T Γ.bound tmp) (h : Unpacks T tmp 0 (Γ.hide tmp) xs is Γ') :
      Unpacked T Γ xs value (.assign ⟨tmp, value, loc⟩ :: is) Γ'

/-- The assignment of what a conditional yields: nothing, a single value or a tuple. -/
inductive Results (T : Table) (Γ : Ctx) (value : Node) : List String → List Item → Ctx → Prop
  | nil {a loc} (ha : Fresh T Γ.bound a) :
      Results T Γ value [] [.assign ⟨a, value, loc⟩] (Γ.hide a)
  | one {x a loc} (ha : Fresh T Γ.bound a) :
      Results T Γ value [x] [.assign ⟨a, value, loc⟩] (Γ.bind x a)
  | many {xs items Γ'} (hlen : 2 ≤ xs.length) (h : Unpacked T Γ xs value items Γ') :
      Results T Γ value xs items Γ'

/-- The lambda that selects between another turn of a loop and its end. -/
def turnCode (loc : Option Location) (test : Node) (next : Symbol) (formals exits : List Symbol) :
    Node :=
  branchCall test (.closure loc next (formals.map (.ref loc)))
    (.closure loc Flat.identity [.tuple loc (exits.map (.ref loc))]) loc

mutual

/-- The items of a statement, the lambdas that it needs, in the order of their definition, and the
context behind it. -/
inductive StmtCode (T : Table) : Ctx → Stmt → List Item → List Made → Ctx → Prop
  | expr {Γ s e n L} (h : ExprCode T Γ e n L) : StmtCode T Γ (.expr s e) [.plain n] L Γ
  | assign {Γ s s' x v n a loc L} (h : ExprCode T Γ v n L) (ha : Fresh T Γ.bound a) :
      StmtCode T Γ (.assign s [.name s' x] v) [.assign ⟨a, n, loc⟩] L (Γ.bind x a)
  | setItem {Γ s s' s'' x i i' v v' o a loc loc' L R} (hv : ExprCode T Γ v v' L)
      (ho : Γ.symbol x = some o) (hi : ExprCode T Γ i i' R) (ha : Fresh T Γ.bound a) :
      StmtCode T Γ (.assign s [.subscript s' (.name s'' x) i] v)
        [.assign ⟨a, invoke loc Flat.setslice [.ref loc' o, i', v'], loc⟩] (L ++ R) (Γ.bind x a)
  | augAssign {Γ s s' x op f v v' o a loc L} (hop : op.builtin? = some f) (hv : ExprCode T Γ v v' L)
      (ho : Γ.symbol x = some o) (ha : Fresh T Γ.bound a) :
      StmtCode T Γ (.augAssign s (.name s' x) op v)
        [.assign ⟨a, invoke loc (.builtin f) [.ref loc o, v'], loc⟩] L (Γ.bind x a)
  | functionDef {Γ Δ Δ' s f ps b ds m formals items n a loc loc' L}
      (hrole : m.role = .function ps.names.length) (hlen : ps.names.length = formals.length)
      (h : Lifted T Γ (paramBindings ps.names formals ++ [(f, m.lambda.ref)]) (blockReads b) formals Δ
        m n)
      (hb : BlockCode T Δ b items L Δ') (hcode : group items none loc = .ok m.lambda.body)
      (ha : Fresh T Γ.bound a) :
      StmtCode T Γ (.functionDef s f ps b ds) [.assign ⟨a, n, loc'⟩] (L ++ [m]) (Γ.bind f a)
  | returnNone {Γ s loc} : StmtCode T Γ (.returnValue s none) [.plain (.value loc .none)] [] Γ
  | returnSome {Γ s e n L} (h : ExprCode T Γ e n L) :
      StmtCode T Γ (.returnValue s (some e)) [.plain n] L Γ
  | ifReturns {Γ s t t' b o ΔT ΔT' mT nT itemsT ΔF ΔF' mF nF itemsF loc L LT LF}
      (ht : ExprCode T Γ t t' L) (hroles : mT.role = .whenTrue ∧ mF.role = .whenFalse)
      (hT : Lifted T Γ [] (blockReads b) [] ΔT mT nT) (hb : BlockCode T ΔT b itemsT LT ΔT')
      (hcodeT : group itemsT none loc = .ok mT.lambda.body) (hrT : blockReturns b = true)
      (hF : Lifted T Γ [] (blockReads o) [] ΔF mF nF) (ho : BlockCode T ΔF o itemsF LF ΔF')
      (hcodeF : group itemsF none loc = .ok mF.lambda.body) (hrF : blockReturns o = true) :
      StmtCode T Γ (.ifElse s t b o) [.plain (branchCall t' nT nF loc)]
        (L ++ LT ++ LF ++ [mT, mF]) Γ
  | ifAssigns {Γ Γ' s t t' b o ΔT ΔT' mT nT itemsT symsT ΔF ΔF' mF nF itemsF symsF loc items L LT LF}
      (ht : ExprCode T Γ t t' L) (hroles : mT.role = .whenTrue ∧ mF.role = .whenFalse)
      (hT : Lifted T Γ [] (blockReads b) [] ΔT mT nT) (hb : BlockCode T ΔT b itemsT LT ΔT')
      (hsT : ΔT'.Have (noteAll [] (blockAssigns b)) symsT)
      (hcodeT : group itemsT (some (packed loc symsT)) loc = .ok mT.lambda.body)
      (hrT : blockReturns b = false)
      (hF : Lifted T Γ [] (blockReads o) [] ΔF mF nF) (ho : BlockCode T ΔF o itemsF LF ΔF')
      (hsF : ΔF'.Have (noteAll [] (blockAssigns b)) symsF)
      (hcodeF : group itemsF (some (packed loc symsF)) loc = .ok mF.lambda.body)
      (hrF : blockReturns o = false)
      (hsame : ∀ x, x ∈ blockAssigns b ↔ x ∈ blockAssigns o)
      (h : Results T Γ (branchCall t' nT nF loc) (noteAll [] (blockAssigns b)) items Γ') :
      StmtCode T Γ (.ifElse s t b o) items (L ++ LT ++ LF ++ [mT, mF]) Γ'
  | whileLoop {Γ Γ' Δ Δ' s t t' b vars formals exits items updated code next loop initial is loc L R}
      (hvars : loopVariables Γ.visible (t.reads ++ blockReads b) (blockAssigns b) = vars)
      (hlen : vars.taken.length = formals.length) (hformals : Formals T formals)
      (hΔ : Γ.inner (paramBindings vars.taken formals) [] formals = Δ)
      (hexits : Δ.Have vars.given exits) (ht : ExprCode T Δ t t' L) (hb : BlockCode T Δ b items R Δ')
      (hr : blockReturns b = false) (hupdated : Δ'.Have vars.taken updated)
      (hcode : group items
        (some (.apply loc (.ref loc loop.lambda.ref) (updated.map (.ref loc)) false)) loc = .ok code)
      (hroles : next.role = .next ∧ loop.role = .loop)
      (hnext : next.lambda = ⟨next.lambda.ref, formals, code, loc⟩)
      (hloop : loop.lambda =
        ⟨loop.lambda.ref, formals, turnCode loc t' next.lambda.ref formals exits, loc⟩)
      (hfound : ∀ m ∈ [next, loop], T.find? m.lambda.ref = some m.lambda)
      (hinitial : Γ.Have vars.taken initial)
      (h : Unpacked T Γ vars.given
        (.apply loc (.ref loc loop.lambda.ref) (initial.map (.ref loc)) false) is Γ') :
      StmtCode T Γ (.whileLoop s t b []) is (L ++ R ++ [next, loop]) Γ'

/-- The items of statements one after the other. Nothing is behind a statement that returns. -/
inductive BlockCode (T : Table) : Ctx → List Stmt → List Item → List Made → Ctx → Prop
  | nil {Γ} : BlockCode T Γ [] [] [] Γ
  | cons {Γ Γ' Γ'' st b is js L R} (h : StmtCode T Γ st is L Γ') (hlast : st.returns = true → b = [])
      (hb : BlockCode T Γ' b js R Γ'') : BlockCode T Γ (st :: b) (is ++ js) (L ++ R) Γ''

end

end Hoist.Lowering
