import Hoist.Proofs.Lowering.Occurrences

/-!
# The arguments of nested functions

The lambdas that are made for functions are those of the functions in the tree, in the order in which
they are done with. A closure over such a lambda holds just the values of what the function captures; a
lambda that captures something is named alone only in its own body, where it calls itself.
-/

namespace Hoist

namespace Surface

mutual

/-- The numbers of parameters of the lambda expressions in an expression: arguments come before what is
called, and the inside of a function before the function. -/
def Expr.arities : Expr → List Nat
  | .binary _ _ l r => l.arities ++ r.arities
  | .unary _ _ x => x.arities
  | .compare _ l [(_, r)] => l.arities ++ r.arities
  | .call _ f args _ => allArities args ++ f.arities
  | .attribute _ v _ => v.arities
  | .subscript _ v i => v.arities ++ i.arities
  | .slice _ a b c => optArities a ++ optArities b ++ optArities c
  | .extSlice _ es | .tuple _ es => allArities es
  | .lambda _ ps b => b.arities ++ [ps.names.length]
  | _ => []

/-- The numbers of parameters of the lambda expressions in expressions. -/
def allArities : List Expr → List Nat
  | [] => []
  | e :: es => e.arities ++ allArities es

/-- The numbers of parameters of the lambda expressions in an expression, if there is one. -/
def optArities : Option Expr → List Nat
  | none => []
  | some e => e.arities

end

mutual

/-- The numbers of parameters of the functions in a statement: a value comes before the place it is
stored at, and the inside of a function before the function. -/
def Stmt.arities : Stmt → List Nat
  | .expr _ v => v.arities
  | .assign _ [.subscript _ (.name _ _) i] v => v.arities ++ i.arities
  | .assign _ _ v | .augAssign _ _ _ v => v.arities
  | .functionDef _ _ ps b _ => blockArities b ++ [ps.names.length]
  | .returnValue _ v => optArities v
  | .ifElse _ t b o => t.arities ++ blockArities b ++ blockArities o
  | .whileLoop _ t b _ => t.arities ++ blockArities b
  | _ => []

/-- The numbers of parameters of the functions in statements. -/
def blockArities : List Stmt → List Nat
  | [] => []
  | s :: b => s.arities ++ blockArities b

end

end Surface

namespace Lowering

open Hoist.Flat (Symbol Node Location Table Lambda)
open Hoist.Surface (Expr Stmt Params blockReads blockAssigns blockReturns allArities optArities
  blockArities)

/-- The number of parameters of the function that a lambda was made for. -/
def Made.arity? (m : Made) : Option Nat :=
  match m.role with
  | .function k => some k
  | _ => none

section Arities

variable {T : Table} {Γ Γ' : Ctx} {L : List Made}

theorem Made.arity?_function {m : Made} {k : Nat} (h : m.role = .function k) : m.arity? = some k := by
  rw [Made.arity?, h]

theorem ExprsCode.arities {es : List Expr} {ns : List Node}
    (ih : ∀ e ∈ es, ∀ {n L}, ExprCode T Γ e n L → L.filterMap Made.arity? = e.arities)
    (h : ExprsCode T Γ es ns L) : L.filterMap Made.arity? = allArities es := by
  induction es generalizing ns L with
  | nil =>
    cases h
    rfl
  | cons e es ihs =>
    cases h with
    | cons he hes =>
      rw [List.filterMap_append, ih e (by simp) he,
        ihs (fun e' he' => ih e' (List.mem_cons_of_mem _ he')) hes, allArities]

theorem OptionCode.arities {o : Option Expr} {v : Literal} {n : Node}
    (ih : ∀ e ∈ o, ∀ {n L}, ExprCode T Γ e n L → L.filterMap Made.arity? = e.arities)
    (h : OptionCode T Γ v o n L) : L.filterMap Made.arity? = optArities o := by
  cases h with
  | none => rfl
  | some he => exact ih _ rfl he

/-- The lambdas of an expression are those of the lambda expressions in it. -/
theorem ExprCode.arities (e : Expr) :
    ∀ {Γ n L}, ExprCode T Γ e n L → L.filterMap Made.arity? = e.arities := by
  induction e using Expr.ind with
  | name sp x =>
    rintro Γ n L (_ | _)
    rfl
  | constant sp v =>
    intro Γ n L h
    cases h
    rfl
  | binary sp op l r ihl ihr =>
    intro Γ n L h
    cases h with
    | binary hop hl hr => rw [List.filterMap_append, ihl hl, ihr hr, Expr.arities]
  | unary sp op x ih =>
    intro Γ n L h
    cases h with
    | unary hop hx => rw [ih hx, Expr.arities]
  | compare sp l op r ihl ihr =>
    intro Γ n L h
    cases h with
    | compare hop hl hr => rw [List.filterMap_append, ihl hl, ihr hr, Expr.arities]
  | chain sp l rest hlen =>
    intro Γ n L h
    cases h
    simp at hlen
  | call sp f args ks ihf ihargs =>
    intro Γ n L h
    cases h with
    | call hargs hf =>
      rw [List.filterMap_append, hargs.arities fun e he _ _ => ihargs e he, ihf hf, Expr.arities]
  | attr sp v name ih =>
    intro Γ n L h
    cases h with
    | attr hv => rw [ih hv, Expr.arities]
  | subscript sp v i ihv ihi =>
    intro Γ n L h
    cases h with
    | subscript hv hi => rw [List.filterMap_append, ihv hv, ihi hi, Expr.arities]
  | slice sp a b c iha ihb ihc =>
    intro Γ n L h
    cases h with
    | slice ha hb hc =>
      rw [List.filterMap_append, List.filterMap_append, ha.arities fun e he _ _ => iha e he,
        hb.arities fun e he _ _ => ihb e he, hc.arities fun e he _ _ => ihc e he, Expr.arities]
  | extSlice sp es ih =>
    intro Γ n L h
    cases h with
    | extSlice h => rw [h.arities fun e he _ _ => ih e he, Expr.arities]
  | tuple sp es ih =>
    intro Γ n L h
    cases h with
    | tuple h => rw [h.arities fun e he _ _ => ih e he, Expr.arities]
  | lambda sp ps b ih =>
    intro Γ n L h
    cases h with
    | lambda hrole hlen hl hb =>
      rw [List.filterMap_append, ih hb, Expr.arities]
      simp [Made.arity?_function hrole]
  | foreign e hf =>
    intro Γ n L h
    cases h <;> simp [Expr.isForeign] at hf

theorem BlockCode.arities_of {b : List Stmt} {items : List Item}
    (ih : ∀ st ∈ b, ∀ {Γ Γ' items L}, StmtCode T Γ st items L Γ' →
      L.filterMap Made.arity? = st.arities)
    (h : BlockCode T Γ b items L Γ') : L.filterMap Made.arity? = blockArities b := by
  induction b generalizing Γ items L with
  | nil =>
    cases h
    rfl
  | cons st b ihb =>
    cases h with
    | cons hst hlast hb =>
      rw [List.filterMap_append, ih st (by simp) hst,
        ihb (fun y hy => ih y (List.mem_cons_of_mem _ hy)) hb, blockArities]

/-- The lambdas that are made for functions in a statement are those of its functions. -/
theorem StmtCode.arities (st : Stmt) : ∀ {Γ Γ' items L}, StmtCode T Γ st items L Γ' →
    L.filterMap Made.arity? = st.arities := by
  have parts : ∀ {a b : Made}, a.role = .whenTrue ∧ b.role = .whenFalse ∨
      a.role = .next ∧ b.role = .loop → [a, b].filterMap Made.arity? = [] := fun h => by
    rcases h with ⟨ha, hb⟩ | ⟨ha, hb⟩ <;> simp [Made.arity?, ha, hb]
  induction st using Stmt.ind with
  | expr sp v =>
    intro Γ Γ' items L h
    cases h with
    | expr h => rw [ExprCode.arities v h, Stmt.arities]
  | assign sp ts v =>
    intro Γ Γ' items L h
    cases h with
    | assign h ha => rw [ExprCode.arities v h, Stmt.arities]; simp
    | setItem hv ho hi ha =>
      rw [List.filterMap_append, ExprCode.arities v hv, ExprCode.arities _ hi, Stmt.arities]
  | augAssign sp t op v =>
    intro Γ Γ' items L h
    cases h with
    | augAssign hop hv ho ha => rw [ExprCode.arities v hv, Stmt.arities]
  | functionDef sp f ps b ds ih =>
    intro Γ Γ' items L h
    cases h with
    | functionDef hrole hlen hl hb hcode ha =>
      rw [List.filterMap_append, hb.arities_of ih, Stmt.arities]
      simp [Made.arity?_function hrole]
  | returnValue sp v =>
    intro Γ Γ' items L h
    cases h with
    | returnNone => rfl
    | returnSome h => rw [ExprCode.arities _ h, Stmt.arities, optArities]
  | ifElse sp t b o ihb iho =>
    intro Γ Γ' items L h
    cases h with
    | ifReturns ht hroles hT hb hcodeT hrT hF ho hcodeF hrF =>
      simp only [List.filterMap_append, ExprCode.arities t ht, hb.arities_of ihb, ho.arities_of iho,
        parts (.inl hroles), List.append_nil, Stmt.arities]
    | ifAssigns ht hroles hT hb hsT hcodeT hrT hF ho hsF hcodeF hrF hsame h =>
      simp only [List.filterMap_append, ExprCode.arities t ht, hb.arities_of ihb, ho.arities_of iho,
        parts (.inl hroles), List.append_nil, Stmt.arities]
  | whileLoop sp t b o ih =>
    intro Γ Γ' items L h
    cases h with
    | whileLoop hvars hlen hformals hΔ hexits ht hb hr hupdated hcode hroles hnext hloop hfound _ _ =>
      simp only [List.filterMap_append, ExprCode.arities t ht, hb.arities_of ih, parts (.inr hroles),
        List.append_nil, Stmt.arities]
  | foreign st hf =>
    intro Γ Γ' items L h
    cases h <;> simp [Stmt.isForeign] at hf

theorem BlockCode.arities {b : List Stmt} {items : List Item} (h : BlockCode T Γ b items L Γ') :
    L.filterMap Made.arity? = blockArities b := h.arities_of fun st _ => StmtCode.arities st

end Arities

section Fitting

variable {T : Table} {M L : List Made} {u m mT mF loop : Made} {k : Nat} {inside : Bool} {Γ Γ' Δ : Ctx}
  {own : List (String × Symbol)} {xs : List String} {formals syms : List Symbol} {n t nT nF : Node}
  {loc : Option Location} {items : List Item}

/-- A lambda made for a function with some parameters, one of several that are called differently. -/
structure IsNested (T : Table) (M : List Made) (u : Made) (k : Nat) : Prop
    extends Defined T u.lambda where
  role : u.role = .function k
  mem : u ∈ M
  unique : ∀ m ∈ M, m.lambda.ref.same u.lambda.ref = true → m = u

/-- All nodes of a piece of code fit a function. -/
def Fits (u : Made) (k : Nat) (inside : Bool) (n : Node) : Prop :=
  ∀ x ∈ n.nodes, u.lambda.fits k inside x = true

/-- Names are read by a function only inside of it. -/
def Ctx.Keeps (Γ : Ctx) (u : Made) (inside : Bool) : Prop := inside = true ∨ Γ.Shuns u.lambda.ref

theorem fits_ref {a : Symbol} (h : a.same u.lambda.ref = false) :
    u.lambda.fits k inside (.ref loc a) = true := by
  simp [Lambda.fits, h]

theorem fits_refs (h : ∀ a ∈ syms, a.same u.lambda.ref = false) :
    ∀ x ∈ Node.allNodes (syms.map (.ref loc)), u.lambda.fits k inside x = true := by
  intro x hx
  simp only [Node.mem_allNodes, List.mem_map, exists_exists_and_eq_and, Node.nodes,
    List.mem_singleton] at hx
  obtain ⟨a, ha, rfl⟩ := hx
  exact fits_ref (h a ha)

theorem Ctx.Keeps.read {a : Symbol} {x : String} (h : Γ.Keeps u inside) (ha : Γ.symbol x = some a) :
    u.lambda.fits k inside (.ref loc a) = true := by
  rcases h with rfl | h
  · rfl
  · exact fits_ref (h x a ha)

theorem Ctx.Keeps.have_ (h : Γ.Keeps u inside) (hs : Γ.Have xs syms) :
    ∀ x ∈ Node.allNodes (syms.map (.ref loc)), u.lambda.fits k inside x = true := by
  rcases h with rfl | h
  · intro x hx
    simp only [Node.mem_allNodes, List.mem_map, exists_exists_and_eq_and, Node.nodes,
      List.mem_singleton] at hx
    obtain ⟨a, -, rfl⟩ := hx
    rfl
  · exact fits_refs (h.have_ hs)

theorem fits_group {result : Option Node} (hitems : ∀ i ∈ items, Fits u k inside i.node)
    (hresult : ∀ r ∈ result, Fits u k inside r) (h : group items result loc = .ok n) :
    Fits u k inside n :=
  group_nodes (fun _ _ _ => rfl) (fun _ _ => rfl) hitems hresult h

namespace IsNested

variable (hu : IsNested T M u k)

include hu

theorem builtin (f : String) : u.lambda.fits k inside (.ref loc (.builtin f)) = true :=
  fits_ref (Symbol.not_same_of_plain hu.generated rfl)

theorem bind {x : String} {a : Symbol} (h : Γ.Keeps u inside) (ha : Fresh T Γ.bound a) :
    (Γ.bind x a).Keeps u inside := h.imp_right fun h => h.bind (hu.fresh ha)

/-- What is made for a part of a conditional or of a loop is called differently. -/
theorem part (hm : T.find? m.lambda.ref = some m.lambda) (h : m.role.tag ≠ "") :
    m.lambda.ref.same u.lambda.ref = false :=
  hu.not_same hm (by rw [u.named, hu.role]; exact h)

/-- The value of a function holds what it captures. -/
theorem function (hm : m ∈ M) (hrole : m.role = .function formals.length)
    (h : Lifted T Γ own xs formals Δ m n) : u.lambda.fits k inside n = true := by
  cases hs : m.lambda.ref.same u.lambda.ref with
  | false =>
    cases h
    unfold closureNode
    split <;> simp [Lambda.fits, hs]
  | true =>
    obtain rfl := hu.unique m hm hs
    have hk : k = formals.length := by
      have := hu.role
      rw [hrole] at this
      cases this
      rfl
    cases h with
    | @mk _ captured syms loc found bound params free read have_ =>
      have hlen := have_.length
      rw [List.length_map] at hlen
      unfold closureNode
      split
      · rename_i he
        obtain rfl : syms = [] := by simpa using he
        obtain rfl : captured = [] := by simpa using hlen
        simp [Lambda.fits, bound, hk]
      · simp [Lambda.fits, bound, hk, hlen]

/-- The value of a branch is not that of the function. -/
theorem branch (hrole : m.role = .whenTrue ∨ m.role = .whenFalse) (hΓ : Γ.Keeps u inside)
    (h : Lifted T Γ own xs formals Δ m n) : Fits u k inside n := by
  have hne := hu.part h.find (by rcases hrole with hrole | hrole <;> rw [hrole] <;> decide)
  intro x hx
  rcases h.nodes x hx with rfl | ⟨loc, y, a, ha, rfl⟩
  · cases h
    unfold closureNode
    split <;> simp [Lambda.fits, hne]
  · exact hΓ.read ha

theorem admits (hL : L ⊆ M) (hΓ : Γ.Keeps u inside) :
    Γ.Admits T L (u.lambda.fits k inside · = true) where
  read _ _ _ ha := hΓ.read ha
  builtin _ f := hu.builtin f
  value _ _ := rfl
  tuple _ _ := rfl
  apply _ _ _ := rfl
  lifted _ hm _ _ _ _ _ hrole h := hu.function (hL hm) hrole h

theorem expr {e : Expr} (hL : L ⊆ M) (hΓ : Γ.Keeps u inside) (h : ExprCode T Γ e n L) :
    Fits u k inside n := ExprCode.all e (hu.admits hL hΓ) h

theorem branchCall (ht : Fits u k inside t) (hT : Fits u k inside nT) (hF : Fits u k inside nF) :
    Fits u k inside (branchCall t nT nF loc) := by
  intro x hx
  simp only [Lowering.branchCall, Node.nodes, Node.allNodes, List.append_nil, List.mem_cons,
    List.mem_append, List.not_mem_nil, or_false] at hx
  rcases hx with rfl | rfl | rfl | hx | hx | hx
  · rfl
  · rfl
  · exact hu.builtin _
  · exact ht x hx
  · exact hT x hx
  · exact hF x hx

/-- A call of a loop does not name the function, but for its arguments. -/
theorem call (hfound : T.find? loop.lambda.ref = some loop.lambda) (hrole : loop.role = .loop)
    (hΓ : Γ.Keeps u inside) (hs : Γ.Have xs syms) :
    Fits u k inside (.apply loc (.ref loc loop.lambda.ref) (syms.map (.ref loc)) false) := by
  intro x hx
  simp only [Node.nodes, List.mem_cons, List.mem_append, List.not_mem_nil, or_false] at hx
  rcases hx with rfl | rfl | hx
  · rfl
  · exact fits_ref (hu.part hfound (by rw [hrole]; decide))
  · exact hΓ.have_ hs x hx

theorem unpacks {tuple : Symbol} {i : Nat} (htuple : tuple.same u.lambda.ref = false)
    (hΓ : Γ.Keeps u inside) (h : Unpacks T tuple i Γ xs items Γ') :
    (∀ i ∈ items, Fits u k inside i.node) ∧ Γ'.Keeps u inside := by
  induction h with
  | nil => exact ⟨by simp, hΓ⟩
  | cons ha _ ih =>
    obtain ⟨hitems, hΓ'⟩ := ih (hu.bind hΓ ha)
    refine ⟨fun i hi => ?_, hΓ'⟩
    rcases List.mem_cons.1 hi with rfl | hi
    · intro x hx
      simp only [Item.node, Lower.projection, Node.nodes, Node.allNodes, List.append_nil,
        List.mem_cons, List.mem_append, List.not_mem_nil, or_false] at hx
      rcases hx with rfl | rfl | rfl | rfl
      · rfl
      · exact hu.builtin _
      · exact fits_ref htuple
      · rfl
    · exact hitems i hi

theorem unpacked (hn : Fits u k inside n) (hΓ : Γ.Keeps u inside) (h : Unpacked T Γ xs n items Γ') :
    (∀ i ∈ items, Fits u k inside i.node) ∧ Γ'.Keeps u inside := by
  cases h with
  | mk htmp h =>
    obtain ⟨hitems, hΓ'⟩ := hu.unpacks (hu.fresh htmp) (hΓ.imp_right Ctx.Shuns.hide) h
    exact ⟨List.forall_mem_cons.2 ⟨hn, hitems⟩, hΓ'⟩

theorem results (hn : Fits u k inside n) (hΓ : Γ.Keeps u inside) (h : Results T Γ n xs items Γ') :
    (∀ i ∈ items, Fits u k inside i.node) ∧ Γ'.Keeps u inside := by
  cases h with
  | nil ha => exact ⟨by simpa [Item.node] using hn, hΓ.imp_right Ctx.Shuns.hide⟩
  | one ha => exact ⟨by simpa [Item.node] using hn, hu.bind hΓ ha⟩
  | many hlen h => exact hu.unpacked hn hΓ h

theorem stmt {st : Stmt} (hL : L ⊆ M) (hΓ : Γ.Keeps u inside) (h : StmtCode T Γ st items L Γ') :
    (∀ i ∈ items, Fits u k inside i.node) ∧ Γ'.Keeps u inside := by
  have one : ∀ {i : Item}, Fits u k inside i.node → ∀ j ∈ [i], Fits u k inside j.node := fun h j hj => by
    obtain rfl := List.mem_singleton.1 hj
    exact h
  cases h with
  | expr h => exact ⟨one (hu.expr hL hΓ h), hΓ⟩
  | assign h ha => exact ⟨one (hu.expr hL hΓ h), hu.bind hΓ ha⟩
  | setItem hv ho hi ha =>
    rw [List.append_subset] at hL
    refine ⟨one fun x hx => ?_, hu.bind hΓ ha⟩
    simp only [Item.node, invoke, Node.nodes, Node.allNodes, List.append_nil, List.mem_cons,
      List.mem_append, List.not_mem_nil, or_false] at hx
    rcases hx with rfl | rfl | rfl | hx | hx
    · rfl
    · exact hu.builtin _
    · exact hΓ.read ho
    · exact hu.expr hL.2 hΓ hi x hx
    · exact hu.expr hL.1 hΓ hv x hx
  | augAssign hop hv ho ha =>
    refine ⟨one fun x hx => ?_, hu.bind hΓ ha⟩
    simp only [Item.node, invoke, Node.nodes, Node.allNodes, List.append_nil, List.mem_cons,
      List.mem_append, List.not_mem_nil, or_false] at hx
    rcases hx with rfl | rfl | rfl | hx
    · rfl
    · exact hu.builtin _
    · exact hΓ.read ho
    · exact hu.expr hL hΓ hv x hx
  | functionDef hrole hlen hl hb hcode ha =>
    refine ⟨one fun x hx => ?_, hu.bind hΓ ha⟩
    rcases hl.nodes x hx with rfl | ⟨loc, y, a, hy, rfl⟩
    · exact hu.function (hL (by simp)) (hlen ▸ hrole) hl
    · exact hΓ.read hy
  | returnNone => exact ⟨one (by simp [Fits, Item.node, Node.nodes, Lambda.fits]), hΓ⟩
  | returnSome h => exact ⟨one (hu.expr hL hΓ h), hΓ⟩
  | ifReturns ht hroles hT hb hcodeT hrT hF ho hcodeF hrF =>
    simp only [List.append_subset] at hL
    exact ⟨one (hu.branchCall (hu.expr hL.1.1.1 hΓ ht) (hu.branch (.inl hroles.1) hΓ hT)
      (hu.branch (.inr hroles.2) hΓ hF)), hΓ⟩
  | ifAssigns ht hroles hT hb hsT hcodeT hrT hF ho hsF hcodeF hrF hsame h =>
    simp only [List.append_subset] at hL
    exact hu.results (hu.branchCall (hu.expr hL.1.1.1 hΓ ht) (hu.branch (.inl hroles.1) hΓ hT)
      (hu.branch (.inr hroles.2) hΓ hF)) hΓ h
  | whileLoop hvars hlen hformals hΔ hexits ht hb hr hupdated hcode hroles hnext hloop hfound hinitial h =>
    exact hu.unpacked (hu.call (hfound _ (by simp)) hroles.2 hΓ hinitial) hΓ h

theorem block {b : List Stmt} (hL : L ⊆ M) (hΓ : Γ.Keeps u inside) (h : BlockCode T Γ b items L Γ') :
    (∀ i ∈ items, Fits u k inside i.node) ∧ Γ'.Keeps u inside := by
  induction b generalizing Γ items L with
  | nil =>
    cases h
    exact ⟨by simp, hΓ⟩
  | cons st b ih =>
    cases h with
    | cons hst hlast hb =>
      rw [List.append_subset] at hL
      obtain ⟨h₁, hΓ₁⟩ := hu.stmt hL.1 hΓ hst
      obtain ⟨h₂, hΓ₂⟩ := ih hL.2 hΓ₁ hb
      exact ⟨fun i hi => (List.mem_append.1 hi).elim (h₁ i) (h₂ i), hΓ₂⟩

/-- The body of a lambda fits the function, which may name itself. -/
theorem body (hL : L ⊆ M) (h : BodyCode T m L) :
    Fits u k (m.lambda.ref.same u.lambda.ref) m.lambda.body := by
  cases h with
  | lambda h =>
    obtain ⟨hrole, hlen, hl, hb⟩ := h
    exact hu.expr hL (.inr (hu.lifted hl fun p hp => .inl (paramBindings_mem hp))) hb
  | function hrole hlen hl hb hcode =>
    refine fits_group (hu.block hL ?_ hb).1 (by simp) hcode
    cases hs : m.lambda.ref.same u.lambda.ref with
    | true => exact .inl rfl
    | false =>
      exact .inr (hu.lifted hl fun p hp =>
        (functionBindings_mem hp).imp_right fun (he : p.2 = m.lambda.ref) => he ▸ hs)
  | returns hrole hl hb hcode =>
    exact fits_group (hu.block hL (.inr (hu.lifted hl (by simp))) hb).1 (by simp) hcode
  | assigns hrole hl hb hsyms hcode =>
    obtain ⟨hitems, hΔ⟩ := hu.block hL (.inr (hu.lifted hl (by simp))) hb
    refine fits_group hitems (fun r hr => ?_) hcode
    cases hr
    intro x hx
    unfold packed at hx
    split at hx
    · obtain ⟨y, hy⟩ := hsyms.symbol _ (List.mem_singleton.2 rfl)
      simp only [Node.nodes, List.mem_singleton] at hx
      exact hx ▸ hΔ.read hy
    · rw [Node.nodes, List.mem_cons] at hx
      rcases hx with rfl | hx
      · rfl
      · exact hΔ.have_ hsyms x hx
  | next h =>
    obtain ⟨taken, given, exits, t', items, updated, code, Δ, Δ', -, rfl, hexits, ht, hb, hupdated, hcode,
      hnext, hloop⟩ := h.inside
    obtain ⟨hitems, hΔ⟩ := hu.block hL (.inr (hu.loop h.params)) hb
    rw [show m.lambda.body = code by rw [hnext]]
    refine fits_group hitems (fun r hr => ?_) hcode
    cases hr
    exact hu.call (h.found _ (by simp)) h.roles.2 hΔ hupdated
  | @loop Γ _ _ next _ formals loc _ _ h =>
    obtain ⟨taken, given, exits, t', items, updated, code, Δ, Δ', -, rfl, hexits, ht, hb, hupdated, hcode,
      hnext, hloop⟩ := h.inside
    have hΔ : (Γ.inner (paramBindings taken formals) [] formals).Shuns u.lambda.ref := hu.loop h.params
    have hne : next.lambda.ref.same u.lambda.ref = false :=
      hu.part (h.found next (by simp)) (by rw [h.roles.1]; decide)
    have hformals := hu.not_param h.params
    have hidentity := Symbol.not_same_of_plain (b := Flat.identity) hu.generated rfl
    rw [show m.lambda.body = turnCode loc t' next.lambda.ref formals exits by rw [hloop]]
    refine hu.branchCall (hu.expr hL (.inr hΔ) ht) (fun x hx => ?_) fun x hx => ?_
    · rw [Node.nodes, List.mem_cons] at hx
      rcases hx with rfl | hx
      · simp [Lambda.fits, hne]
      · exact fits_refs hformals x hx
    · simp only [Node.nodes, Node.allNodes, List.append_nil, List.mem_cons] at hx
      rcases hx with rfl | rfl | hx
      · simp [Lambda.fits, hidentity]
      · rfl
      · exact fits_refs (hΔ.have_ hexits) x hx

end IsNested

end Fitting

end Lowering

end Hoist
