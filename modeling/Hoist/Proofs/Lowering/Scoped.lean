import Hoist.Proofs.Lowering.Bodies

/-!
# The code of a tree is closed

In a context whose symbols are known to the lambda, the code of an expression refers to nothing but
what is known, and the items of statements do so one after the other: each binds a new symbol, which
is known to the items behind it. Grouping such items gives a closed body.
-/

namespace Hoist.Lowering

open Hoist.Flat (Symbol Node Location Table Lambda known allOver allClosed bindingsClosed
  allOver_iff)
open Hoist.Surface (Expr Stmt blockReads blockAssigns blockReturns)

section Known

variable {T : Table} {B B' : List Symbol} {a b ref : Symbol}

theorem known_mono (h : ∀ b ∈ B, b ∈ B') (ha : known T B a = true) : known T B' a = true := by
  simp only [known, Bool.or_eq_true, List.any_eq_true] at ha ⊢
  rcases ha with (ha | ⟨b, hb, hs⟩) | ha
  · exact .inl (.inl ha)
  · exact .inl (.inr ⟨b, h b hb, hs⟩)
  · exact .inr ha

theorem known_of_mem (h : a ∈ B) : known T B a = true := by
  simp only [known, Bool.or_eq_true, List.any_eq_true]
  exact .inl (.inr ⟨a, h, Symbol.same_self a⟩)

theorem known_of_plain (h : a.isGenerated = false) : known T B a = true := by
  simp [known, h]

theorem contains_of_find {l : Lambda} (h : T.find? a = some l) : T.contains a = true := by
  unfold Table.find? at h
  exact List.any_eq_true.2 ⟨l, List.mem_of_find?_eq_some h, by simpa using List.find?_some h⟩

theorem known_of_find {l : Lambda} (h : T.find? a = some l) : known T B a = true := by
  simp [known, contains_of_find h]

/-- What is known is another symbol than a new one. -/
theorem Fresh.ne_known (ha : Fresh T B a) (hb : known T B b = true) : b.same a = false := by
  rw [Symbol.same_of_generated ha.generated, beq_eq_false_iff_ne]
  intro he
  have hg : b.isGenerated = true := by
    have := ha.generated
    rw [Symbol.isGenerated] at this ⊢
    rwa [he]
  simp only [known, hg, Bool.not_true, Bool.false_or, Bool.or_eq_true, List.any_eq_true] at hb
  rcases hb with ⟨c, hc, hs⟩ | hb
  · rw [Symbol.same_of_generated hg] at hs
    exact ha.bound c hc (by simpa [he] using hs)
  · have hsame : T.contains a = T.contains b := by
      simp only [Table.contains, Symbol.same_of_generated ha.generated,
        Symbol.same_of_generated hg, he]
    rw [← hsame, ha.table] at hb
    cases hb

theorem Fresh.mono (h : ∀ b ∈ B, b ∈ B') (ha : Fresh T B' a) : Fresh T B a :=
  ⟨ha.generated, ha.table, fun b hb => ha.bound b (h b hb)⟩

theorem allOver_refs {loc : Option Location} {syms : List Symbol} {p : Symbol → Bool}
    (h : ∀ a ∈ syms, p a = true) : allOver p (syms.map (.ref loc)) = true := by
  rw [allOver_iff]
  intro n hn
  obtain ⟨a, ha, rfl⟩ := List.mem_map.1 hn
  simpa [Node.isOver] using h a ha

end Known

section Contexts

variable {T : Table} {Γ Δ : Ctx} {x : String} {a : Symbol} {xs : List String}
  {syms formals : List Symbol} {own : List (String × Symbol)} {m : Made} {n : Node}

/-- The symbols of a context are known to the lambda. -/
def Ctx.Sound (T : Table) (Γ : Ctx) : Prop :=
  ∀ x a, Γ.sym x = some a → known T Γ.bound a = true

namespace Ctx.Sound

theorem symbol (h : Γ.Sound T) (ha : Γ.symbol x = some a) : known T Γ.bound a = true := by
  unfold Ctx.symbol at ha
  split at ha
  · exact h x a ha
  · cases ha
    exact known_of_plain rfl

theorem bind (h : Γ.Sound T) : (Γ.bind x a).Sound T := by
  intro y b hb
  unfold Ctx.bind at hb
  simp only at hb
  split at hb
  · cases hb
    exact known_of_mem (by simp [Ctx.bind])
  · exact known_mono (fun _ hc => List.mem_append_left _ hc) (h y b hb)

theorem hide (h : Γ.Sound T) : (Γ.hide a).Sound T :=
  fun y b hb => known_mono (fun _ hc => List.mem_append_left _ hc) (h y b hb)

/-- A lambda starts with its parameters, and its own names stand for those or for lambdas. -/
theorem inner {captured : List (String × Symbol)}
    (hown : ∀ p ∈ own, p.2 ∈ formals ∨ known T [] p.2 = true) :
    (Γ.inner own captured formals).Sound T := by
  intro y b hb
  simp only [Ctx.inner, Option.or_eq_some_iff] at hb
  rcases hb with hb | ⟨-, hb⟩
  · obtain ⟨l₁, l₂, rfl, -⟩ := List.lookup_eq_some_iff.1 hb
    rcases hown (y, b) (by simp) with hf | hk
    · exact known_of_mem (by simp [Ctx.inner, hf])
    · exact known_mono (fun _ hc => by cases hc) hk
  · obtain ⟨l₁, l₂, rfl, -⟩ := List.lookup_eq_some_iff.1 hb
    exact known_of_mem (by simp [Ctx.inner])

end Ctx.Sound

/-- A property of symbols that all code in a context is over: it holds of what names are read by, of
builtins and of functions in the table. -/
structure Ctx.Covers (T : Table) (Γ : Ctx) (p : Symbol → Bool) : Prop where
  builtin : ∀ f, p (.builtin f) = true
  symbol : ∀ x a, Γ.symbol x = some a → p a = true
  function : ∀ (m : Made) k, T.find? m.lambda.ref = some m.lambda → m.role = .function k →
    p m.lambda.ref = true

theorem Ctx.Sound.covers (h : Γ.Sound T) : Γ.Covers T (known T Γ.bound) :=
  ⟨fun _ => known_of_plain rfl, fun _ _ => h.symbol, fun _ _ hl _ => known_of_find hl⟩

/-- The symbols that names have are what the names are read by. -/
theorem Ctx.Have.symbol (h : Γ.Have xs syms) : ∀ a ∈ syms, ∃ x, Γ.symbol x = some a := by
  intro a ha
  have hm : some a ∈ xs.map Γ.sym := by rw [h.syms]; exact List.mem_map_of_mem ha
  obtain ⟨x, hxs, hx⟩ := List.mem_map.1 hm
  exact ⟨x, by rw [Ctx.symbol, if_pos (h.visible x hxs), hx]⟩

theorem Ctx.Have.length (h : Γ.Have xs syms) : xs.length = syms.length := by
  simpa using congrArg List.length h.syms

theorem Ctx.Have.covered {p : Symbol → Bool} (h : Γ.Have xs syms) (hp : Γ.Covers T p) :
    ∀ a ∈ syms, p a = true := by
  intro a ha
  obtain ⟨x, hx⟩ := h.symbol a ha
  exact hp.symbol x a hx

theorem Ctx.Have.known (h : Γ.Have xs syms) (hΓ : Γ.Sound T) :
    ∀ a ∈ syms, Flat.known T Γ.bound a = true := h.covered hΓ.covers

namespace Lifted

variable (h : Lifted T Γ own xs formals Δ m n)

include h

theorem bound_eq : m.lambda.params = Δ.bound := by
  cases h with
  | mk found bound => exact bound

theorem find : T.find? m.lambda.ref = some m.lambda := by
  cases h with
  | mk found => exact found

theorem sound (hown : ∀ p ∈ own, p.2 ∈ formals ∨ p.2 = m.lambda.ref) : Δ.Sound T := by
  have hl := h.find
  cases h with
  | mk =>
    refine Ctx.Sound.inner fun p hp => ?_
    rcases hown p hp with hf | he
    · exact .inl hf
    · exact .inr (he ▸ known_of_find hl)

/-- The value of a lambda refers to it and to what it captures. -/
theorem covered {p : Symbol → Bool} (hp : Γ.Covers T p) (hl : p m.lambda.ref = true) :
    n.isOver p = true := by
  cases h with
  | mk found bound params free read have_ =>
    unfold closureNode
    split
    · simpa [Node.isOver] using hl
    · simpa [Node.isOver, hl] using allOver_refs (have_.covered hp)

/-- Inside the value of a lambda there are only reads of what it captures. -/
theorem nodes : ∀ x ∈ n.nodes, x = n ∨ ∃ loc y a, Γ.symbol y = some a ∧ x = .ref loc a := by
  cases h with
  | @mk _ captured syms loc found bound params free read have_ =>
    have hrefs : ∀ x ∈ Node.allNodes (syms.map (.ref loc)), ∃ loc y a, Γ.symbol y = some a ∧
        x = .ref loc a := by
      intro x hx
      simp only [Node.mem_allNodes, List.mem_map, exists_exists_and_eq_and, Node.nodes,
        List.mem_singleton] at hx
      obtain ⟨a, ha, rfl⟩ := hx
      obtain ⟨y, hy⟩ := have_.symbol a ha
      exact ⟨loc, y, a, hy, rfl⟩
    unfold closureNode
    split
    · simp [Node.nodes]
    · intro x hx
      simp only [Node.nodes, List.mem_cons] at hx
      exact hx.imp_right (hrefs x)

theorem isOver (hΓ : Γ.Sound T) : n.isOver (known T Γ.bound) = true :=
  h.covered hΓ.covers (known_of_find h.find)

/-- The lambda is closed when its code is, over what it binds first. -/
theorem isClosed (hcode : m.lambda.body.isClosed T Δ.bound = true) : m.lambda.isClosed T = true := by
  rw [Lambda.isClosed, h.bound_eq]
  exact hcode

end Lifted

theorem paramBindings_mem {p : String × Symbol} (h : p ∈ paramBindings xs formals) :
    p.2 ∈ formals := by
  unfold paramBindings at h
  exact (List.of_mem_zip (List.mem_reverse.1 h)).2

/-- The names of a function's own are its parameters and itself. -/
theorem functionBindings_mem {p : String × Symbol} {f : String} {ref : Symbol}
    (h : p ∈ paramBindings xs formals ++ [(f, ref)]) : p.2 ∈ formals ∨ p.2 = ref := by
  rcases List.mem_append.1 h with h | h
  · exact .inl (paramBindings_mem h)
  · obtain rfl := List.mem_singleton.1 h
    exact .inr rfl

/-- All names but that of the function itself stand for its parameters. -/
theorem functionBindings_lookup {f : String} {ref : Symbol} (hx : x ≠ f) :
    (paramBindings xs formals ++ [(f, ref)]).lookup x = (paramBindings xs formals).lookup x := by
  have : (x == f) = false := beq_eq_false_iff_ne.2 hx
  simp [List.lookup_append, List.lookup_cons, this]

end Contexts

section Expressions

variable {T : Table} {Γ : Ctx} {p : Symbol → Bool} {L : List Made}

theorem isOver_invoke {loc : Option Location} {f : String} {ns : List Node}
    (hp : p (.builtin f) = true) :
    (invoke loc (.builtin f) ns).isOver p = allOver p ns := by
  simp [invoke, Node.isOver, hp]

/-- A property of nodes that the code of expressions keeps to in a context, where it comes with some
lambdas. -/
structure Ctx.Admits (T : Table) (Γ : Ctx) (L : List Made) (P : Node → Prop) : Prop where
  read : ∀ loc x a, Γ.symbol x = some a → P (.ref loc a)
  builtin : ∀ loc f, P (.ref loc (.builtin f))
  value : ∀ loc v, P (.value loc v)
  tuple : ∀ loc ns, P (.tuple loc ns)
  apply : ∀ loc f ns, P (.apply loc f ns false)
  lifted : ∀ m ∈ L, ∀ {own reads formals Δ n}, m.role = .function formals.length →
    Lifted T Γ own reads formals Δ m n → P n

namespace Ctx.Admits

variable {P : Node → Prop} {R : List Made} {loc : Option Location} {ns : List Node} {f : String}

theorem left (h : Γ.Admits T (L ++ R) P) : Γ.Admits T L P :=
  { h with lifted := fun m hm => h.lifted m (List.mem_append_left _ hm) }

theorem right (h : Γ.Admits T (L ++ R) P) : Γ.Admits T R P :=
  { h with lifted := fun m hm => h.lifted m (List.mem_append_right _ hm) }

theorem invoke (h : Γ.Admits T L P) (hns : ∀ x ∈ Node.allNodes ns, P x) :
    ∀ x ∈ (invoke loc (.builtin f) ns).nodes, P x := by
  intro x hx
  simp only [Lowering.invoke, Node.nodes, List.mem_cons, List.mem_append, List.not_mem_nil,
    or_false] at hx
  rcases hx with rfl | rfl | hx
  · exact h.apply _ _ _
  · exact h.builtin _ _
  · exact hns x hx

theorem lift (h : Γ.Admits T L P) {m : Made} {own : List (String × Symbol)} {reads : List String}
    {formals : List Symbol} {Δ : Ctx} {n : Node} (hm : m ∈ L) (hrole : m.role = .function formals.length)
    (hl : Lifted T Γ own reads formals Δ m n) : ∀ x ∈ n.nodes, P x := by
  intro x hx
  rcases hl.nodes x hx with rfl | ⟨loc, y, a, ha, rfl⟩
  · exact h.lifted m hm hrole hl
  · exact h.read _ _ _ ha

end Ctx.Admits

theorem ExprsCode.all {P : Node → Prop} {es : List Expr} {ns : List Node}
    (ih : ∀ e ∈ es, ∀ {n L}, Γ.Admits T L P → ExprCode T Γ e n L → ∀ x ∈ n.nodes, P x)
    (hP : Γ.Admits T L P) (h : ExprsCode T Γ es ns L) : ∀ x ∈ Node.allNodes ns, P x := by
  induction es generalizing ns L with
  | nil =>
    cases h
    simp [Node.allNodes]
  | cons e es ihs =>
    cases h with
    | cons he hes =>
      intro x hx
      rw [Node.allNodes, List.mem_append] at hx
      rcases hx with hx | hx
      · exact ih e (by simp) hP.left he x hx
      · exact ihs (fun e' he' => ih e' (List.mem_cons_of_mem _ he')) hP.right hes x hx

theorem OptionCode.all {P : Node → Prop} {o : Option Expr} {v : Literal} {n : Node}
    (ih : ∀ e ∈ o, ∀ {n L}, Γ.Admits T L P → ExprCode T Γ e n L → ∀ x ∈ n.nodes, P x)
    (hP : Γ.Admits T L P) (h : OptionCode T Γ v o n L) : ∀ x ∈ n.nodes, P x := by
  cases h with
  | none => simpa [Node.nodes] using hP.value _ _
  | some he => exact ih _ rfl hP he

/-- All nodes of the code of an expression have a property that the context admits. -/
theorem ExprCode.all {P : Node → Prop} (e : Expr) :
    ∀ {n L}, Γ.Admits T L P → ExprCode T Γ e n L → ∀ x ∈ n.nodes, P x := by
  have two : ∀ {a b : Node}, (∀ x ∈ a.nodes, P x) → (∀ x ∈ b.nodes, P x) →
      ∀ x ∈ Node.allNodes [a, b], P x := fun ha hb x hx => by
    simp only [Node.allNodes, List.append_nil, List.mem_append] at hx
    exact hx.elim (ha x) (hb x)
  induction e using Expr.ind with
  | name sp x =>
    rintro n L hP (_ | _)
    rename_i h
    simpa [Node.nodes] using hP.read _ x _ h
  | constant sp v =>
    intro n L hP h
    cases h
    simpa [Node.nodes] using hP.value _ _
  | binary sp op l r ihl ihr =>
    intro n L hP h
    cases h with
    | binary hop hl hr => exact hP.invoke (two (ihl hP.left hl) (ihr hP.right hr))
  | unary sp op x ih =>
    intro n L hP h
    cases h with
    | unary hop hx => exact hP.invoke (by simpa [Node.allNodes] using ih hP hx)
  | compare sp l op r ihl ihr =>
    intro n L hP h
    cases h with
    | compare hop hl hr => exact hP.invoke (two (ihl hP.left hl) (ihr hP.right hr))
  | chain sp l rest hlen =>
    intro n L hP h
    cases h
    simp at hlen
  | call sp f args ks ihf ihargs =>
    intro n L hP h
    cases h with
    | call hargs hf =>
      intro x hx
      simp only [Node.nodes, List.mem_cons, List.mem_append] at hx
      rcases hx with rfl | hx | hx
      · exact hP.apply _ _ _
      · exact ihf hP.right hf x hx
      · exact hargs.all (fun e he => ihargs e he) hP.left x hx
  | attr sp v name ih =>
    intro n L hP h
    cases h with
    | attr hv => exact hP.invoke (two (ih hP hv) (by simpa [Node.nodes] using hP.value _ _))
  | subscript sp v i ihv ihi =>
    intro n L hP h
    cases h with
    | subscript hv hi => exact hP.invoke (two (ihv hP.left hv) (ihi hP.right hi))
  | slice sp a b c iha ihb ihc =>
    intro n L hP h
    cases h with
    | slice ha hb hc =>
      refine hP.invoke fun x hx => ?_
      simp only [Node.allNodes, List.append_nil, List.mem_append] at hx
      rcases hx with hx | hx | hx
      · exact ha.all iha hP.left.left x hx
      · exact hb.all ihb hP.left.right x hx
      · exact hc.all ihc hP.right x hx
  | extSlice sp es ih =>
    intro n L hP h
    cases h with
    | extSlice h =>
      simpa [Node.nodes] using ⟨hP.tuple _ _, fun x hx => h.all (fun e he => ih e he) hP x hx⟩
  | tuple sp es ih =>
    intro n L hP h
    cases h with
    | tuple h =>
      simpa [Node.nodes] using ⟨hP.tuple _ _, fun x hx => h.all (fun e he => ih e he) hP x hx⟩
  | lambda sp ps b ih =>
    intro n L hP h
    cases h with
    | lambda hrole hlen hl _ => exact hP.lift (by simp) (hlen ▸ hrole) hl
  | foreign e hf =>
    intro n L hP h
    cases h <;> simp [Expr.isForeign] at hf

/-- The code of an expression refers to nothing but what the context covers. -/
theorem ExprCode.covered {e : Expr} {n : Node} (h : ExprCode T Γ e n L) (hp : Γ.Covers T p) :
    n.isOver p = true := by
  refine Node.isOver_iff.2 (ExprCode.all e ?_ h)
  exact
    { read := fun _ x a ha => hp.symbol x a ha
      builtin := fun _ f => hp.builtin f
      value := fun _ _ => rfl
      tuple := fun _ _ => rfl
      apply := fun _ _ _ => rfl
      lifted := fun m _ _ _ _ _ n hrole hl =>
        Node.isOver_iff.1 (hl.covered hp (hp.function m _ hl.find hrole)) n (Node.mem_nodes_self n) }

end Expressions

/-- Items that refer to what is known one after the other, each assignment binding a new symbol. -/
inductive Scoped (T : Table) : List Symbol → List Item → List Symbol → Prop
  | nil {B} : Scoped T B [] B
  | plain {B B' n is} (hn : n.isOver (known T B) = true) (h : Scoped T B is B') :
      Scoped T B (.plain n :: is) B'
  | assign {B B' a is} (hv : a.value.isOver (known T B) = true) (ha : Fresh T B a.var)
      (h : Scoped T (B ++ [a.var]) is B') : Scoped T B (.assign a :: is) B'

section Items

variable {T : Table} {B B' : List Symbol} {items : List Item} {a : Symbol}

namespace Scoped

theorem append {is js : List Item} {B₁ : List Symbol} (h : Scoped T B is B₁)
    (h' : Scoped T B₁ js B') : Scoped T B (is ++ js) B' := by
  induction h with
  | nil => exact h'
  | plain hn _ ih => exact .plain hn (ih h')
  | assign hv ha _ ih => exact .assign hv ha (ih h')

theorem split {is js : List Item} (h : Scoped T B (is ++ js) B') :
    ∃ B₁, Scoped T B is B₁ ∧ Scoped T B₁ js B' := by
  induction is generalizing B with
  | nil => exact ⟨B, .nil, h⟩
  | cons i is ih =>
    cases h with
    | plain hn h =>
      obtain ⟨B₁, h₁, h₂⟩ := ih h
      exact ⟨B₁, .plain hn h₁, h₂⟩
    | assign hv ha h =>
      obtain ⟨B₁, h₁, h₂⟩ := ih h
      exact ⟨B₁, .assign hv ha h₁, h₂⟩

/-- What assignments bind is known behind them, and new before them. -/
theorem assigns {as : List Assignment} (h : Scoped T B (as.map .assign) B') :
    B' = B ++ as.map (·.var) ∧ (∀ a ∈ as, Fresh T B a.var) ∧
      bindingsClosed T B (as.map Assignment.binding) = true := by
  induction as generalizing B with
  | nil =>
    cases h
    simp [bindingsClosed]
  | cons a as ih =>
    cases h with
    | assign hv ha h =>
      obtain ⟨rfl, hfresh, hclosed⟩ := ih h
      have hnew : ∀ c ∈ a :: as, Fresh T B c.var := by
        intro c hc
        rcases List.mem_cons.1 hc with rfl | hc
        · exact ha
        · exact (hfresh c hc).mono fun b hb => List.mem_append_left _ hb
      have hne : ∀ c ∈ a :: as, a.value.mentions c.var = false := fun c hc =>
        Node.not_mentions_of_isOver (fun s hs => (hnew c hc).ne_known hs) hv
      refine ⟨by simp, hnew, ?_⟩
      simp only [List.map_cons, Assignment.binding, bindingsClosed, Node.isClosed_of_isOver hv,
        hne a (by simp), Bool.not_false, Bool.true_and, Bool.and_eq_true, List.all_eq_true]
      refine ⟨fun p hp => ?_, hclosed⟩
      obtain ⟨c, hc, rfl⟩ := List.mem_map.1 hp
      simpa [Assignment.binding] using hne c (List.mem_cons_of_mem _ hc)

theorem plains {ns : List Node} (h : Scoped T B (ns.map .plain) B') :
    B' = B ∧ allOver (known T B) ns = true := by
  induction ns with
  | nil =>
    cases h
    exact ⟨rfl, rfl⟩
  | cons n ns ih =>
    cases h with
    | plain hn h =>
      obtain ⟨rfl, hns⟩ := ih h
      exact ⟨rfl, by simp [allOver, hn, hns]⟩

end Scoped

theorem sequence_closed {n : Node} {ns : List Node} :
    (sequence n ns).isClosed T B = allClosed T B (n :: ns) := by
  unfold sequence
  split <;> simp [allClosed, Node.isClosed]

theorem allClosed_append {ns ms : List Node} :
    allClosed T B (ns ++ ms) = (allClosed T B ns && allClosed T B ms) := by
  induction ns with
  | nil => simp [allClosed]
  | cons n ns ih => simp [allClosed, ih, Bool.and_assoc]

theorem assemble_closed {rs : List Run} {result : Option Node} {loc : Option Location} {n : Node}
    (h : Scoped T B (rs.flatMap Run.items) B')
    (hresult : ∀ r ∈ result, r.isOver (known T B') = true)
    (hn : assemble result loc rs = .ok n) : n.isClosed T B = true := by
  induction rs generalizing B n with
  | nil =>
    cases h
    cases result with
    | none => simp [assemble] at hn
    | some r =>
      simp only [assemble, Except.ok.injEq] at hn
      subst hn
      exact Node.isClosed_of_isOver (hresult r rfl)
  | cons run rs ih =>
    rw [List.flatMap_cons] at h
    obtain ⟨B₁, h₁, h₂⟩ := h.split
    cases run with
    | binds a as =>
      obtain ⟨rfl, -, hclosed⟩ := Scoped.assigns (show Scoped T B ((a :: as).map .assign) B₁ from h₁)
      obtain ⟨-, body, hbody, rfl⟩ := assemble_binds hn
      have hvars : (a :: as).map (·.var) = ((a :: as).map Assignment.binding).map (·.1) := by
        simp [Assignment.binding]
      rw [hvars] at h₂
      simp only [Node.isClosed, hclosed, ih h₂ hbody, Bool.and_self]
    | nodes m ms =>
      obtain ⟨rfl, hover⟩ := Scoped.plains (show Scoped T B ((m :: ms).map .plain) B₁ from h₁)
      have hall := Node.allClosed_of_allOver hover
      rcases assemble_nodes hn with ⟨-, -, rfl⟩ | ⟨body, hbody, rfl⟩
      · rw [sequence_closed, hall]
      · rw [sequence_closed, ← List.cons_append, allClosed_append, hall]
        simp [allClosed, ih h₂ hbody]

/-- Grouped items are closed over what is known before them. -/
theorem group_closed {result : Option Node} {loc : Option Location} {n : Node}
    (h : Scoped T B items B') (hresult : ∀ r ∈ result, r.isOver (known T B') = true)
    (hn : group items result loc = .ok n) : n.isClosed T B = true :=
  assemble_closed ((runs_items items).symm ▸ h) hresult hn

end Items

section Statements

variable {T : Table} {Γ Γ' Δ : Ctx} {xs : List String} {items : List Item} {value : Node}
  {L : List Made}

theorem isOver_projection {p : Symbol → Bool} {tuple : Symbol} {i : Nat} {loc : Option Location}
    (hi : p Flat.index = true) (ht : p tuple = true) :
    (Lower.projection tuple i loc).isOver p = true := by
  simp [Lower.projection, Node.isOver, allOver, hi, ht]

theorem isOver_branchCall {p : Symbol → Bool} {t a b : Node} {loc : Option Location}
    (hs : p Flat.switch = true) :
    (branchCall t a b loc).isOver p = (t.isOver p && a.isOver p && b.isOver p) := by
  simp [branchCall, Node.isOver, allOver, hs, Bool.and_assoc]

theorem isOver_packed {p : Symbol → Bool} {loc : Option Location} {syms : List Symbol}
    (h : ∀ a ∈ syms, p a = true) : (packed loc syms).isOver p = true := by
  unfold packed
  split
  · simpa [Node.isOver] using h
  · simpa [Node.isOver] using allOver_refs h

theorem Unpacks.scoped {tuple : Symbol} {i : Nat} (h : Unpacks T tuple i Γ xs items Γ')
    (hΓ : Γ.Sound T) (ht : tuple ∈ Γ.bound) :
    Scoped T Γ.bound items Γ'.bound ∧ Γ'.Sound T := by
  induction h with
  | nil => exact ⟨.nil, hΓ⟩
  | cons ha _ ih =>
    obtain ⟨hs, hΓ'⟩ := ih hΓ.bind (List.mem_append_left _ ht)
    exact ⟨.assign (isOver_projection (known_of_plain rfl) (known_of_mem ht)) ha hs, hΓ'⟩

theorem Unpacked.scoped (h : Unpacked T Γ xs value items Γ') (hΓ : Γ.Sound T)
    (hv : value.isOver (known T Γ.bound) = true) :
    Scoped T Γ.bound items Γ'.bound ∧ Γ'.Sound T := by
  cases h with
  | mk htmp h =>
    obtain ⟨hs, hΓ'⟩ := h.scoped hΓ.hide (by simp [Ctx.hide])
    exact ⟨.assign hv htmp hs, hΓ'⟩

theorem Results.scoped (h : Results T Γ value xs items Γ') (hΓ : Γ.Sound T)
    (hv : value.isOver (known T Γ.bound) = true) :
    Scoped T Γ.bound items Γ'.bound ∧ Γ'.Sound T := by
  cases h with
  | nil ha => exact ⟨.assign hv ha .nil, hΓ.hide⟩
  | one ha => exact ⟨.assign hv ha .nil, hΓ.bind⟩
  | many hlen h => exact h.scoped hΓ hv

theorem BlockCode.scoped_of {b : List Stmt}
    (ih : ∀ x ∈ b, ∀ {Γ Γ' items L}, Γ.Sound T → StmtCode T Γ x items L Γ' →
      Scoped T Γ.bound items Γ'.bound ∧ Γ'.Sound T)
    (hΓ : Γ.Sound T) (h : BlockCode T Γ b items L Γ') :
    Scoped T Γ.bound items Γ'.bound ∧ Γ'.Sound T := by
  induction b generalizing Γ items L with
  | nil =>
    cases h
    exact ⟨.nil, hΓ⟩
  | cons x b ihb =>
    cases h with
    | cons hx hlast hb =>
      obtain ⟨h₁, hΓ₁⟩ := ih x (by simp) hΓ hx
      obtain ⟨h₂, hΓ₂⟩ := ihb (fun y hy => ih y (List.mem_cons_of_mem _ hy)) hΓ₁ hb
      exact ⟨h₁.append h₂, hΓ₂⟩

/-- The items of a statement are closed one after the other, and the context behind it is sound. -/
theorem StmtCode.scoped (st : Stmt) : ∀ {Γ Γ' items L}, Γ.Sound T → StmtCode T Γ st items L Γ' →
    Scoped T Γ.bound items Γ'.bound ∧ Γ'.Sound T := by
  have hb : ∀ {B} f, known T B (.builtin f) = true := fun f => known_of_plain rfl
  induction st using Stmt.ind with
  | expr sp v =>
    intro Γ Γ' items L hΓ h
    cases h with
    | expr h => exact ⟨.plain (h.covered hΓ.covers) .nil, hΓ⟩
  | assign sp ts v =>
    intro Γ Γ' items L hΓ h
    cases h with
    | assign h ha => exact ⟨.assign (h.covered hΓ.covers) ha .nil, hΓ.bind⟩
    | setItem hv ho hi ha =>
      refine ⟨.assign ?_ ha .nil, hΓ.bind⟩
      simp [Flat.setslice, isOver_invoke (hb _), allOver, Node.isOver, hΓ.symbol ho, hi.covered hΓ.covers,
        hv.covered hΓ.covers]
  | augAssign sp t op v =>
    intro Γ Γ' items L hΓ h
    cases h with
    | augAssign hop hv ho ha =>
      refine ⟨.assign ?_ ha .nil, hΓ.bind⟩
      simp [isOver_invoke (hb _), allOver, Node.isOver, hΓ.symbol ho, hv.covered hΓ.covers]
  | functionDef sp f ps b ds ih =>
    intro Γ Γ' items L hΓ h
    cases h with
    | functionDef _ hlen hl _ _ ha => exact ⟨.assign (hl.isOver hΓ) ha .nil, hΓ.bind⟩
  | returnValue sp v =>
    intro Γ Γ' items L hΓ h
    cases h with
    | returnNone => exact ⟨.plain rfl .nil, hΓ⟩
    | returnSome h => exact ⟨.plain (h.covered hΓ.covers) .nil, hΓ⟩
  | ifElse sp t b o ihb iho =>
    intro Γ Γ' items L hΓ h
    cases h with
    | ifReturns ht _ hT _ _ _ hF _ _ _ =>
      refine ⟨.plain ?_ .nil, hΓ⟩
      simp [isOver_branchCall (known_of_plain rfl), ht.covered hΓ.covers, hT.isOver hΓ, hF.isOver hΓ]
    | ifAssigns ht _ hT _ _ _ _ hF _ _ _ _ _ h =>
      refine h.scoped hΓ ?_
      simp [isOver_branchCall (known_of_plain rfl), ht.covered hΓ.covers, hT.isOver hΓ, hF.isOver hΓ]
  | whileLoop sp t b o ih =>
    intro Γ Γ' items L hΓ h
    cases h with
    | whileLoop _ _ _ _ _ _ _ _ _ _ _ _ _ hfound hinitial h =>
      refine h.scoped hΓ ?_
      have hknown := known_of_find (B := Γ.bound) (hfound _ (List.mem_cons_of_mem _ List.mem_cons_self))
      simp [Node.isOver, hknown, allOver_refs (hinitial.known hΓ)]
  | foreign st hf =>
    intro Γ Γ' items L hΓ h
    cases h <;> simp [Stmt.isForeign] at hf

theorem BlockCode.scoped {b : List Stmt} (hΓ : Γ.Sound T) (h : BlockCode T Γ b items L Γ') :
    Scoped T Γ.bound items Γ'.bound ∧ Γ'.Sound T :=
  h.scoped_of (fun x _ => StmtCode.scoped x) hΓ

/-- The body of a function is closed over what its lambda binds first. -/
theorem BlockCode.closed {b : List Stmt} (result : Option Node) {loc : Option Location} {n : Node}
    (hΓ : Γ.Sound T) (h : BlockCode T Γ b items L Γ')
    (hresult : ∀ r ∈ result, Γ'.Sound T → r.isOver (known T Γ'.bound) = true)
    (hn : group items result loc = .ok n) : n.isClosed T Γ.bound = true := by
  obtain ⟨hs, hΓ'⟩ := h.scoped hΓ
  exact group_closed hs (fun r hr => hresult r hr hΓ') hn

/-- Both lambdas of a loop are closed over its parameters. -/
theorem LoopCode.closed {t : Expr} {b : List Stmt} {next loop : Made} {formals : List Symbol}
    {loc : Option Location} {L R : List Made} (h : LoopCode T Γ t b next loop formals loc L R) :
    next.lambda.isClosed T = true ∧ loop.lambda.isClosed T = true := by
  obtain ⟨taken, given, exits, t', items, updated, code, Δ, Δ', -, rfl, hexits, ht, hb, hupdated,
    hcode, hnext, hloop⟩ := h.inside
  have hΔ : (Γ.inner (paramBindings taken formals) [] formals).Sound T :=
    .inner fun p hp => .inl (paramBindings_mem hp)
  have hbound : (Γ.inner (paramBindings taken formals) [] formals).bound = formals := by
    simp [Ctx.inner]
  have known : ∀ m ∈ [next, loop], ∀ B, known T B m.lambda.ref = true := fun m hm _ =>
    known_of_find (h.found m hm)
  rw [hnext, hloop]
  constructor
  · change code.isClosed T formals = true
    rw [← hbound]
    refine hb.closed _ hΔ (fun r hr hΔ' => ?_) hcode
    cases hr
    simp [Node.isOver, known loop (by simp), allOver_refs (hupdated.known hΔ')]
  · refine Node.isClosed_of_isOver ?_
    have htest := ht.covered hΔ.covers
    have hrefs := hexits.known hΔ
    rw [hbound] at htest hrefs
    rw [turnCode, isOver_branchCall (known_of_plain rfl)]
    simp [Node.isOver, allOver, htest, known next (by simp), allOver_refs hrefs,
      allOver_refs fun a ha => known_of_mem (T := T) ha, known_of_plain (a := Flat.identity) rfl]

/-- A lambda is closed, whatever it was made for. -/
theorem BodyCode.isClosed {m : Made} {L : List Made} (h : BodyCode T m L) :
    m.lambda.isClosed T = true := by
  cases h with
  | lambda h =>
    obtain ⟨hrole, hlen, hl, hb⟩ := h
    have hΔ := hl.sound fun p hp => .inl (paramBindings_mem hp)
    exact hl.isClosed (Node.isClosed_of_isOver (hb.covered hΔ.covers))
  | function hrole hlen hl hb hcode =>
    have hΔ := hl.sound fun p hp => functionBindings_mem hp
    exact hl.isClosed (hb.closed none hΔ (by simp) hcode)
  | returns hrole hl hb hcode =>
    exact hl.isClosed (hb.closed none (hl.sound (by simp)) (by simp) hcode)
  | assigns hrole hl hb hsyms hcode =>
    refine hl.isClosed (hb.closed _ (hl.sound (by simp)) (fun r hr hΔ' => ?_) hcode)
    cases hr
    exact isOver_packed (hsyms.known hΔ')
  | next h => exact h.closed.1
  | loop h => exact h.closed.2

end Statements

end Hoist.Lowering
