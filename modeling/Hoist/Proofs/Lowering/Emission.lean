import Hoist.Proofs.Lowering.Context
import Hoist.Proofs.Lowering.Trees

/-!
# What lowering emits

Lowering emits the code of the tree that it lowers, in the context of its state, and defines the lambdas
that come with the code, in their order. The code of an inner body is read in a context of its own, over the names
that
the body has captured when it is done; it is lifted when these are read around it.
-/

namespace Hoist.Lowering

open Hoist.Flat (Symbol Node Location Space Table Lambda known allOver)
open Hoist.Surface (Expr Stmt Operator Params allReads optReads blockReads blockAssigns blockReturns
  blockDeclares)

section Tables

variable {s t : State} {x : String} {loc : Option Location} {n : Node} {xs : List String}
  {ns : List Node} {env : Env} {child : Body} {formals : List Symbol} {code : Node}

theorem Read.table (h : Read x loc s n t) : t.table = s.table := by
  cases h <;> rfl

theorem readNames_table (hs : Valid s) (h : Yields (Lower.readNames loc xs) s ns t) :
    t.table = s.table := by
  induction xs generalizing s ns with
  | nil =>
    obtain ⟨-, rfl⟩ := Yields.pure_iff.1 h
    rfl
  | cons x xs ih =>
    simp only [Lower.readNames, Yields.bind_iff, Yields.pure_iff] at h
    obtain ⟨n, u, hx, ns, v, hxs, -, rfl⟩ := h
    rw [ih (readName_reads hs hx).valid hxs, (read_of_readName hs hx).table]

/-- Lifting a body adds its lambda to the table, and nothing else. -/
theorem lift_table (hs : Valid s) (h : Yields (Lower.lift env child formals code loc) s n t) :
    t.table.lambdas = s.table.lambdas ++ [child.lambda formals code loc] ∧
      s.issued ≤ t.issued := by
  obtain ⟨captured, u, hread, -, -, rfl⟩ := lift_iff.1 h
  have hu := readNames_reads hs hread
  exact ⟨by rw [← readNames_table hs hread]; rfl, hu.advances.issued⟩

end Tables

section Bodies

variable {T : Table} {F : List (String × Symbol)} {B formals : List Symbol} {s t u v w z : State}
  {xs reads d a : List String} {b : Bool} {env : Env} {loc : Option Location} {code n : Node}
  {own : List (String × Symbol)} {start : String → Option Symbol} {dest : Symbol}
  {err : Option String} {child : Body} {α : Type} {step : Lower α} {c : α}
  {P : Ctx → α → List Made → Ctx → Prop}

theorem Caught.of_defining {l : Lambda} (h : Caught F s (t.defining env l)) : Caught F s t :=
  ⟨h.nodup, h.sub, h.named, h.pulling⟩

/-- The context that an inner body begins in, over what it captures. -/
theorem Binds.ctx {pulling : Bool} (hb : Binds xs formals u v) (own : List (String × Symbol))
    (ho : Opens start dest pulling err s u) (hs : Valid s)
    (hown : ∀ x, start x = own.lookup x) (captured : List (String × Symbol)) :
    v.ctx captured (captured.map (·.2) ++ formals) =
      (s.ctx F B).inner (paramBindings xs formals ++ own) captured formals := by
  have hv : ∀ x, v.own x = (paramBindings xs formals ++ own).lookup x := by
    intro x
    rw [hb.own, ho.own, hown, List.lookup_append]
  unfold State.ctx Ctx.inner
  congr 1
  · funext x
    unfold State.visible
    rw [State.sees_eq, hv, hb.outer, ho.outer hs]
    cases (paramBindings xs formals ++ own).lookup x <;> rfl
  · funext x
    rw [hv]

/-- Back in the outer body, its context is as it was. -/
theorem Opens.ctx_back {pulling : Bool} (ho : Opens start dest pulling err s u) (hs : Valid s)
    (hw : Valid w) (hadv : Advances u w) : (w.resume s.body).ctx F B = s.ctx F B := by
  unfold State.ctx
  rw [(ho.back hs hw hadv).visible hs, funext fun x => ho.own_back hs hadv x]

/-- What an inner body has captured it reads and does not bind, and it is visible around the body. -/
theorem Effect.captured (h : Effect reads d a b v w) (hfree : v.freeNames = []) :
    ∀ p ∈ w.body.free, p.1 ∈ reads ∧ v.isFree p.1 = true := by
  intro p hp
  have hm : p.1 ∈ w.freeNames := List.mem_map_of_mem hp
  rw [h.free, hfree] at hm
  simp only [mem_noteAll, List.not_mem_nil, false_or, List.mem_filter] at hm
  exact hm

/-- The code of an inner body that captures what it meets as free. -/
theorem Emits.inner (hstep : Emits T step P) (own : List (String × Symbol))
    (hacts : Acts reads d a b step) (hs : Valid s)
    (ho : Opens start dest true err s u) (hown : ∀ x, start x = own.lookup x)
    (hb : Binds xs formals u v) (hv : Valid v) (hT : Final T u w) (h : Yields step v c w) :
    Formals T (w.body.free.map (·.2) ++ formals) ∧
      (∀ p ∈ w.body.free, (paramBindings xs formals ++ own).lookup p.1 = none ∧
        p.1 ∈ reads ∧ s.visible p.1 = true) ∧
      ∃ L B', Adds v w L ∧
        P ((s.ctx F B).inner (paramBindings xs formals ++ own) w.body.free formals) c L
          (w.ctx w.body.free B') := by
  have hbody := ho.body
  have htop : v.body.topLevel = false := by rw [hb.body, hbody]
  have hpull : v.body.pulling = true := by rw [hb.body, hbody]
  have hfree : v.body.free = [] := by rw [hb.body, hbody]
  have he := hacts hv htop h
  have hcaught : Caught w.body.free v w :=
    ⟨he.valid.free_nodup, fun _ hp => hp, fun _ hp _ _ => hp,
      fun hp => by rw [hpull] at hp; cases hp⟩
  have hbounded : Bounded (w.body.free.map (·.2) ++ formals) w.body.free v := by
    intro e he'
    rcases List.mem_append.1 he' with hm | hm
    · exact .inl hm
    · exact .inr (hb.named e hm).2
  obtain ⟨L, B', hadds, -, hP⟩ := hstep hv htop h (hT.narrow hb.issued le_rfl (.refl _)) hcaught
    hbounded
  rw [hb.ctx (F := F) (B := B) own ho hs hown] at hP
  refine ⟨?_, fun p hp => ?_, L, B', hadds, hP⟩
  · refine hb.params (ho.valid hs) (by rw [hbody]) he.valid he.advances hT fun hp => ?_
    rw [hbody] at hp
    cases hp
  · obtain ⟨hread, hf⟩ := he.captured (by rw [State.freeNames, hfree]; rfl) p hp
    have hvis := State.visible_of_isFree hf
    unfold State.isFree at hf
    unfold State.visible at hvis ⊢
    rw [hb.own, ho.own, hown, ← List.lookup_append, hb.outer, ho.outer hs] at hf
    simp only [Bool.and_eq_true, Option.isNone_iff_eq_none] at hf
    exact ⟨hf.1, hread, hf.2⟩

/-- A body that is lifted: its lambda is in the finished table, and what it captures is read. -/
theorem lift_code (own : List (String × Symbol)) (m : Made) (hm : m.lambda = child.lambda formals code loc)
    (hz : Valid z) (h : Yields (Lower.lift env child formals code loc) z n t)
    (hfind : ∀ l ∈ t.table.lambdas, T.find? l.ref = some l) (hF : Caught F z t)
    (hparams : Formals T (child.free.map (·.2) ++ formals))
    (hfree : ∀ p ∈ child.free, own.lookup p.1 = none ∧ p.1 ∈ reads ∧ z.visible p.1 = true) :
    Adds z t [m] ∧ t.ctx F B = z.ctx F B ∧
      Lifted T (z.ctx F B) own reads formals ((z.ctx F B).inner own child.free formals) m n := by
  have htable := (lift_table hz h).1
  rw [← hm] at htable
  have hlambda := hfind m.lambda (by rw [htable]; simp)
  obtain ⟨captured, y, hread, -, rfl, rfl⟩ := lift_iff.1 h
  have hy := readNames_reads hz hread
  have hF' := hF.of_defining
  obtain ⟨syms, hsyms, rfl⟩ := readNames_code (B := B) hz hF' hread fun x hx => by
    obtain ⟨p, hp, rfl⟩ := List.mem_map.1 hx
    exact (hfree p hp).2.2
  have hbound : m.lambda.params = child.free.map (·.2) ++ formals := by rw [hm]; rfl
  have hnode : child.dest = m.lambda.ref := by rw [hm]; rfl
  refine ⟨htable, (hy.ctx_eq hz hF' :), ?_⟩
  rw [hnode]
  exact .mk hlambda hbound (hbound ▸ hparams) (fun p hp => (hfree p hp).1)
    (fun p hp => (hfree p hp).2.1) hsyms

end Bodies

section Closures

variable {T : Table} {F : List (String × Symbol)} {B : List Symbol} {s t : State} {env : Env}
  {params : Params Expr} {code : Lower Node} {loc : Option Location} {name : Option String}
  {ref : Symbol} {n : Node} {reads d a : List String} {b : Bool}
  {P : Ctx → Node → List Made → Ctx → Prop}

theorem ownName_lookup (x : String) :
    ownName name ref x = (name.toList.map (·, ref)).lookup x := by
  unfold ownName
  cases name with
  | none => rfl
  | some f =>
    by_cases h : x = f
    · simp [h]
    · have : (x == f) = false := by simpa using h
      simp [Ne.symm h, List.lookup_cons, this]

/-- The code of a closure: its body's code in a lambda over what it captures. -/
theorem lowerClosure_code (role : Role) (hs : Valid s) (hr : Reserved ref s)
    (htag : ref.relation = role.tag) (hcode : Emits T code P) (hacts : Acts reads d a b code)
    (h : Yields (Lower.lowerClosure env params code loc name (some ref)) s n t)
    (hT : Final T s t) (hF : Caught F s t) :
    t.ctx F B = s.ctx F B ∧ ∃ (m : Made) (L : List Made) (formals : List Symbol) (Δ Δ' : Ctx),
      Adds s t (L ++ [m]) ∧ m.role = role ∧ m.lambda.ref = ref ∧
      params.names.length = formals.length ∧
      Lifted T (s.ctx F B) (paramBindings params.names formals ++ name.toList.map (·, ref)) reads
        formals Δ m n ∧
      P Δ m.lambda.body L Δ' := by
  obtain ⟨u, ho, hiff⟩ := lowerClosure_iff hs ref hr.le env params code loc name
  obtain ⟨formals, v, c, w, hf, hc, hlift⟩ := (hiff n t).1 h
  have hu := ho.valid hs
  have hb := bindFreshAll_code hf
  have hv := bindFreshAll_effect hu hf
  have hw := hacts hv.valid (by rw [hb.body, ho.body]) hc
  have hadv := hv.advances.trans hw.advances
  have hback := ho.back hs hw.valid hadv
  have hdest : w.body.dest = ref := by rw [hadv.body.dest, ho.body]
  obtain ⟨htable, hissued⟩ := lift_table hback.valid hlift
  -- The lambda of the closure was named before its body was opened.
  have hT' : Final T u w := by
    refine hT.narrow ho.issued hissued ⟨_, htable, fun l hl => .inl ?_⟩
    obtain rfl := List.mem_singleton.1 hl
    rw [Body.lambda, hdest]
    exact le_trans hr.le ho.issued
  obtain ⟨hparams, hfree, L, B', hadds, hP⟩ := hcode.inner (F := F) (B := B) _ hacts hs ho
    ownName_lookup hb hv.valid hT' hc
  have hctx := ho.ctx_back (F := F) (B := B) hs hw.valid hadv
  have hgenerated : w.body.dest.isGenerated = true := by rw [hdest]; exact hr.generated
  have hnamed : w.body.dest.relation = role.tag := by rw [hdest]; exact htag
  let m : Made := ⟨role, w.body.lambda formals c loc, hgenerated, hnamed⟩
  obtain ⟨hadds', hctx', hlifted⟩ := lift_code _ (B := B) m rfl hback.valid hlift
    (fun _ => hT.find) (hF.behind hback.advances) hparams fun p hp =>
      ⟨(hfree p hp).1, (hfree p hp).2.1, by rw [hback.visible hs]; exact (hfree p hp).2.2⟩
  rw [hctx] at hctx' hlifted
  have hbefore : Adds s v [] := .of_eq (hb.table.trans ho.table)
  exact ⟨hctx', m, L, formals, _, _, (hbefore.trans hadds).trans hadds', rfl, hdest, hb.length, hlifted,
    hP⟩

end Closures

/-- A step that only reads and emits code: what it yields is related to the context and to the lambdas
that it defines. -/
def Renders {α : Type} (T : Table) (reads : List String) (x : Lower α)
    (P : Ctx → α → List Made → Prop) : Prop :=
  ∀ ⦃s a t⦄, Valid s → Yields x s a t → Reads reads s t ∧
    ∀ {F B}, Final T s t → Caught F s t → ∃ L, Adds s t L ∧ P (s.ctx F B) a L

/-- Two steps, one after the other. -/
def Lower.pair {α β : Type} (x : Lower α) (y : Lower β) : Lower (α × β) := do
  let a ← x
  let b ← y
  return (a, b)

theorem pair_iff {α β : Type} {x : Lower α} {y : Lower β} {s t : State} {a : α} {b : β} :
    Yields (Lower.pair x y) s (a, b) t ↔ ∃ u, Yields x s a u ∧ Yields y u b t := by
  simp only [Lower.pair, Yields.bind_iff, Yields.pure_iff, Prod.mk.injEq]
  constructor
  · rintro ⟨_, u, hx, _, _, hy, ⟨rfl, rfl⟩, rfl⟩; exact ⟨u, hx, hy⟩
  · rintro ⟨u, hx, hy⟩; exact ⟨a, u, hx, b, t, hy, ⟨rfl, rfl⟩, rfl⟩

namespace Renders

variable {T : Table} {α β : Type} {r r' : List String} {x : Lower α} {y : Lower β}
  {P : Ctx → α → List Made → Prop} {Q : Ctx → β → List Made → Prop} {s t u : State} {a : α} {b : β}

/-- Steps that only read are rendered in one context. -/
theorem seq (hx : Renders T r x P) (hy : Renders T r' y Q) (hs : Valid s) (h : Yields x s a u)
    (h' : Yields y u b t) : Reads (r ++ r') s t ∧
      ∀ {F B}, Final T s t → Caught F s t →
        ∃ L R, Adds s t (L ++ R) ∧ P (s.ctx F B) a L ∧ Q (s.ctx F B) b R := by
  obtain ⟨h₁, hP⟩ := hx hs h
  obtain ⟨h₂, hQ⟩ := hy h₁.valid h'
  refine ⟨h₁.trans hs h₂, fun {F B} hT hF => ?_⟩
  have hF₁ := hF.before h₁.advances h₂.advances
  obtain ⟨L, hadds₁, hp⟩ := hP (B := B) (hT.before h₂.advances) hF₁
  obtain ⟨R, hadds₂, hq⟩ := hQ (B := B) (hT.behind h₁.advances) (hF.behind h₁.advances)
  rw [h₁.ctx_eq hs hF₁] at hq
  exact ⟨L, R, hadds₁.trans hadds₂, hp, hq⟩

theorem pair (hx : Renders T r x P) (hy : Renders T r' y Q) :
    Renders T (r ++ r') (Lower.pair x y) fun Γ p K => ∃ L R, K = L ++ R ∧ P Γ p.1 L ∧ Q Γ p.2 R := by
  rintro s ⟨a, b⟩ t hs h
  obtain ⟨u, ha, hb⟩ := pair_iff.1 h
  obtain ⟨hreads, hcode⟩ := hx.seq hy hs ha hb
  refine ⟨hreads, fun hT hF => ?_⟩
  obtain ⟨L, R, hadds, hp, hq⟩ := hcode hT hF
  exact ⟨L ++ R, hadds, L, R, rfl, hp, hq⟩

theorem emits (hx : Renders T r x P) : Emits T x fun Γ a L Γ' => P Γ a L ∧ Γ' = Γ := by
  intro s a t F B hs _ h hT hF hB
  obtain ⟨h₁, hP⟩ := hx hs h
  obtain ⟨L, hadds, hp⟩ := hP (B := B) hT hF
  exact ⟨L, B, hadds, hB.advance h₁.advances.issued, hp, h₁.ctx_eq hs hF⟩

end Renders

section Expressions

variable {T : Table} {env : Env}

theorem lowerExprs_renders {es : List Expr}
    (ih : ∀ e ∈ es, Renders T e.reads (Lower.lowerExpr env e) (ExprCode T · e)) :
    Renders T (allReads es) (Lower.lowerExprs env es) (ExprsCode T · es) := by
  induction es with
  | nil =>
    intro s ns t hs h
    obtain ⟨rfl, rfl⟩ := Yields.pure_iff.1 h
    exact ⟨.refl hs, fun _ _ => ⟨_, .of_eq rfl, .nil⟩⟩
  | cons e es ihs =>
    intro s ns t hs h
    simp only [Lower.lowerExprs, Yields.bind_iff, Yields.pure_iff] at h
    obtain ⟨n, u, he, ns, v, hes, rfl, rfl⟩ := h
    obtain ⟨hr, hcode⟩ := (ih e (by simp)).seq
      (ihs fun e' he' => ih e' (List.mem_cons_of_mem _ he')) hs he hes
    refine ⟨hr, fun hT hF => ?_⟩
    obtain ⟨L, R, hadds, h₁, h₂⟩ := hcode hT hF
    exact ⟨_, hadds, .cons h₁ h₂⟩

theorem lowerOption_renders {o : Option Expr} {v : Literal}
    (ih : ∀ e ∈ o, Renders T e.reads (Lower.lowerExpr env e) (ExprCode T · e)) :
    Renders T (optReads o) (Lower.lowerOption env o v) (OptionCode T · v o) := by
  intro s n t hs h
  cases o with
  | none =>
    obtain ⟨rfl, rfl⟩ := Yields.pure_iff.1 h
    exact ⟨.refl hs, fun _ _ => ⟨_, .of_eq rfl, .none⟩⟩
  | some e =>
    obtain ⟨hr, hcode⟩ := ih e rfl hs h
    refine ⟨hr, fun hT hF => ?_⟩
    obtain ⟨L, hadds, he⟩ := hcode hT hF
    exact ⟨_, hadds, .some he⟩

/-- An expression emits its code. -/
theorem lowerExpr_renders (hx : env.expansions = []) (e : Expr) :
    Renders T e.reads (Lower.lowerExpr env e) (ExprCode T · e) := by
  induction e using Expr.ind with
  | name sp x =>
    intro s n t hs h
    simp only [Lower.lowerExpr] at h
    refine ⟨readName_reads hs h, fun {F B} hT hF => ?_⟩
    obtain ⟨a, ha, rfl⟩ := readName_code (B := B) hs hF h
    exact ⟨_, .of_eq (read_of_readName hs h).table, .name ha⟩
  | constant sp v =>
    intro s n t hs h
    simp only [Lower.lowerExpr, Yields.pure_iff] at h
    obtain ⟨rfl, rfl⟩ := h
    exact ⟨.refl hs, fun _ _ => ⟨_, .of_eq rfl, .constant⟩⟩
  | binary sp op l r ihl ihr =>
    intro s n t hs h
    simp only [Lower.lowerExpr, Yields.bind_iff, operatorNode_iff, Yields.pure_iff] at h
    obtain ⟨_, _, ⟨f, hop, rfl, rfl⟩, _, u, hl, _, v, hr, rfl, rfl⟩ := h
    obtain ⟨hreads, hcode⟩ := ihl.seq ihr hs hl hr
    refine ⟨hreads, fun hT hF => ?_⟩
    obtain ⟨L, R, hadds, h₁, h₂⟩ := hcode hT hF
    exact ⟨_, hadds, .binary hop h₁ h₂⟩
  | unary sp op x ih =>
    intro s n t hs h
    simp only [Lower.lowerExpr, Yields.bind_iff, operatorNode_iff, Yields.pure_iff] at h
    obtain ⟨_, _, ⟨f, hop, rfl, rfl⟩, _, u, hx, rfl, rfl⟩ := h
    obtain ⟨hreads, hcode⟩ := ih hs hx
    refine ⟨hreads, fun hT hF => ?_⟩
    obtain ⟨L, hadds, h₁⟩ := hcode hT hF
    exact ⟨_, hadds, .unary hop h₁⟩
  | compare sp l op r ihl ihr =>
    intro s n t hs h
    simp only [Lower.lowerExpr, Yields.bind_iff, operatorNode_iff, Yields.pure_iff] at h
    obtain ⟨_, _, ⟨f, hop, rfl, rfl⟩, _, u, hl, _, v, hr, rfl, rfl⟩ := h
    obtain ⟨hreads, hcode⟩ := ihl.seq ihr hs hl hr
    refine ⟨hreads, fun hT hF => ?_⟩
    obtain ⟨L, R, hadds, h₁, h₂⟩ := hcode hT hF
    exact ⟨_, hadds, .compare hop h₁ h₂⟩
  | chain sp l rest hlen =>
    intro s n t hs h
    rcases rest with - | ⟨⟨op, r⟩, - | ⟨_, _⟩⟩
    · simp [Lower.lowerExpr] at h
    · simp at hlen
    · simp [Lower.lowerExpr] at h
  | call sp f args ks ihf ihargs =>
    intro s n t hs h
    simp only [Lower.lowerExpr, expansionOf?_eq_none hx] at h
    cases ks with
    | cons k ks => simp at h
    | nil =>
      simp only [List.isEmpty_nil, Bool.not_true, Bool.false_eq_true, if_false, Yields.bind_iff,
        refuseStarred_iff, Yields.pure_iff] at h
      obtain ⟨_, _, ⟨-, rfl⟩, _, u, ha, _, v, hf, rfl, rfl⟩ := h
      obtain ⟨hreads, hcode⟩ := (lowerExprs_renders ihargs).seq ihf hs ha hf
      refine ⟨hreads, fun hT hF => ?_⟩
      obtain ⟨L, R, hadds, h₁, h₂⟩ := hcode hT hF
      exact ⟨_, hadds, .call h₁ h₂⟩
  | attr sp v name ih =>
    intro s n t hs h
    simp only [Lower.lowerExpr, Yields.bind_iff, Yields.pure_iff] at h
    obtain ⟨_, u, hv, rfl, rfl⟩ := h
    obtain ⟨hreads, hcode⟩ := ih hs hv
    refine ⟨hreads, fun hT hF => ?_⟩
    obtain ⟨L, hadds, h₁⟩ := hcode hT hF
    exact ⟨_, hadds, .attr h₁⟩
  | subscript sp v i ihv ihi =>
    intro s n t hs h
    simp only [Lower.lowerExpr, Yields.bind_iff, Yields.pure_iff] at h
    obtain ⟨_, u, hv, _, w, hi, rfl, rfl⟩ := h
    obtain ⟨hreads, hcode⟩ := ihv.seq ihi hs hv hi
    refine ⟨hreads, fun hT hF => ?_⟩
    obtain ⟨L, R, hadds, h₁, h₂⟩ := hcode hT hF
    exact ⟨_, hadds, .subscript h₁ h₂⟩
  | slice sp a b c iha ihb ihc =>
    intro s n t hs h
    simp only [lowerExpr_slice, Yields.bind_iff, Yields.pure_iff] at h
    obtain ⟨_, u, ha, _, v, hb, _, w, hc, rfl, rfl⟩ := h
    obtain ⟨hreads, hcode⟩ := ((lowerOption_renders iha).pair (lowerOption_renders ihb)).seq
      (lowerOption_renders ihc) hs (pair_iff.2 ⟨u, ha, hb⟩) hc
    refine ⟨hreads, fun hT hF => ?_⟩
    obtain ⟨_, R, hadds, ⟨L, M, rfl, h₁, h₂⟩, h₃⟩ := hcode hT hF
    exact ⟨_, hadds, .slice h₁ h₂ h₃⟩
  | extSlice sp es ih =>
    intro s n t hs h
    simp only [Lower.lowerExpr, Yields.bind_iff, Yields.pure_iff] at h
    obtain ⟨_, u, hes, rfl, rfl⟩ := h
    obtain ⟨hreads, hcode⟩ := lowerExprs_renders ih hs hes
    refine ⟨hreads, fun hT hF => ?_⟩
    obtain ⟨L, hadds, h₁⟩ := hcode hT hF
    exact ⟨_, hadds, .extSlice h₁⟩
  | tuple sp es ih =>
    intro s n t hs h
    simp only [Lower.lowerExpr, Yields.bind_iff, Yields.pure_iff] at h
    obtain ⟨_, u, hes, rfl, rfl⟩ := h
    obtain ⟨hreads, hcode⟩ := lowerExprs_renders ih hs hes
    refine ⟨hreads, fun hT hF => ?_⟩
    obtain ⟨L, hadds, h₁⟩ := hcode hT hF
    exact ⟨_, hadds, .tuple h₁⟩
  | lambda sp ps b ih =>
    intro s n t hs h
    refine ⟨lowerExpr_reads hx _ hs h, fun {F B} hT hF => ?_⟩
    simp only [Lower.lowerExpr, Yields.bind_iff, requirePositional_iff] at h
    obtain ⟨_, _, ⟨-, rfl⟩, h⟩ := h
    rw [lowerClosure_fresh_iff] at h
    have hi := issued_reads hs
    obtain ⟨-, m, L, formals, Δ, Δ', hadds, hrole, -, hlen, hl, hc, -⟩ := lowerClosure_code (B := B)
      (.function ps.names.length) hi.valid (Reserved.issue hs _ rfl) rfl ih.emits (lowerExpr_acts hx b)
      h (hT.behind hi.advances) (hF.behind hi.advances)
    rw [Option.toList_none, List.map_nil, List.append_nil] at hl
    have hbefore : Adds s s.issuing [] := .of_eq rfl
    exact ⟨_, hbefore.trans hadds, .lambda hrole hlen hl hc⟩
  | foreign e hf =>
    intro s n t hs h
    cases e <;> simp [Expr.isForeign] at hf <;> simp [Lower.lowerExpr] at h

end Expressions

end Hoist.Lowering
