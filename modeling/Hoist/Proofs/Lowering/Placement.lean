import Hoist.Proofs.Lowering.Constructs
import Hoist.Proofs.Lowering.Entry
import Hoist.Proofs.Lowering.Statements

/-!
# Where lambdas come to stand in the table

Lowering a piece of a tree adds the lambdas of its constructs to the table, in the order in which they
are listed, and nothing else: what a dry run defines goes to a table of its own.
-/

namespace Hoist.Lowering

open Hoist.Flat (Symbol Node Location Table Lambda)
open Hoist.Surface (Expr Stmt Params allConstructs optConstructs targetConstructs blockConstructs
  blockReads blockDeclares blockAssigns blockReturns)

/-- The lambda is the one that is expected for the construct. -/
structure Stands (env : Env) (c : Construct) (l : Lambda) : Prop where
  name : l.ref.name = c.name
  relation : l.ref.relation = c.role.tag
  /-- A branch stands where its code begins. -/
  place : l.loc = if c.role = .whenTrue ∨ c.role = .whenFalse then
      l.body.loc.or (env.locate c.span) else env.locate c.span
  /-- A function has its own parameters behind those for what it captures. -/
  params : ∀ k, c.role = .function k → k ≤ l.params.length

/-- Between the states, the lambdas of the constructs were added to the table. -/
def Places (env : Env) (cs : List Construct) (s t : State) : Prop :=
  ∃ new, t.table.lambdas = s.table.lambdas ++ new ∧ List.Forall₂ (Stands env) cs new

namespace Places

variable {env : Env} {cs ds : List Construct} {c : Construct} {s t u : State} {l : Lambda}

theorem of_eq (h : t.table = s.table) : Places env [] s t := ⟨[], by rw [h, List.append_nil], .nil⟩

theorem trans (h : Places env cs s t) (h' : Places env ds t u) : Places env (cs ++ ds) s u := by
  obtain ⟨new, hnew, hcs⟩ := h
  obtain ⟨more, hmore, hds⟩ := h'
  exact ⟨new ++ more, by rw [hmore, hnew, List.append_assoc], List.rel_append hcs hds⟩

/-- What comes before and behind without touching the table does not matter. -/
theorem between {s₀ t₀ : State} (h : Places env cs s t) (hs : s.table = s₀.table)
    (ht : t₀.table = t.table) : Places env cs s₀ t₀ := by
  have := ((of_eq hs : Places env [] s₀ s).trans h).trans (of_eq ht)
  rwa [List.nil_append, List.append_nil] at this

theorem single (h : t.table.lambdas = s.table.lambdas ++ [l]) (hl : Stands env c l) :
    Places env [c] s t := ⟨[l], h, .cons hl .nil⟩

end Places

section Bodies

variable {env : Env} {loc : Option Location} {s t : State} {n : Node} {params : Params Expr}
  {code : Lower Node} {cs : List Construct} {reads d a : List String} {b : Bool}
  {span : Surface.Span}

/-- A function comes behind what is nested in it. -/
theorem lowerClosure_places {name : Option String} {ref : Symbol} (hs : Valid s)
    (hr : ref.token ≤ s.issued) (hplain : ref.relation = "") (hcode : Acts reads d a b code)
    (hplaces : ∀ {v c w}, Valid v → v.body.topLevel = false → v.body.dest = ref →
      Yields code v c w → Places env cs v w)
    (h : Yields (Lower.lowerClosure env params code (env.locate span) name (some ref)) s n t) :
    Places env (cs ++ [.mk (.function params.names.length) ref.name span cs]) s t := by
  obtain ⟨u, ho, hiff⟩ := lowerClosure_iff hs ref hr env params code (env.locate span) name
  obtain ⟨formals, v, c, w, hf, hc, hlift⟩ := (hiff n t).1 h
  have hu := ho.valid hs
  have binds := bindFreshAll_code hf
  have e₁ := bindFreshAll_effect hu hf
  have htop : v.body.topLevel = false := by rw [binds.body, ho.body]
  have hdest : v.body.dest = ref := by rw [binds.body, ho.body]
  have e₂ := hcode e₁.valid htop hc
  have hback := ho.back hs e₂.valid (e₁.advances.trans e₂.advances)
  have hinside := hplaces e₁.valid htop hdest hc
  have hsv : v.table = s.table := binds.table.trans ho.table
  refine (hinside.between hsv rfl).trans (.single (lift_table hback.valid hlift).1 ?_)
  have hw : w.body.dest = ref := e₂.advances.body.dest.trans hdest
  exact
    { name := by rw [Body.lambda, hw]; rfl
      relation := by rw [Body.lambda, hw]; exact hplain
      place := rfl
      params := fun k hk => by
        cases hk
        simp [Body.lambda, binds.length] }

/-- A lambda that a branch is built into comes behind what the table holds. -/
theorem buildBranch_places {B : Lower.Branch} {r : Option Node} {role : Role} {path : String}
    (hs : Valid s) (hname : B.body.dest.name = partName path role)
    (hrelation : B.body.dest.relation = role.tag) (hrole : role = .whenTrue ∨ role = .whenFalse)
    (h : Yields (Lower.buildBranch env B r (env.locate span)) s n t) :
    Places env [.mk role (partName path role) span cs] s t := by
  obtain ⟨c, -, hlift⟩ := buildBranch_iff.1 h
  refine .single (lift_table hs hlift).1 ?_
  exact
    { name := hname
      relation := hrelation
      place := (if_pos hrole).symm
      params := fun k hk => by
        rcases hrole with rfl | rfl <;> cases hk }

/-- The statements of a branch place their constructs; its own lambda is yet to come. -/
theorem lowerBranch_places (role : Role) {statements : Lower (List Item)} {B : Lower.Branch}
    (hs : Valid s) (hacts : Acts reads d a b statements)
    (hplaces : ∀ {v items w}, Valid v → v.body.topLevel = false →
      v.body.dest.name = partName s.body.dest.name role → Yields statements v items w →
      Places env cs v w)
    (h : Yields (Lower.lowerBranch role.tag statements) s B t) :
    Places env cs s t ∧ B.body.dest.name = partName s.body.dest.name role ∧
      B.body.dest.relation = role.tag := by
  obtain ⟨u, ho, hiff⟩ := lowerBranch_iff hs role.tag statements
  obtain ⟨w, hw, hb, rfl⟩ := (hiff B t).1 h
  have hi := (issued_reads hs).valid
  have htop : u.body.topLevel = false := by rw [ho.body]
  have hdest : u.body.dest = Flat.derived s.issued s.body.dest role.tag := by rw [ho.body]
  have hname : u.body.dest.name = partName s.body.dest.name role := by rw [hdest]; rfl
  have e := hacts (ho.valid hi) htop hw
  have hB : B.body.dest = Flat.derived s.issued s.body.dest role.tag := by
    rw [hb, e.advances.body.dest, hdest]
  exact ⟨(hplaces (ho.valid hi) htop hname hw).between ho.table rfl, by rw [hB]; rfl,
    by rw [hB]; rfl⟩

end Bodies

section Parts

variable {env : Env} {s₀ s t : State} {span : Surface.Span} {test : Lower Node}
  {body orelse statements : Lower (List Item)} {items : List Item} {cs cT cF : List Construct}
  {r r' rT rF d dT dF a aT aF : List String} {b bT bF : Bool}

theorem bindResults_table {returns : Bool} {names : List String} {app : Node}
    {loc : Option Location} (h : Yields (Lower.bindResults returns names app loc) s items t) :
    t.table = s.table := by
  unfold Lower.bindResults at h
  split at h
  · obtain ⟨-, rfl⟩ := Yields.pure_iff.1 h
    rfl
  · split at h
    · simp only [Yields.bind_iff, Yields.issue_iff, Yields.pure_iff] at h
      obtain ⟨_, _, ⟨-, rfl⟩, -, rfl⟩ := h
      rfl
    · simp only [Yields.bind_iff, Yields.pure_iff] at h
      obtain ⟨_, _, hx, -, rfl⟩ := h
      exact assign_table hx
    · exact assignAll_table h

/-- The two branches of a conditional are defined behind all that is nested in them. -/
theorem mergeBranches_places {T F : Lower.Branch} {n : Node} {path : String} (hs : Valid s)
    (hT : Lowered rT aT bT T s) (hF : Lowered rF aF bF F s)
    (hne : T.body.dest.token ≠ F.body.dest.token)
    (hnameT : T.body.dest.name = partName path .whenTrue)
    (hnameF : F.body.dest.name = partName path .whenFalse) (htagT : T.body.dest.relation = "then")
    (htagF : F.body.dest.relation = "else")
    (h : Yields (Lower.mergeBranches env (env.locate span) n T F) s items t) :
    Places env (branches path span cT cF) s t := by
  obtain ⟨-, result, s₁, nT, s₂, result', s₃, nF, s₄, hr, hbT, hr', hbF, hend⟩ :=
    mergeBranches_iff.1 h
  have hre := returning_effect hs T.body.hasReturned
  have hT₁ := hT.advance hs hre.advances
  have hF₁ := hF.advance hs hre.advances
  obtain ⟨-, rfl⟩ := (branchResult_iff hT₁.frame_lt).1 hr
  have hplacesT : Places env [.mk .whenTrue (partName path .whenTrue) span cT] _ s₂ :=
    buildBranch_places hre.valid hnameT htagT (.inl rfl) hbT
  -- The false branch is still reserved when the true one is defined.
  obtain ⟨u, l, hu, hl, hres, rfl⟩ := buildBranch_reads hre.valid hT₁ hbT
  have hv := hu.valid.defining (l := l) env (hl ▸ hres)
  have hF₂ := (hF₁.advance hre.valid hu.advances).defining (l := l) env (hl ▸ hne)
  obtain ⟨-, rfl⟩ := (branchResult_iff hF₂.frame_lt).1 hr'
  have hplacesF : Places env [.mk .whenFalse (partName path .whenFalse) span cF] _ s₄ :=
    buildBranch_places hv hnameF htagF (.inr rfl) hbF
  exact (hplacesT.trans hplacesF).between returning_table (bindResults_table hend)

theorem lowerIf_places {ct : List Construct}
    (ht : ∀ {s n t}, Valid s → Yields test s n t → Reads r s t)
    (hT : Acts rT dT aT bT body) (hF : Acts rF dF aF bF orelse)
    (hplaces : ∀ {s n t}, Valid s → Yields test s n t → Places env ct s t)
    (hplacesT : ∀ {v items w}, Valid v → v.body.topLevel = false →
      v.body.dest.name = partName s.body.dest.name .whenTrue → Yields body v items w →
      Places env cT v w)
    (hplacesF : ∀ {v items w}, Valid v → v.body.topLevel = false →
      v.body.dest.name = partName s.body.dest.name .whenFalse → Yields orelse v items w →
      Places env cF v w)
    (hs : Valid s)
    (h : Yields (do
      let test ← test
      let whenTrue ← Lower.lowerBranch "then" body
      let whenFalse ← Lower.lowerBranch "else" orelse
      Lower.mergeBranches env (env.locate span) test whenTrue whenFalse) s items t) :
    Places env (ct ++ cT ++ cF ++ branches s.body.dest.name span cT cF) s t := by
  simp only [Yields.bind_iff] at h
  obtain ⟨n, s₁, hn, T, s₂, hT', F, s₃, hF', hm⟩ := h
  have h₁ := ht hs hn
  obtain ⟨h₂, -, lT⟩ := lowerBranch_reads h₁.valid hT hT'
  obtain ⟨h₃, hlF, lF⟩ := lowerBranch_reads h₂.valid hF hF'
  have hdest₁ : s₁.body.dest = s.body.dest := h₁.advances.body.dest
  have hdest₂ : s₂.body.dest = s.body.dest := h₂.advances.body.dest.trans hdest₁
  obtain ⟨p₂, hnameT, htagT⟩ := lowerBranch_places .whenTrue h₁.valid hT
    (by rw [hdest₁]; exact hplacesT) hT'
  obtain ⟨p₃, hnameF, htagF⟩ := lowerBranch_places .whenFalse h₂.valid hF
    (by rw [hdest₂]; exact hplacesF) hF'
  rw [hdest₁] at hnameT
  rw [hdest₂] at hnameF
  have hle := lT.reserved.le
  exact (((hplaces hs hn).trans p₂).trans p₃).trans (mergeBranches_places h₃.valid
    (lT.advance h₂.valid h₃.advances) lF (by omega) hnameT hnameF htagT htagF hm)

/-- The two lambdas of a loop are defined behind all that is nested in it, which is placed once. -/
theorem lowerLoop_places {ct : List Construct} (ht : Acts r [] [] false test)
    (hb : Acts r' d a b statements)
    (hplaces : ∀ {s n t}, Valid s → Yields test s n t → Places env ct s t)
    (hplaces' : ∀ {v items w}, Valid v → v.body.topLevel = false →
      v.body.dest.name = partName s.body.dest.name .loop → Yields statements v items w →
      Places env cs v w)
    (hs : Valid s) (h : Yields (Lower.lowerLoop env (env.locate span) test statements) s items t) :
    Places env (ct ++ cs ++ turns s.body.dest.name span (ct ++ cs)) s t := by
  obtain ⟨p, hp⟩ := lowerLoop_runs hs ht hb h
  have hdest : p.entered.body.dest = s.body.dest := hp.entered.advances.body.dest
  have hbefore : p.opened.table = s.table := by
    rw [p.opens.table]
    exact (readNames_table hp.explored.valid p.takes).trans (dryRun_table hs p.explores)
  -- Inside, only the test and the statements place anything.
  have hinside : Places env (ct ++ cs) p.opened p.left := by
    obtain ⟨v, v', x, y, items, updated, hf, hcur, hn, hi, hup, -⟩ := lowerInside_iff.1 p.inside
    have hu := p.opens.valid hp.opening
    have binds := bindFreshAll_code hf
    have e₁ := bindFreshAll_effect hu hf
    obtain ⟨-, rfl⟩ := (currents_iff e₁.valid).1 hcur
    have htop : v.body.topLevel = false := by rw [binds.body, p.opens.body]
    have hname : v.body.dest.name = partName s.body.dest.name .loop := by
      rw [binds.body, p.opens.body, ← hdest]
      rfl
    have e₂ := ht e₁.valid htop hn
    have htop₂ := e₂.advances.body.topLevel.trans htop
    have e₃ := hb e₂.valid htop₂ hi
    have hname₂ : x.body.dest.name = partName s.body.dest.name .loop := by
      rw [e₂.advances.body.dest]
      exact hname
    exact ((hplaces e₁.valid hn).trans (hplaces' e₂.valid htop₂ hname₂ hi)).between binds.table
      (readNames_table e₃.valid hup)
  have hnext : Places env (turns s.body.dest.name span (ct ++ cs)) p.left p.defined := by
    refine ⟨_, p.defined_lambdas, .cons ?_ (.cons ?_ .nil)⟩
    · exact ⟨by rw [← hdest]; rfl, rfl, rfl, fun k hk => by cases hk⟩
    · exact ⟨by rw [← hdest]; rfl, rfl, rfl, fun k hk => by cases hk⟩
  exact (hinside.trans hnext).between hbefore (assignAll_table p.gives)

end Parts

section Trees

variable {env : Env} {s t : State} {n : Node} {ns : List Node}

theorem lowerExprs_places {es : List Expr} (hx : env.expansions = [])
    (ih : ∀ e ∈ es, ∀ {s n t}, Valid s → Yields (Lower.lowerExpr env e) s n t →
      Places env e.constructs s t)
    (hs : Valid s) (h : Yields (Lower.lowerExprs env es) s ns t) :
    Places env (allConstructs es) s t := by
  induction es generalizing s ns with
  | nil =>
    obtain ⟨-, rfl⟩ := Yields.pure_iff.1 h
    exact .of_eq rfl
  | cons e es ihs =>
    simp only [Lower.lowerExprs, Yields.bind_iff, Yields.pure_iff] at h
    obtain ⟨n, u, he, ns, v, hes, -, rfl⟩ := h
    exact (ih e (by simp) hs he).trans (ihs (fun e' he' => ih e' (List.mem_cons_of_mem _ he'))
      (lowerExpr_reads hx e hs he).valid hes)

theorem lowerOption_places {o : Option Expr} {v : Literal}
    (ih : ∀ e ∈ o, ∀ {s n t}, Valid s → Yields (Lower.lowerExpr env e) s n t →
      Places env e.constructs s t)
    (hs : Valid s) (h : Yields (Lower.lowerOption env o v) s n t) :
    Places env (optConstructs o) s t := by
  cases o with
  | none =>
    obtain ⟨-, rfl⟩ := Yields.pure_iff.1 h
    exact .of_eq rfl
  | some e => exact ih e rfl hs h

/-- An expression places its lambda expressions. -/
theorem lowerExpr_places (hx : env.expansions = []) (e : Expr) :
    ∀ {s n t}, Valid s → Yields (Lower.lowerExpr env e) s n t → Places env e.constructs s t := by
  induction e using Expr.ind with
  | name sp x =>
    intro s n t hs h
    simp only [Lower.lowerExpr] at h
    exact .of_eq (read_of_readName hs h).table
  | constant sp v =>
    intro s n t hs h
    simp only [Lower.lowerExpr, Yields.pure_iff] at h
    obtain ⟨-, rfl⟩ := h
    exact .of_eq rfl
  | binary sp op l r ihl ihr =>
    intro s n t hs h
    simp only [Lower.lowerExpr, Yields.bind_iff, Yields.pure_iff, operatorNode_iff] at h
    obtain ⟨_, _, ⟨f, -, -, rfl⟩, l', u, hl, r', v, hr, -, rfl⟩ := h
    exact (ihl hs hl).trans (ihr (lowerExpr_reads hx l hs hl).valid hr)
  | unary sp op x ih =>
    intro s n t hs h
    simp only [Lower.lowerExpr, Yields.bind_iff, Yields.pure_iff, operatorNode_iff] at h
    obtain ⟨_, _, ⟨f, -, -, rfl⟩, x', u, hx', -, rfl⟩ := h
    exact ih hs hx'
  | compare sp l op r ihl ihr =>
    intro s n t hs h
    simp only [Lower.lowerExpr, Yields.bind_iff, Yields.pure_iff, operatorNode_iff] at h
    obtain ⟨_, _, ⟨f, -, -, rfl⟩, l', u, hl, r', v, hr, -, rfl⟩ := h
    exact (ihl hs hl).trans (ihr (lowerExpr_reads hx l hs hl).valid hr)
  | chain sp l rest hlen =>
    intro s n t hs h
    rcases rest with - | ⟨⟨op, r⟩, - | ⟨_, _⟩⟩
    · simp [Lower.lowerExpr] at h
    · simp at hlen
    · simp [Lower.lowerExpr] at h
  | call sp f args ks ihf ihargs =>
    intro s n t hs h
    simp only [Lower.lowerExpr] at h
    split at h
    · simp at h
    · simp only [Yields.bind_iff, refuseStarred_iff, expansionOf?_eq_none hx, Yields.pure_iff] at h
      obtain ⟨_, _, ⟨-, rfl⟩, ns, u, hargs, f', v, hf, -, rfl⟩ := h
      have hu := lowerExprs_reads (fun e _ => lowerExpr_reads hx e) hs hargs
      exact (lowerExprs_places hx ihargs hs hargs).trans (ihf hu.valid hf)
  | attr sp v name ih =>
    intro s n t hs h
    simp only [Lower.lowerExpr, Yields.bind_iff, Yields.pure_iff] at h
    obtain ⟨v', u, hv, -, rfl⟩ := h
    exact ih hs hv
  | subscript sp v i ihv ihi =>
    intro s n t hs h
    simp only [Lower.lowerExpr, Yields.bind_iff, Yields.pure_iff] at h
    obtain ⟨v', u, hv, i', w, hi, -, rfl⟩ := h
    exact (ihv hs hv).trans (ihi (lowerExpr_reads hx v hs hv).valid hi)
  | slice sp a b c iha ihb ihc =>
    intro s n t hs h
    rw [lowerExpr_slice] at h
    simp only [Yields.bind_iff, Yields.pure_iff] at h
    obtain ⟨a', u, ha, b', v, hb, c', w, hc, -, rfl⟩ := h
    have hu := lowerOption_reads (fun e _ => lowerExpr_reads hx e) hs ha
    have hv := lowerOption_reads (fun e _ => lowerExpr_reads hx e) hu.valid hb
    exact ((lowerOption_places iha hs ha).trans (lowerOption_places ihb hu.valid hb)).trans
      (lowerOption_places ihc hv.valid hc)
  | extSlice sp es ih =>
    intro s n t hs h
    simp only [Lower.lowerExpr, Yields.bind_iff, Yields.pure_iff] at h
    obtain ⟨es', u, hes, -, rfl⟩ := h
    exact lowerExprs_places hx ih hs hes
  | tuple sp es ih =>
    intro s n t hs h
    simp only [Lower.lowerExpr, Yields.bind_iff, Yields.pure_iff] at h
    obtain ⟨es', u, hes, -, rfl⟩ := h
    exact lowerExprs_places hx ih hs hes
  | lambda sp ps b ih =>
    intro s n t hs h
    simp only [Lower.lowerExpr, Yields.bind_iff, requirePositional_iff] at h
    obtain ⟨_, _, ⟨-, rfl⟩, h⟩ := h
    rw [lowerClosure_fresh_iff] at h
    exact (lowerClosure_places (issued_reads hs).valid (Nat.le_refl _) rfl (lowerExpr_acts hx b)
      (fun hv _ _ hc => ih hv hc) h).between rfl rfl
  | foreign e hf =>
    intro s n t hs h
    cases e <;> simp [Expr.isForeign] at hf <;> simp [Lower.lowerExpr] at h

theorem lowerAssign_places {items : List Item} {sp : Surface.Span} {target value : Expr}
    (hx : env.expansions = []) (hs : Valid s)
    (h : Yields (Lower.lowerAssign env (env.locate sp) target value) s items t) :
    Places env (value.constructs ++ targetConstructs [target]) s t := by
  unfold Lower.lowerAssign at h
  split at h
  · simp only [Yields.bind_iff, Yields.pure_iff] at h
    obtain ⟨v, u, hv, i, w, hi, -, rfl⟩ := h
    exact (lowerExpr_places hx value hs hv).trans (.of_eq (assign_table hi))
  · split at h
    · simp only [Yields.bind_iff, Yields.pure_iff] at h
      obtain ⟨v, u, hv, o, u', ho, i, u'', hi, item, w, hw, -, rfl⟩ := h
      have h₁ := lowerExpr_reads hx value hs hv
      simp only [Lower.lowerExpr] at ho
      have h₂ := readName_reads h₁.valid ho
      have hindex := lowerExpr_places hx _ h₂.valid hi
      exact (lowerExpr_places hx value hs hv).trans
        (hindex.between (read_of_readName h₁.valid ho).table (assign_table hw))
    · simp at h
  all_goals simp at h

theorem lowerAugAssign_places {items : List Item} {sp : Surface.Span} {target value : Expr}
    {op : Surface.Operator} (hx : env.expansions = []) (hs : Valid s)
    (h : Yields (Lower.lowerAugAssign env (env.locate sp) target op value) s items t) :
    Places env value.constructs s t := by
  unfold Lower.lowerAugAssign at h
  split at h
  · simp only [Yields.bind_iff, Yields.pure_iff, operatorNode_iff] at h
    obtain ⟨v, u, hv, _, _, ⟨f, -, -, rfl⟩, o, u', ho, a, u'', ha, i, w, hi, -, rfl⟩ := h
    have h₁ := lowerExpr_reads hx value hs hv
    have h₂ := readName_reads h₁.valid ho
    obtain ⟨-, rfl⟩ := (current_iff h₂.valid).1 ha
    exact (lowerExpr_places hx value hs hv).between rfl
      ((assign_table hi).trans (read_of_readName h₁.valid ho).table)
  all_goals simp at h

theorem lowerReturn_places {items : List Item} {loc : Option Location} {value : Option Expr}
    (hx : env.expansions = []) (hs : Valid s)
    (h : Yields (Lower.lowerReturn env loc value) s items t) :
    Places env (optConstructs value) s t := by
  unfold Lower.lowerReturn at h
  simp only [Yields.bind_iff, Yields.body_iff] at h
  obtain ⟨_, _, ⟨rfl, rfl⟩, h⟩ := h
  split at h
  · simp at h
  · simp only [Yields.bind_iff, Yields.modifyBody_iff] at h
    obtain ⟨_, _, rfl, h⟩ := h
    cases value with
    | none =>
      obtain ⟨-, rfl⟩ := Yields.pure_iff.1 h
      exact .of_eq rfl
    | some e =>
      simp only [Yields.bind_iff, Yields.pure_iff] at h
      obtain ⟨_, u, he, -, rfl⟩ := h
      exact (lowerExpr_places hx e (returning_effect hs true).valid he).between rfl rfl

theorem lowerBlock_places_of {b : List Stmt} (hx : env.expansions = [])
    (ih : ∀ st ∈ b, ∀ {ad s items t}, Valid s → s.body.topLevel = false →
      Yields (Lower.lowerStmt env st ad) s items t →
      Places env (st.constructs s.body.dest.name) s t)
    {items : List Item} (hs : Valid s) (htop : s.body.topLevel = false)
    (h : Yields (Lower.lowerBlock env b) s items t) :
    Places env (blockConstructs s.body.dest.name b) s t := by
  induction b generalizing s items with
  | nil =>
    simp only [Lower.lowerBlock, Yields.pure_iff] at h
    obtain ⟨-, rfl⟩ := h
    exact .of_eq rfl
  | cons st b ihb =>
    simp only [Lower.lowerBlock, Yields.bind_iff, Yields.body_iff] at h
    obtain ⟨_, _, ⟨rfl, rfl⟩, h⟩ := h
    split at h
    · simp at h
    · simp only [Yields.bind_iff, Yields.pure_iff] at h
      obtain ⟨is, u, hst, js, v, hb, -, rfl⟩ := h
      have e := lowerStmt_acts hx st false hs htop hst
      have hrest := ihb (fun st' hst' => ih st' (List.mem_cons_of_mem _ hst')) e.valid
        (e.advances.body.topLevel.trans htop) hb
      rw [e.advances.body.dest] at hrest
      exact (ih st (by simp) hs htop hst).trans hrest

/-- A statement inside a function places its constructs. -/
theorem lowerStmt_places (hx : env.expansions = []) (st : Stmt) :
    ∀ {ad s items t}, Valid s → s.body.topLevel = false →
      Yields (Lower.lowerStmt env st ad) s items t →
      Places env (st.constructs s.body.dest.name) s t := by
  induction st using Stmt.ind with
  | expr sp v =>
    intro ad s items t hs _ h
    simp only [Lower.lowerStmt, Yields.bind_iff, Yields.pure_iff] at h
    obtain ⟨n, u, hv, -, rfl⟩ := h
    exact lowerExpr_places hx v hs hv
  | assign sp ts v =>
    intro ad s items t hs _ h
    rcases ts with - | ⟨target, - | ⟨_, _⟩⟩
    · simp [Lower.lowerStmt] at h
    · simp only [Lower.lowerStmt] at h
      exact lowerAssign_places hx hs h
    · simp [Lower.lowerStmt] at h
  | augAssign sp target op v =>
    intro ad s items t hs _ h
    simp only [Lower.lowerStmt] at h
    exact lowerAugAssign_places hx hs h
  | functionDef sp f ps b ds ih =>
    intro ad s items t hs htop h
    simp only [Lower.lowerStmt] at h
    obtain ⟨-, -, a, u, n, hb, hc, -⟩ := (lowerFunction_iff htop).1 h
    have hi := issued_reads hs
    have eu := bindFresh_effect hi.valid hb
    have htable : u.table = s.table := by
      obtain ⟨-, sc, -, rfl⟩ := bindFresh_iff.1 hb
      rfl
    have hinside := lowerClosure_places eu.valid eu.advances.issued rfl
      (functionBody_acts _ (lowerBlock_acts hx b)) (fun {v c w} hv htop' hdest hc' => by
        obtain ⟨items, hblock, -⟩ := functionBody_iff.1 hc'
        have := lowerBlock_places_of hx (fun st hst => ih st hst) hv htop' hblock
        rwa [hdest] at this) hc
    exact hinside.between htable rfl
  | returnValue sp v =>
    intro ad s items t hs _ h
    simp only [Lower.lowerStmt] at h
    exact lowerReturn_places hx hs h
  | ifElse sp c b o ihb iho =>
    intro ad s items t hs _ h
    simp only [Lower.lowerStmt] at h
    exact lowerIf_places (lowerExpr_reads hx c) (lowerBlock_acts hx b) (lowerBlock_acts hx o)
      (lowerExpr_places hx c)
      (fun hv htop hname hy => hname ▸ lowerBlock_places_of hx ihb hv htop hy)
      (fun hv htop hname hy => hname ▸ lowerBlock_places_of hx iho hv htop hy) hs h
  | whileLoop sp c b o ih =>
    intro ad s items t hs _ h
    simp only [Lower.lowerStmt] at h
    split at h
    · simp at h
    · exact lowerLoop_places (lowerExpr_acts hx c) (lowerBlock_acts hx b) (lowerExpr_places hx c)
        (fun hv htop hname hy => hname ▸ lowerBlock_places_of hx ih hv htop hy) hs h
  | foreign st hf =>
    intro ad s items t hs _ h
    cases st <;> simp [Stmt.isForeign] at hf <;> simp [Lower.lowerStmt] at h

theorem lowerBlock_places (hx : env.expansions = []) (b : List Stmt) {items : List Item}
    (hs : Valid s) (htop : s.body.topLevel = false)
    (h : Yields (Lower.lowerBlock env b) s items t) :
    Places env (blockConstructs s.body.dest.name b) s t :=
  lowerBlock_places_of hx (fun st _ => lowerStmt_places hx st) hs htop h

end Trees

end Hoist.Lowering
