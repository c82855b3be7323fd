import Hoist.Proofs.Lowering.Emission

/-!
# What lowering emits for statements

An assignment, a function, a conditional and a loop emit their code in the context of the state, and
move the context on. The branches of a conditional are lowered first and lifted afterwards: between
the two their frames are left alone, and so are the symbols of the names they assign.
-/

namespace Hoist.Lowering

open Hoist.Flat (Symbol Node Location Space Table Lambda known allOver)
open Hoist.Surface (Expr Stmt Operator Params allReads optReads blockReads blockAssigns blockReturns
  blockDeclares)

section Simple

variable {T : Table} {F : List (String × Symbol)} {B : List Symbol} {s t u : State} {env : Env}
  {loc : Option Location} {α : Type} {x : Lower α} {a : α} {r : List String}
  {P : Ctx → α → List Made → Prop} {name : String} {value : Node} {i : Item}

/-- An assignment behind a step that only reads. -/
theorem Renders.thenAssign (hx : Renders T r x P) (hs : Valid s) (h : Yields x s a u)
    (h' : Yields (Lower.assign name value loc) u i t) (hT : Final T s t) (hF : Caught F s t)
    (hB : Bounded B F s) : ∃ L, Adds s t L ∧ P (s.ctx F B) a L ∧ ∃ c, i = .assign ⟨c, value, loc⟩ ∧
      Fresh T B c ∧ Bounded (B ++ [c]) F t ∧ t.ctx F (B ++ [c]) = (s.ctx F B).bind name c := by
  obtain ⟨h₁, hP⟩ := hx hs h
  have h₂ := assign_effect h₁.valid h'
  have hF₁ := hF.before h₁.advances h₂.advances
  obtain ⟨L, hadds, hp⟩ := hP (B := B) (hT.before h₂.advances) hF₁
  obtain ⟨c, hi, hc, hB', hctx⟩ := assign_code h₁.valid h' (hT.behind h₁.advances)
    (hF.behind h₁.advances) (hB.advance h₁.advances.issued)
  rw [h₁.ctx_eq hs hF₁] at hctx
  have hafter := hadds.trans (.of_eq (assign_table h'))
  rw [List.append_nil] at hafter
  exact ⟨L, hafter, hp, c, hi, hc, hB', hctx⟩

theorem readName_renders (y : String) :
    Renders T [y] (Lower.readName y loc) fun Γ n L =>
      L = [] ∧ ∃ a, Γ.symbol y = some a ∧ n = .ref loc a :=
  fun _ _ _ hs h => ⟨readName_reads hs h, fun _ hF =>
    ⟨[], .of_eq (read_of_readName hs h).table, rfl, readName_code hs hF h⟩⟩

theorem lowerAssign_emits (hx : env.expansions = []) (sp : Surface.Span) (target v : Expr) :
    Emits T (Lower.lowerAssign env loc target v)
      fun Γ items L Γ' => StmtCode T Γ (.assign sp [target] v) items L Γ' := by
  intro s items t F B hs _ h hT hF hB
  unfold Lower.lowerAssign at h
  split at h
  · simp only [Yields.bind_iff, Yields.pure_iff] at h
    obtain ⟨n, u, hv, i, w, hi, rfl, rfl⟩ := h
    obtain ⟨L, hadds, hn, c, rfl, hc, hB', hctx⟩ :=
      (lowerExpr_renders hx v).thenAssign hs hv hi hT hF hB
    exact ⟨L, _, hadds, hB', hctx ▸ .assign hn hc⟩
  · split at h
    · rename_i index _ sp'' y
      simp only [Yields.bind_iff, Yields.pure_iff] at h
      obtain ⟨n, u, hv, o, u', ho, j, u'', hj, i, w, hi, rfl, rfl⟩ := h
      simp only [Lower.lowerExpr] at ho
      obtain ⟨_, hadds, ⟨_, R, rfl, ⟨L, _, rfl, hn, rfl, a, ha, rfl⟩, hj'⟩, c, rfl, hc, hB', hctx⟩ :=
        (((lowerExpr_renders hx v).pair (readName_renders y)).pair
          (lowerExpr_renders hx index)).thenAssign hs
          (pair_iff.2 ⟨u', pair_iff.2 ⟨u, hv, ho⟩, hj⟩) hi hT hF hB
      rw [List.append_nil] at hadds
      exact ⟨L ++ R, _, hadds, hB', hctx ▸ .setItem hn ha hj' hc⟩
    · simp at h
  all_goals simp at h

theorem lowerAugAssign_emits (hx : env.expansions = []) (sp : Surface.Span) (target : Expr)
    (op : Operator) (v : Expr) : Emits T (Lower.lowerAugAssign env loc target op v)
      fun Γ items L Γ' => StmtCode T Γ (.augAssign sp target op v) items L Γ' := by
  intro s items t F B hs _ h hT hF hB
  unfold Lower.lowerAugAssign at h
  split at h
  · rename_i sp' y
    simp only [Yields.bind_iff, Yields.pure_iff, operatorNode_iff] at h
    obtain ⟨n, u, hv, _, _, ⟨f, hop, rfl, rfl⟩, o, u', ho, a, u'', ha, i, w, hi, rfl, rfl⟩ := h
    have h₁ := lowerExpr_reads hx v hs hv
    have h₂ := readName_reads h₁.valid ho
    obtain ⟨hsees, rfl⟩ := (current_iff h₂.valid).1 ha
    obtain ⟨_, hadds, ⟨L, _, rfl, hn, rfl, b, hb, hob⟩, c, rfl, hc, hB', hctx⟩ :=
      ((lowerExpr_renders hx v).pair (readName_renders y)).thenAssign hs
        (pair_iff.2 ⟨u, hv, ho⟩) hi hT hF hB
    have hab := (read_of_readName h₁.valid ho).sees hsees
    rw [hab] at hob
    cases hob
    rw [List.append_nil] at hadds
    exact ⟨L, _, hadds, hB', hctx ▸ .augAssign hop hn hb hc⟩
  all_goals simp at h

theorem returning_ctx {b : Bool} : (s.returning b).ctx F B = s.ctx F B := by
  cases b <;> rfl

theorem returning_table {b : Bool} : (s.returning b).table = s.table := by
  cases b <;> rfl

theorem lowerReturn_emits (hx : env.expansions = []) (sp : Surface.Span) (value : Option Expr) :
    Emits T (Lower.lowerReturn env loc value)
      fun Γ items L Γ' => StmtCode T Γ (.returnValue sp value) items L Γ' := by
  intro s items t F B hs _ h hT hF hB
  unfold Lower.lowerReturn at h
  simp only [Yields.bind_iff, Yields.body_iff] at h
  obtain ⟨_, _, ⟨rfl, rfl⟩, h⟩ := h
  split at h
  · simp at h
  · simp only [Yields.bind_iff, Yields.modifyBody_iff] at h
    obtain ⟨_, _, rfl, h⟩ := h
    have hr := returning_effect hs true
    have hctx : (s.returning true).ctx F B = s.ctx F B := returning_ctx
    cases value with
    | none =>
      obtain ⟨rfl, rfl⟩ := Yields.pure_iff.1 h
      exact ⟨[], B, .of_eq rfl, hB, .returnNone⟩
    | some e =>
      simp only [Yields.bind_iff, Yields.pure_iff] at h
      obtain ⟨n, u, he, rfl, rfl⟩ := h
      obtain ⟨h₁, hcode⟩ := lowerExpr_renders hx e hr.valid he
      have hF' := hF.behind hr.advances
      obtain ⟨L, hadds, hn⟩ := hcode (B := B) (hT.behind hr.advances) hF'
      have hctx' := h₁.ctx_eq (B := B) hr.valid hF'
      rw [hctx] at hn hctx'
      have hbefore : Adds s (s.returning true) [] := .of_eq rfl
      refine ⟨L, B, hbefore.trans hadds, hB.advance (hr.advances.trans h₁.advances).issued, ?_⟩
      rw [hctx']
      exact .returnSome hn

end Simple

section Functions

variable {T : Table} {F : List (String × Symbol)} {B : List Symbol} {s t u : State} {env : Env}
  {loc : Option Location} {Γ Δ : Ctx} {f : String} {a ref : Symbol} {formals : List Symbol}
  {own : List (String × Symbol)} {reads : List String} {m : Made} {n : Node}

/-- To a lambda that has a name of its own, it makes no difference whether that name is bound around
it. -/
theorem Lifted.unbind (h : Lifted T (Γ.bind f a) own reads formals Δ m n)
    (hf : (own.lookup f).isSome) : Lifted T Γ own reads formals Δ m n := by
  cases h with
  | @mk _ captured syms loc found bound params free read have_ =>
    have hctx : (Γ.bind f a).inner own captured formals = Γ.inner own captured formals := by
      unfold Ctx.inner Ctx.bind
      congr 1
      funext x
      by_cases hx : x = f
      · subst hx; simp [hf]
      · have : (x == f) = false := by simpa using hx
        simp [this]
    have hne : ∀ x ∈ captured.map (·.1), x ≠ f := by
      intro x hx he
      obtain ⟨p, hp, rfl⟩ := List.mem_map.1 hx
      rw [← he, free p hp] at hf
      cases hf
    rw [hctx]
    refine .mk found bound params free read ⟨fun x hx => ?_, ?_⟩
    · simpa [Ctx.bind, hne x hx] using have_.visible x hx
    · rw [← have_.syms]
      apply List.map_congr_left
      intro x hx
      simp [Ctx.bind, hne x hx]

theorem lowerFunction_emits {sp : Surface.Span} {ps : Params Expr} {ds : List Expr} {ad : Bool}
    {b : List Stmt} (hacts : Acts (blockReads b) (blockDeclares b) (blockAssigns b) (blockReturns b)
      (Lower.lowerBlock env b))
    (hcode : Emits T (Lower.lowerBlock env b) fun Γ items L Γ' => BlockCode T Γ b items L Γ') :
    Emits T (Lower.lowerFunction env loc f ps ds ad (Lower.lowerBlock env b))
      fun Γ items L Γ' => StmtCode T Γ (.functionDef sp f ps b ds) items L Γ' := by
  intro s items t F B hs htop h hT hF hB
  obtain ⟨-, -, a, u, n, hb, hc, rfl⟩ := (lowerFunction_iff htop).1 h
  have hi := issued_reads hs
  have hu := bindFresh_effect hi.valid hb
  have hres := (Reserved.issue hs (Flat.fresh s.issued f .global_) rfl).advance hu.advances
  have hacts' := functionBody_acts loc hacts
  have hcode' : Emits T (Lower.functionBody (Lower.lowerBlock env b) loc) fun Γ c L Γ' =>
      ∃ items, BlockCode T Γ b items L Γ' ∧ group items none loc = .ok c := by
    intro s c t F B hs htop h hT hF hB
    obtain ⟨items, hi, hg⟩ := functionBody_iff.1 h
    obtain ⟨L, B', hadds, hB', hb⟩ := hcode hs htop hi hT hF hB
    exact ⟨L, B', hadds, hB', items, hb, hg⟩
  -- Binding the name and lifting the body are seen from behind the issue of the lambda.
  have hT₁ := hT.behind hi.advances
  have hF₁ := hF.behind hi.advances
  have hi' : s.issuing.ctx F B = s.ctx F B := rfl
  obtain ⟨w, l, hw, hl, hres', hend⟩ := lowerClosure_reads hu.valid hres hacts' hc
  subst hend
  have hle : u.issued ≤ w.issued := hw.advances.issued
  have hTu : Final T s.issuing u := hT₁.narrow le_rfl hle
    ((Grows.of_advances hw.advances le_rfl).trans (.defining (.inl (by rw [hl]; exact le_rfl))))
  have hFu : Caught F s.issuing u :=
    hF₁.of_defining.earlier hu.advances.body.pulling hw.advances
  have htable : u.table = s.table := by
    obtain ⟨-, sc, -, rfl⟩ := bindFresh_iff.1 hb
    rfl
  obtain ⟨ha, hB', hctx⟩ := bindFresh_code hi.valid hb hTu hFu (hB.advance hi.advances.issued)
  obtain ⟨hctx', m, L, formals, Δ, Δ', hadds, hrole, href, hlen, hl', items, hblock, hg⟩ :=
    lowerClosure_code (B := B ++ [a]) (.function ps.names.length) hu.valid hres rfl hcode' hacts' hc
      (hT₁.behind hu.advances) (hF₁.behind hu.advances)
  have hown : ((paramBindings ps.names formals ++
      (some f).toList.map (·, Flat.fresh s.issued f .global_)).lookup f).isSome := by
    simp [List.lookup_append]
  rw [hctx, hi'] at hl'
  have hlifted := hl'.unbind hown
  rw [← href] at hlifted
  have hbefore : Adds s u [] := .of_eq htable
  refine ⟨L ++ [m], B ++ [a], hbefore.trans hadds, hB'.advance hle, ?_⟩
  rw [hctx', hctx]
  exact .functionDef hrole hlen hlifted hblock hg ha

end Functions

section Branches

variable {T : Table} {F : List (String × Symbol)} {B : List Symbol} {s t z : State} {env : Env}
  {loc : Option Location} {Γ : Ctx} {b : Lower.Branch} {stmts : List Stmt} {tag : String}
  {reads assigns names : List String} {returns : Bool} {r : Option Node} {n : Node} {L : List Made}

/-- A branch that was lowered in a context: its code, and the symbols of the names it assigns, which
its frame keeps. -/
structure Branched (T : Table) (Γ : Ctx) (stmts : List Stmt) (L : List Made) (b : Lower.Branch)
    (s : State) : Prop where
  formals : Formals T (b.body.free.map (·.2))
  free : ∀ p ∈ b.body.free, p.1 ∈ blockReads stmts ∧ Γ.visible p.1 = true
  code : ∃ Δ, BlockCode T (Γ.inner [] b.body.free []) stmts b.items L Δ ∧
    ∀ x ∈ b.body.assigned, s.scopes.own b.body.frame x = Δ.sym x ∧ Δ.visible x = true

theorem Lowered.own_eq (h : Lowered reads assigns returns b s) (ht : Advances s t) (x : String) :
    t.scopes.own b.body.frame x = s.scopes.own b.body.frame x := by
  simp [Scopes.own, ht.frames _ h.frame_lt h.frame_ne]

theorem Branched.advance (h : Branched T Γ stmts L b s) (hl : Lowered reads assigns returns b s)
    (ht : Advances s t) : Branched T Γ stmts L b t where
  formals := h.formals
  free := h.free
  code := by
    obtain ⟨Δ, hb, hown⟩ := h.code
    exact ⟨Δ, hb, fun x hx => by rw [hl.own_eq ht]; exact hown x hx⟩

theorem Branched.defining {l : Lambda} (h : Branched T Γ stmts L b s) :
    Branched T Γ stmts L b (s.defining env l) := ⟨h.formals, h.free, h.code⟩

/-- The lambda of a branch is named when the branch is opened. -/
theorem lowerBranch_dest {statements : Lower (List Item)} {d a : List String} (hs : Valid s)
    (hacts : Acts reads d a returns statements)
    (h : Yields (Lower.lowerBranch tag statements) s b t) :
    b.body.dest = Flat.derived s.issued s.body.dest tag := by
  obtain ⟨u, ho, hiff⟩ := lowerBranch_iff hs tag statements
  obtain ⟨w, hw, hbody, -⟩ := (hiff b t).1 h
  have hu := ho.valid (issued_reads hs).valid
  rw [hbody, (hacts hu (by rw [ho.body]) hw).advances.body.dest, ho.body]

theorem lowerBranch_code (hs : Valid s)
    (hacts : Acts (blockReads stmts) (blockDeclares stmts) (blockAssigns stmts) (blockReturns stmts)
      (Lower.lowerBlock env stmts))
    (hcode : Emits T (Lower.lowerBlock env stmts) fun Γ items L Γ' => BlockCode T Γ stmts items L Γ')
    (h : Yields (Lower.lowerBranch tag (Lower.lowerBlock env stmts)) s b t)
    (hT : Final T s.issuing t) : t.ctx F B = s.ctx F B ∧
      ∃ L, Adds s t L ∧ Branched T (s.ctx F B) stmts L b t := by
  obtain ⟨u, ho, hiff⟩ := lowerBranch_iff hs tag (Lower.lowerBlock env stmts)
  obtain ⟨w, hw, hbody, rfl⟩ := (hiff b t).1 h
  have hi := issued_reads hs
  have hu := ho.valid hi.valid
  have he := hacts hu (by rw [ho.body]) hw
  have hb : Binds [] [] u u := bindFreshAll_code (Yields.pure_iff.2 ⟨rfl, rfl⟩)
  obtain ⟨hformals, hfree, L, B', hadds, hblock⟩ := hcode.inner [] (F := F) (B := B) (w := w) hacts
    hi.valid ho (fun _ => rfl) hb hu (hT.narrow ho.issued le_rfl (.refl _)) hw
  rw [← hbody] at hformals hfree hblock
  have hbefore : Adds s u [] := .of_eq ho.table
  refine ⟨ho.ctx_back hi.valid he.valid he.advances, L, hbefore.trans hadds, ?_⟩
  refine ⟨by simpa using hformals, fun p hp => (hfree p hp).2, _, hblock, fun x hx => ?_⟩
  obtain ⟨a, ha⟩ := Option.isSome_iff_exists.1 (he.valid.assigned_own x (hbody ▸ hx))
  have ha' : w.scopes.own b.body.frame x = some a := hbody ▸ ha
  refine ⟨?_, ?_⟩
  · simp only [State.resume, State.ctx, ha, ha', Option.some_or]
  · simp [State.ctx, State.visible, State.sees_eq, ha]

/-- A branch that is built: its code in a lambda of its own, and the values it ends in. -/
theorem buildBranch_code (role : Role) (hz : Valid z) (hl : Lowered reads assigns returns b z)
    (htag : b.body.dest.relation = role.tag) (hΓ : z.ctx F B = Γ) (hb : Branched T Γ stmts L b z)
    (h : Yields (Lower.buildBranch env b r loc) z n t) (hnames : ∀ x ∈ names, x ∈ b.body.assigned)
    (hfind : ∀ l ∈ t.table.lambdas, T.find? l.ref = some l) (hF : Caught F z t) :
    t.ctx F B = Γ ∧ ∃ (m : Made) (Δ Δ' : Ctx), Adds z t [m] ∧ m.role = role ∧
      Lifted T Γ [] (blockReads stmts) [] Δ m n ∧ BlockCode T Δ stmts b.items L Δ' ∧
      group b.items r loc = .ok m.lambda.body ∧
      ∀ syms, names.map (z.scopes.sees b.body.frame) = syms.map some → Δ'.Have names syms := by
  subst hΓ
  obtain ⟨code, hcode, hlift⟩ := buildBranch_iff.1 h
  obtain ⟨Δ', hblock, hown⟩ := hb.code
  have hhave : ∀ syms, names.map (z.scopes.sees b.body.frame) = syms.map some →
      Δ'.Have names syms := by
    intro syms hsyms
    refine ⟨fun x hx => (hown x (hnames x hx)).2, ?_⟩
    rw [← hsyms]
    apply List.map_congr_left
    intro x hx
    obtain ⟨a, ha⟩ := Option.isSome_iff_exists.1 (hl.own x (hnames x hx))
    rw [← (hown x (hnames x hx)).1, Scopes.sees_eq, ha, Option.some_or]
  let m : Made := ⟨role, b.body.lambda [] code (code.loc.or loc), hl.reserved.generated, htag⟩
  obtain ⟨hadds, hctx, hlifted⟩ := lift_code [] (B := B) m rfl hz hlift hfind hF
    (by simpa using hb.formals) fun p hp => ⟨rfl, hb.free p hp⟩
  exact ⟨hctx, m, _, Δ', hadds, rfl, hlifted, hblock, hcode, hhave⟩

end Branches

section Conditionals

variable {T : Table} {env : Env} {loc : Option Location}

/-- A conditional emits its code: both branches are lowered, then both are built. -/
theorem lowerIf_emits {sp : Surface.Span} {c : Expr} {b o : List Stmt}
    (ht : Renders T c.reads (Lower.lowerExpr env c) (ExprCode T · c))
    (hTacts : Acts (blockReads b) (blockDeclares b) (blockAssigns b) (blockReturns b)
      (Lower.lowerBlock env b))
    (hT : Emits T (Lower.lowerBlock env b) fun Γ items L Γ' => BlockCode T Γ b items L Γ')
    (hFacts : Acts (blockReads o) (blockDeclares o) (blockAssigns o) (blockReturns o)
      (Lower.lowerBlock env o))
    (hF : Emits T (Lower.lowerBlock env o) fun Γ items L Γ' => BlockCode T Γ o items L Γ') :
    Emits T (do
      let test ← Lower.lowerExpr env c
      let whenTrue ← Lower.lowerBranch "then" (Lower.lowerBlock env b)
      let whenFalse ← Lower.lowerBranch "else" (Lower.lowerBlock env o)
      Lower.mergeBranches env loc test whenTrue whenFalse)
      fun Γ items L Γ' => StmtCode T Γ (.ifElse sp c b o) items L Γ' := by
  intro s items t F B hs _ h hfinal hcaught hbounded
  simp only [Yields.bind_iff] at h
  obtain ⟨n, s₁, hn, bT, s₂, hbT, bF, s₃, hbF, hm⟩ := h
  obtain ⟨h₁, htest⟩ := ht hs hn
  obtain ⟨h₂, -, lT⟩ := lowerBranch_reads h₁.valid hTacts hbT
  obtain ⟨h₃, -, lF⟩ := lowerBranch_reads h₂.valid hFacts hbF
  have hdT := lowerBranch_dest h₁.valid hTacts hbT
  have hdF := lowerBranch_dest h₂.valid hFacts hbF
  have hdT' : bT.body.dest.token = s₁.issued + 1 := by rw [hdT]; rfl
  have hdF' : bF.body.dest.token = s₂.issued + 1 := by rw [hdF]; rfl
  obtain ⟨⟨hret, hperm⟩, rT, _, nT, sT, rF, _, nF, sF, hrT, hbuildT, hrF, hbuildF, hend⟩ :=
    mergeBranches_iff.1 hm
  rw [lT.returned] at hrT hrF hend hret
  rw [lF.returned] at hret
  -- From behind the branches on: the true one is built, then the false one, then names are bound.
  have lT₁ := lT.advance h₂.valid h₃.advances
  have hre := returning_effect h₃.valid (blockReturns b)
  have lT₂ := lT₁.advance h₃.valid hre.advances
  have lF₂ := lF.advance h₃.valid hre.advances
  obtain ⟨hpT, rfl⟩ := (branchResult_iff lT₂.frame_lt).1 hrT
  obtain ⟨uT, kT, huT, hkT, hresT, rfl⟩ := buildBranch_reads hre.valid lT₂ hbuildT
  have hvT := huT.valid.defining env (hkT ▸ hresT)
  have hle₁ := h₁.advances.issued
  have hle₂ := h₂.advances.issued
  have hle₃ := h₃.advances.issued
  have hleT := lT.reserved.le
  have lF₃ := (lF₂.advance hre.valid huT.advances).defining env (l := kT) (by rw [hkT]; omega)
  obtain ⟨hpF, rfl⟩ := (branchResult_iff lF₃.frame_lt).1 hrF
  obtain ⟨uF, kF, huF, hkF, hresF, rfl⟩ := buildBranch_reads hvT lF₃ hbuildF
  have hvF := huF.valid.defining env (hkF ▸ hresF)
  have hres := bindResults_effect hvF hend
  have hle₄ := hre.advances.issued
  have hle₅ : (s₃.returning (blockReturns b)).issued ≤ uT.issued := huT.advances.issued
  have hle₆ : uT.issued ≤ uF.issued := huF.advances.issued
  have hle₇ : uF.issued ≤ t.issued := hres.advances.issued
  -- The lambdas of the branches were named in the branches, and are defined here.
  have hgrows : ∀ {a b}, b ≤ s₃.issued → (bT.body.dest.token ≤ a ∨ b < bT.body.dest.token) →
      (bF.body.dest.token ≤ a ∨ b < bF.body.dest.token) → Grows a b s₃.table t.table := by
    intro a b hb haT haF
    have g₁ := (Grows.of_advances (a := a) hre.advances hb).trans
      (.of_advances huT.advances (by omega))
    have g₂ := (g₁.trans (.defining (hkT.symm ▸ haT))).trans (.of_advances huF.advances (by
      change b ≤ uT.issued
      omega))
    exact (g₂.trans (.defining (hkF.symm ▸ haF))).trans (.of_advances hres.advances (by
      change b ≤ uF.issued
      omega))
  have f₁ : Final T s s₁ := hfinal.narrow le_rfl (by omega)
    (((Grows.of_advances h₂.advances le_rfl).trans (.of_advances h₃.advances hle₂)).trans
      (hgrows (by omega) (.inr (by omega)) (.inr (by omega))))
  have f₂ : Final T s₁.issuing s₂ := hfinal.narrow (Nat.le_succ_of_le hle₁) (by omega)
    ((Grows.of_advances h₃.advances le_rfl).trans
      (hgrows hle₃ (.inl (Nat.le_of_eq hdT')) (.inr (by omega))))
  have f₃ : Final T s₂.issuing s₃ := hfinal.narrow
    (Nat.le_succ_of_le (le_trans hle₁ hle₂)) (by omega)
    (hgrows le_rfl (.inl (le_trans hleT (Nat.le_succ _))) (.inl (Nat.le_of_eq hdF')))
  have f₄ : Final T (uF.defining env kF) t :=
    hfinal.narrow (by change s.issued ≤ uF.issued; omega) le_rfl (.refl _)
  have p₁ := h₁.advances.body.pulling
  have p₂ := h₂.advances.body.pulling.trans p₁
  have p₃ := h₃.advances.body.pulling.trans p₂
  have p₄ := hre.advances.body.pulling.trans p₃
  have p₅ := huT.advances.body.pulling.trans p₄
  have p₆ := huF.advances.body.pulling.trans p₅
  have c₆ : Caught F s (uF.defining env kF) := hcaught.earlier p₆ hres.advances
  have c₅ : Caught F s (uT.defining env kT) := c₆.of_defining.earlier p₅ huF.advances
  have c₃ := (c₅.of_defining.earlier p₄ huT.advances).earlier p₃ hre.advances
  have c₁ := (c₃.earlier p₂ h₃.advances).earlier p₁ h₂.advances
  obtain ⟨L, adds₁, hcode⟩ := htest (B := B) f₁ c₁
  have hctx₁ := h₁.ctx_eq (B := B) hs c₁
  obtain ⟨hctx₂, LT, adds₂, brT⟩ := lowerBranch_code (F := F) (B := B) h₁.valid hTacts hT hbT f₂
  obtain ⟨hctx₃, LF, adds₃, brF⟩ := lowerBranch_code (F := F) (B := B) h₂.valid hFacts hF hbF f₃
  have hctx₄ : (s₃.returning (blockReturns b)).ctx F B = s.ctx F B :=
    returning_ctx.trans (hctx₃.trans (hctx₂.trans hctx₁))
  rw [hctx₁] at brT
  rw [hctx₂, hctx₁] at brF
  have hmem : ∀ l ∈ (uT.defining env kT).table.lambdas, l ∈ t.table.lambdas := fun l hl =>
    hres.advances.lambda_mem (List.mem_append_left [kF] (huF.advances.lambda_mem hl))
  obtain ⟨hctx₅, mT, ΔT, ΔT', adds₄, hroleT, hlT, hblockT, hcodeT, hhaveT⟩ :=
    buildBranch_code .whenTrue hre.valid lT₂ (by rw [hdT]; rfl) hctx₄
      ((brT.advance lT h₃.advances).advance lT₁ hre.advances) hbuildT (fun _ hx => hx)
      (fun l hl => hfinal.find (hmem l hl)) (c₅.later (by omega) p₄)
  obtain ⟨hctx₆, mF, ΔF, ΔF', adds₅, hroleF, hlF, hblockF, hcodeF, hhaveF⟩ :=
    buildBranch_code .whenFalse hvT lF₃ (by rw [hdF]; rfl) hctx₅
      ((((brF.advance lF hre.advances).advance lF₂ huT.advances)).defining) hbuildF
      (fun _ hx => hperm.mem_iff.1 hx) (fun l hl => hfinal.find (hres.advances.lambda_mem hl))
      (c₆.later (by change s.issued ≤ uT.issued; omega) p₅)
  have hadds : Adds s (uF.defining env kF) (L ++ LT ++ LF ++ [mT, mF]) := by
    have h := (((adds₁.trans adds₂).trans adds₃).trans (.of_eq returning_table)).trans
      (adds₄.trans adds₅)
    rwa [List.append_nil] at h
  cases hr : blockReturns b with
  | true =>
    rw [hr] at hend hpT hpF hret
    simp only [Lower.bindResults, if_true, Yields.pure_iff] at hend hpT hpF
    obtain ⟨rfl, rfl⟩ := hend
    subst hpT hpF
    refine ⟨_, B, hadds, hbounded.advance (by change s.issued ≤ uF.issued; omega), ?_⟩
    rw [hctx₆]
    exact .ifReturns hcode ⟨hroleT, hroleF⟩ hlT hblockT hcodeT hr hlF hblockF hcodeF hret
  | false =>
    rw [hr] at hend hpT hpF hret
    simp only [Bool.false_eq_true, if_false] at hpT hpF
    obtain ⟨symsT, hsymsT, rfl⟩ := hpT
    obtain ⟨symsF, hsymsF, rfl⟩ := hpF
    have hsame := hperm
    rw [lT.assigned, lF.assigned, perm_noteAll_iff] at hsame
    obtain ⟨htable, B', hB', hresults⟩ := bindResults_code hvF hend f₄
      (hcaught.later (by change s.issued ≤ uF.issued; omega) p₆)
      (hbounded.advance (by change s.issued ≤ uF.issued; omega))
    rw [hctx₆, lT.assigned] at hresults
    have hhT := hhaveT symsT (by rw [hr]; exact hsymsT)
    have hhF := hhaveF symsF hsymsF
    rw [lT.assigned] at hhT hhF
    have hafter := hadds.trans (.of_eq htable)
    rw [List.append_nil] at hafter
    exact ⟨_, B', hafter, hB', .ifAssigns hcode ⟨hroleT, hroleF⟩ hlT hblockT hhT hcodeT hr hlF
      hblockF hhF hcodeF hret hsame hresults⟩

end Conditionals

section Loops

variable {T : Table} {env : Env} {loc : Option Location}

theorem dryRun_table {s t : State} {test : Lower Node} {statements : Lower (List Item)}
    {vars : LoopVariables} (hs : Valid s) (h : Yields (Lower.dryRun test statements) s vars t) :
    t.table = s.table := by
  obtain ⟨u, -, hiff⟩ := dryRun_iff hs test statements
  obtain ⟨n, v, items, w, -, -, -, rfl⟩ := (hiff vars t).1 h
  rfl

/-- The inside of a loop: the code of its lambdas, in a context where all that the loop takes is a
parameter. -/
structure Turning (T : Table) (Γ : Ctx) (c : Expr) (b : List Stmt) (vars : LoopVariables)
    (loop : Symbol) (loc : Option Location) (parts : Lower.LoopParts) (L R : List Made) (Δ : Ctx) :
    Prop where
  length : vars.taken.length = parts.formals.length
  formals : Formals T parts.formals
  start : Γ.inner (paramBindings vars.taken parts.formals) [] parts.formals = Δ
  exits : ∃ syms, Δ.Have vars.given syms ∧ parts.exits = syms.map (.ref loc)
  test : ExprCode T Δ c parts.test L
  body : ∃ items Δ' updated, BlockCode T Δ b items R Δ' ∧ Δ'.Have vars.taken updated ∧
    group items (some (.apply loc (.ref loc loop) (updated.map (.ref loc)) false)) loc =
      .ok parts.code

/-- The lambda that a loop defines for its body, as it was made. -/
def nextMade (s : State) (parts : Lower.LoopParts) (loc : Option Location) : Made :=
  ⟨.next, continueLambda s parts loc, rfl, rfl⟩

/-- The lambda that a loop defines for its test, as it was made. -/
def loopMade (s : State) (parts : Lower.LoopParts) (loc : Option Location) : Made :=
  ⟨.loop, loopLambda s parts loc, rfl, rfl⟩

theorem loopMade_lambda {s : State} {parts : Lower.LoopParts} {exits : List Symbol}
    (h : parts.exits = exits.map (.ref loc)) : (loopMade s parts loc).lambda =
      ⟨loopRef s, parts.formals, turnCode loc parts.test (continueRef s) parts.formals exits, loc⟩ := by
  unfold loopMade loopLambda turnCode
  rw [h]

theorem Turning.code {Γ Δ : Ctx} {c : Expr} {b : List Stmt} {vars : LoopVariables} {s : State}
    {parts : Lower.LoopParts} {L R : List Made}
    (h : Turning T Γ c b vars (loopRef s) loc parts L R Δ)
    (hfound : ∀ m ∈ [nextMade s parts loc, loopMade s parts loc],
      T.find? m.lambda.ref = some m.lambda) :
    LoopCode T Γ c b (nextMade s parts loc) (loopMade s parts loc) parts.formals loc L R := by
  obtain ⟨exits, hexits, hexits'⟩ := h.exits
  obtain ⟨items, Δ', updated, hblock, hupdated, hcode⟩ := h.body
  exact ⟨⟨rfl, rfl⟩, h.formals, ⟨_, _, exits, _, _, updated, _, _, _, h.length, h.start, hexits, h.test,
    hblock, hupdated, hcode, rfl, loopMade_lambda hexits'⟩, hfound⟩

theorem lowerInside_code {F : List (String × Symbol)} {B : List Symbol} {s u w : State} {c : Expr}
    {b : List Stmt} {vars : LoopVariables} {ref : Symbol} {parts : Lower.LoopParts} (hs : Valid s)
    (ht : Renders T c.reads (Lower.lowerExpr env c) (ExprCode T · c))
    (hacts : Acts (blockReads b) (blockDeclares b) (blockAssigns b) (blockReturns b)
      (Lower.lowerBlock env b))
    (hb : Emits T (Lower.lowerBlock env b) fun Γ items L Γ' => BlockCode T Γ b items L Γ')
    (hvars : ∀ x ∈ vars.given, x ∈ vars.taken)
    (ho : Opens (fun _ => none) ref false (some returnInLoop) s u)
    (h : Yields (Lower.lowerInside ref vars (Lower.lowerExpr env c) (Lower.lowerBlock env b) loc) u
      parts w) (hfree : w.body.free = []) (hT : Final T u w) :
    ∃ L R Δ, Adds u w (L ++ R) ∧ Turning T (s.ctx F B) c b vars ref loc parts L R Δ := by
  obtain ⟨v, v', x, y, items, updated, hf, hcur, hn, hi, hup, hgroup⟩ := lowerInside_iff.1 h
  have hu := ho.valid hs
  have binds := bindFreshAll_code hf
  have e₁ := bindFreshAll_effect hu hf
  obtain ⟨⟨exits, hexits, hexits'⟩, rfl⟩ := (currents_iff e₁.valid).1 hcur
  have htop : v.body.topLevel = false := by rw [binds.body, ho.body]
  obtain ⟨e₂, htest⟩ := ht e₁.valid hn
  have e₃ := hacts e₂.valid (e₂.advances.body.topLevel.trans htop) hi
  have e₄ := readNames_reads e₃.valid hup
  have hadv := (e₂.advances.trans e₃.advances).trans e₄.advances
  have hT' := hT.behind e₁.advances
  -- Nothing is free inside the loop, so its body captures nothing.
  have hcaught : Caught [] v w :=
    ⟨.nil, by simp [hfree], by simp, fun _ => rfl⟩
  have hown : ∀ z ∈ vars.taken, (v.own z).isSome := fun z hz => (e₁.own z).2 (.inr (.inl hz))
  have hvisible : ∀ z ∈ vars.taken, v.visible z = true := fun z hz =>
    (e₁.visible hu z).2 (.inr hz)
  have hctx := binds.ctx (F := F) (B := B) [] ho hs (fun _ => rfl) []
  rw [List.append_nil] at hctx
  obtain ⟨L, adds₂, hcode⟩ := htest (B := parts.formals) (hT'.before (e₃.advances.trans e₄.advances))
    (hcaught.before e₂.advances (e₃.advances.trans e₄.advances))
  have hctx₂ := e₂.ctx_eq (B := parts.formals) e₁.valid
    (hcaught.before e₂.advances (e₃.advances.trans e₄.advances))
  have hbounded : Bounded parts.formals [] x := fun a ha =>
    .inr (le_trans (binds.named a ha).2 e₂.advances.issued)
  have htop₂ := e₂.advances.body.topLevel.trans htop
  have hcaught₂ := hcaught.behind e₂.advances
  obtain ⟨R, B', adds₃, -, hblock⟩ := hb e₂.valid htop₂ hi
    ((hT'.behind e₂.advances).before e₄.advances) (hcaught₂.before e₃.advances e₄.advances) hbounded
  obtain ⟨syms, hsyms, rfl⟩ := readNames_code (B := B') e₃.valid (hcaught₂.behind e₃.advances) hup
    fun z hz => by
      refine (e₃.visible e₂.valid z).2 (.inl ?_)
      rw [e₂.visible e₁.valid]
      exact hvisible z hz
  rw [hctx₂] at hblock
  have hbefore : Adds u v [] := .of_eq binds.table
  have hadds := ((hbefore.trans adds₂).trans adds₃).trans (.of_eq (readNames_table e₃.valid hup))
  rw [List.append_nil] at hadds
  refine ⟨L, R, v.ctx [] parts.formals, hadds,
    { length := binds.length
      formals := ?_
      start := hctx.symm
      exits := ⟨exits, ⟨fun z hz => ?_, ?_⟩, hexits'⟩
      test := hcode
      body := ⟨items, _, syms, hblock, hsyms, hgroup⟩ }⟩
  · have := binds.params hu (by rw [ho.body]) e₄.valid hadv hT fun _ => hfree
    rwa [hfree] at this
  · exact hvisible z (hvars z hz)
  · rw [← hexits]
    apply List.map_congr_left
    intro z hz
    obtain ⟨a, ha⟩ := Option.isSome_iff_exists.1 (hown z (hvars z hz))
    simp only [State.ctx, State.sees_eq, ha, Option.some_or]

/-- A loop emits its code: what it takes was found by the dry run, whose lambdas are thrown away. -/
theorem lowerLoop_emits {sp : Surface.Span} {c : Expr} {b : List Stmt}
    (hcacts : Acts c.reads [] [] false (Lower.lowerExpr env c))
    (ht : Renders T c.reads (Lower.lowerExpr env c) (ExprCode T · c))
    (hacts : Acts (blockReads b) (blockDeclares b) (blockAssigns b) (blockReturns b)
      (Lower.lowerBlock env b))
    (hb : Emits T (Lower.lowerBlock env b) fun Γ items L Γ' => BlockCode T Γ b items L Γ')
    (hr : blockReturns b = false) :
    Emits T (Lower.lowerLoop env loc (Lower.lowerExpr env c) (Lower.lowerBlock env b))
      fun Γ items L Γ' => StmtCode T Γ (.whileLoop sp c b []) items L Γ' := by
  intro s items t F B hs _ h hfinal hcaught hbounded
  obtain ⟨p, hp⟩ := lowerLoop_runs hs hcacts hacts h
  have hnames := readNames_reads hp.explored.valid p.takes
  have hassign := assignAll_effect hp.defined.valid p.gives
  have hle₁ := hp.entered.advances.issued
  have hle₂ : p.entered.issued + 2 ≤ p.opened.issued := p.opens.issued
  have hle₃ := hp.advances.issued
  have hle₄ : p.left.issued ≤ t.issued := hassign.advances.issued
  -- Both lambdas were named before the inside was opened, and are defined behind it.
  have hgrows : Grows p.opened.issued p.left.issued p.left.table t.table :=
    ((Grows.defining (s := p.left.resume p.entered.body) (l := continueLambda p.entered p.parts loc)
      (.inl hle₂)).trans (.defining (.inl (le_trans (Nat.le_succ _) hle₂)))).trans
      (.of_advances hassign.advances le_rfl)
  have hadv : Advances p.entered (p.left.resume p.entered.body) :=
    ((issued_reads hp.entered.valid).advances.trans
      (issued_reads (issued_reads hp.entered.valid).valid).advances).trans
      (p.opens.back hp.opening hp.left hp.advances).advances
  have hcaughtD := hcaught.before hp.defined.advances hassign.advances
  have hcaught₃ := hcaughtD.of_defining.of_defining.earlier hp.entered.advances.body.pulling hadv
  have hctx₁ := hp.explored.ctx_eq (B := B) hs (hcaught₃.before hp.explored.advances hnames.advances)
  have hctx₃ := hp.entered.ctx_eq (B := B) hs hcaught₃
  have hfound : ∀ m ∈ [nextMade p.entered p.parts loc, loopMade p.entered p.parts loc],
      T.find? m.lambda.ref = some m.lambda := by
    intro m hm
    refine hfinal.find (hassign.advances.lambda_mem ?_)
    rw [p.defined_lambdas]
    exact List.mem_append_right _ (List.mem_map_of_mem (f := Made.lambda) hm)
  obtain ⟨L, R, Δ, hadds, hturn⟩ := lowerInside_code (F := F) (B := B) hp.opening ht hacts hb
    (by rw [hp.vars]; simp [loopVariables]; tauto) p.opens p.inside hp.free
    (hfinal.narrow (by omega) hle₄ hgrows)
  have hΔ : p.entered.issuing.issuing.ctx F B = s.ctx F B := hctx₃
  rw [hΔ] at hturn
  obtain ⟨htable, B', hB', hunpacked⟩ := assignAll_code hp.defined.valid p.gives
    (hfinal.behind hp.defined.advances) (hcaught.behind hp.defined.advances)
    (hbounded.advance hp.defined.advances.issued)
  rw [hp.defined.ctx_eq hs hcaughtD] at hunpacked
  obtain ⟨syms, hsyms, hinitial⟩ := readNames_code (B := B) hp.explored.valid
    (hcaught₃.behind hp.explored.advances) p.takes fun x hx => by
      rw [hp.explored.visible hs]
      exact taken_visible hp.given (hp.vars ▸ hx)
  rw [hctx₁] at hsyms
  rw [hinitial] at hunpacked
  obtain ⟨exits, hexits, hexits'⟩ := hturn.exits
  obtain ⟨items', Δ', updated, hblock, hupdated, hcode⟩ := hturn.body
  refine ⟨L ++ R ++ [nextMade p.entered p.parts loc, loopMade p.entered p.parts loc], B', ?_, hB',
    .whileLoop hp.vars.symm hturn.length hturn.formals hturn.start hexits hturn.test hblock hr hupdated
      hcode ⟨rfl, rfl⟩ rfl (loopMade_lambda hexits') hfound hsyms hunpacked⟩
  have hbefore : Adds s p.opened [] := by
    refine .of_eq ?_
    rw [p.opens.table]
    exact (readNames_table hp.explored.valid p.takes).trans (dryRun_table hs p.explores)
  have hdefines : Adds p.left p.defined [nextMade p.entered p.parts loc, loopMade p.entered p.parts loc] :=
    p.defined_lambdas
  have h := ((hbefore.trans hadds).trans hdefines).trans (.of_eq htable)
  rwa [List.append_nil] at h

end Loops

section Returns

variable {env : Env}

theorem lowerBlock_forbidden {b : List Stmt} (hx : env.expansions = [])
    (ih : ∀ st ∈ b, ∀ {s items t}, Valid s → s.body.topLevel = false →
      s.body.returnError.isSome = true → Yields (Lower.lowerStmt env st false) s items t →
      st.returns = false) {s t : State} {items : List Item} (hs : Valid s)
    (htop : s.body.topLevel = false) (herr : s.body.returnError.isSome = true)
    (h : Yields (Lower.lowerBlock env b) s items t) : blockReturns b = false := by
  induction b generalizing s items with
  | nil => rfl
  | cons st b ihb =>
    simp only [Lower.lowerBlock, Yields.bind_iff, Yields.body_iff] at h
    obtain ⟨_, _, ⟨rfl, rfl⟩, h⟩ := h
    split at h
    · simp at h
    · simp only [Yields.bind_iff, Yields.pure_iff] at h
      obtain ⟨is, u, hst, js, v, hb, -, rfl⟩ := h
      have h₁ := lowerStmt_acts hx st false hs htop hst
      have hst' := ih st (by simp) hs htop herr hst
      have hb' := ihb (fun x hx => ih x (List.mem_cons_of_mem _ hx)) h₁.valid
        (h₁.advances.body.topLevel.trans htop) (by rw [h₁.advances.body.returnError]; exact herr) hb
      simp [blockReturns, hst', hb']

/-- Where returns are forbidden, no statement returns. -/
theorem lowerStmt_forbidden (hx : env.expansions = []) (st : Stmt) :
    ∀ {ad s items t}, Valid s → s.body.topLevel = false → s.body.returnError.isSome = true →
      Yields (Lower.lowerStmt env st ad) s items t → st.returns = false := by
  induction st using Stmt.ind with
  | returnValue sp v =>
    intro ad s items t hs _ herr h
    simp only [Lower.lowerStmt, Lower.lowerReturn, Yields.bind_iff, Yields.body_iff] at h
    obtain ⟨_, _, ⟨rfl, rfl⟩, h⟩ := h
    split at h
    · simp at h
    · rename_i hnone
      rw [hnone] at herr
      cases herr
  | ifElse sp c b o ihb _ =>
    intro ad s items t hs _ herr h
    simp only [Lower.lowerStmt, Yields.bind_iff] at h
    obtain ⟨n, s₁, hn, bT, s₂, hbT, -⟩ := h
    have h₁ := lowerExpr_reads hx c hs hn
    obtain ⟨u, ho, hiff⟩ := lowerBranch_iff h₁.valid "then" (Lower.lowerBlock env b)
    obtain ⟨w, hw, -⟩ := (hiff bT s₂).1 hbT
    refine lowerBlock_forbidden hx (fun x hx => ihb x hx) (ho.valid (issued_reads h₁.valid).valid)
      (by rw [ho.body]) ?_ hw
    rw [ho.body]
    exact h₁.advances.body.returnError ▸ herr
  | foreign st hf =>
    intros
    cases st <;> first | rfl | cases hf
  | _ =>
    intros
    rfl

end Returns

section Trees

variable {T : Table} {env : Env}

theorem lowerBlock_emits_of {b : List Stmt} (hx : env.expansions = [])
    (ih : ∀ st ∈ b, Emits T (Lower.lowerStmt env st false)
      fun Γ items L Γ' => StmtCode T Γ st items L Γ') :
    Emits T (Lower.lowerBlock env b) fun Γ items L Γ' => BlockCode T Γ b items L Γ' := by
  induction b with
  | nil =>
    intro s items t F B hs _ h _ _ hB
    obtain ⟨rfl, rfl⟩ := Yields.pure_iff.1 h
    exact ⟨[], B, .of_eq rfl, hB, .nil⟩
  | cons st b ihb =>
    intro s items t F B hs htop h hT hF hB
    simp only [Lower.lowerBlock, Yields.bind_iff, Yields.body_iff] at h
    obtain ⟨_, _, ⟨rfl, rfl⟩, h⟩ := h
    split at h
    · simp at h
    · simp only [Yields.bind_iff, Yields.pure_iff] at h
      obtain ⟨is, u, hst, js, v, hb, rfl, rfl⟩ := h
      have h₁ := lowerStmt_acts hx st false hs htop hst
      have htop' := h₁.advances.body.topLevel.trans htop
      have h₂ := lowerBlock_acts hx b h₁.valid htop' hb
      obtain ⟨L, B₁, adds₁, hB₁, hcode₁⟩ := ih st (by simp) hs htop hst (hT.before h₂.advances)
        (hF.before h₁.advances h₂.advances) hB
      obtain ⟨R, B₂, adds₂, hB₂, hcode₂⟩ := ihb (fun x hx => ih x (List.mem_cons_of_mem _ hx)) h₁.valid
        htop' hb (hT.behind h₁.advances) (hF.behind h₁.advances) hB₁
      refine ⟨L ++ R, B₂, adds₁.trans adds₂, hB₂, .cons hcode₁ (fun hret => ?_) hcode₂⟩
      -- Behind a statement that returns, another one would have been refused as dead code.
      cases b with
      | nil => rfl
      | cons st' b =>
        simp only [Lower.lowerBlock, Yields.bind_iff, Yields.body_iff] at hb
        obtain ⟨_, _, ⟨rfl, rfl⟩, hb⟩ := hb
        rw [if_pos (by rw [h₁.returned, hret, Bool.or_true])] at hb
        simp at hb

/-- A statement emits its code. -/
theorem lowerStmt_emits (hx : env.expansions = []) (st : Stmt) :
    ∀ ad, Emits T (Lower.lowerStmt env st ad) fun Γ items L Γ' => StmtCode T Γ st items L Γ' := by
  have hblock := fun b => lowerBlock_acts hx b
  induction st using Stmt.ind with
  | expr sp v =>
    intro ad s items t F B hs _ h hT hF hB
    simp only [Lower.lowerStmt, Yields.bind_iff, Yields.pure_iff] at h
    obtain ⟨n, u, hv, rfl, rfl⟩ := h
    obtain ⟨hreads, hcode⟩ := lowerExpr_renders hx v hs hv
    obtain ⟨L, hadds, hn⟩ := hcode (B := B) hT hF
    refine ⟨L, B, hadds, hB.advance hreads.advances.issued, ?_⟩
    rw [hreads.ctx_eq hs hF]
    exact .expr hn
  | assign sp ts v =>
    intro ad s items t F B hs htop h hT hF hB
    rcases ts with - | ⟨target, - | ⟨_, _⟩⟩
    · simp [Lower.lowerStmt] at h
    · simp only [Lower.lowerStmt] at h
      exact lowerAssign_emits hx sp target v hs htop h hT hF hB
    · simp [Lower.lowerStmt] at h
  | augAssign sp target op v =>
    intro ad s items t F B hs htop h hT hF hB
    simp only [Lower.lowerStmt] at h
    exact lowerAugAssign_emits hx sp target op v hs htop h hT hF hB
  | functionDef sp f ps b ds ih =>
    intro ad s items t F B hs htop h hT hF hB
    simp only [Lower.lowerStmt] at h
    exact lowerFunction_emits (hblock b) (lowerBlock_emits_of hx fun x hx' => ih x hx' false) hs htop
      h hT hF hB
  | returnValue sp v =>
    intro ad s items t F B hs htop h hT hF hB
    simp only [Lower.lowerStmt] at h
    exact lowerReturn_emits hx sp v hs htop h hT hF hB
  | ifElse sp c b o ihb iho =>
    intro ad s items t F B hs htop h hT hF hB
    simp only [Lower.lowerStmt] at h
    exact lowerIf_emits (lowerExpr_renders hx c) (hblock b)
      (lowerBlock_emits_of hx fun x hx' => ihb x hx' false) (hblock o)
      (lowerBlock_emits_of hx fun x hx' => iho x hx' false) hs htop h hT hF hB
  | whileLoop sp c b o ih =>
    intro ad s items t F B hs htop h hT hF hB
    simp only [Lower.lowerStmt] at h
    split at h
    · simp at h
    · rename_i ho
      obtain rfl : o = [] := by simpa using ho
      have hr : blockReturns b = false := by
        obtain ⟨vars, s₁, -, -, -, -, h₁, -⟩ := lowerLoop_iff.1 h
        obtain ⟨u, hu, hiff⟩ := dryRun_iff hs (Lower.lowerExpr env c) (Lower.lowerBlock env b)
        obtain ⟨n, v, items, w, hn, hi, -⟩ := (hiff vars s₁).1 h₁
        have hread := lowerExpr_reads hx c (hu.valid hs.scratch) hn
        exact lowerBlock_forbidden hx (fun x _ => lowerStmt_forbidden hx x) hread.valid
          (by rw [hread.advances.body.topLevel, hu.body])
          (by rw [hread.advances.body.returnError, hu.body]; rfl) hi
      exact lowerLoop_emits (lowerExpr_acts hx c) (lowerExpr_renders hx c) (hblock b)
        (lowerBlock_emits_of hx fun x hx' => ih x hx' false) hr hs htop h hT hF hB
  | foreign st hf =>
    intro ad s items t F B hs htop h
    cases st <;> simp [Stmt.isForeign] at hf <;> simp [Lower.lowerStmt] at h

/-- The statements of a body emit their code. -/
theorem lowerBlock_emits (hx : env.expansions = []) (b : List Stmt) :
    Emits T (Lower.lowerBlock env b) fun Γ items L Γ' => BlockCode T Γ b items L Γ' :=
  lowerBlock_emits_of hx fun st _ => lowerStmt_emits hx st false

end Trees

end Hoist.Lowering
