import Hoist.Proofs.Semantics.Branching

/-!
# The meaning of statements is kept

In agreeing environments statements and their items come to the same, and the environments agree again
behind them.
-/

namespace Hoist

namespace Surface

variable {α : Type}

/-- The statements of a branch at work; their last value is forgotten. -/
def execBranch (W : World α) (K : Knot α) (env : Bindings α) (b : List Stmt) : Option (Flow α) :=
  execBlock W K env none b >>= fun flow => flow.andThen fun env => some (.next env none)

theorem exec_ifElse (W : World α) (K : Knot α) (env : Bindings α) (sp : Span) (t : Expr)
    (b o : List Stmt) : exec W K env (.ifElse sp t b o) = eval W K env t >>= fun v =>
      W.truth v >>= fun c => if c then execBranch W K env b else execBranch W K env o := by
  simp only [exec]
  refine congrArg _ (funext fun v => congrArg _ (funext fun c => ?_))
  cases c <;> rfl

/-- The value of an item comes first, but it might as well come last. -/
theorem exec_setItem (W : World α) (K : Knot α) (env : Bindings α) (s s' s'' : Span) (x : String)
    (i e : Expr) : exec W K env (.assign s [.subscript s' (.name s'' x) i] e) =
      (read W env x >>= fun o => eval W K env i >>= fun i => eval W K env e >>= fun v =>
        W.apply "setslice" [o, i, v]) >>= fun v => some (.next ((x, v) :: env) none) := by
  simp only [exec]
  cases eval W K env e <;> cases read W env x <;> cases eval W K env i <;> rfl

theorem exec_augAssign (W : World α) (K : Knot α) (env : Bindings α) (s s' : Span) (x : String)
    {op : Operator} {f : String} (hop : op.builtin? = some f) (e : Expr) :
    exec W K env (.augAssign s (.name s' x) op e) =
      (read W env x >>= fun o => eval W K env e >>= fun v => W.apply f [o, v]) >>= fun v =>
        some (.next ((x, v) :: env) none) := by
  simp only [exec, hop, bind_assoc]
  rfl

end Surface

namespace Lowering

open Hoist.Flat (Symbol Node Location Table runItems)
open Hoist.Surface (Expr Stmt Flow blockAssigns blockDeclares blockReturns blockReads blockMentions
  blockIsTidy blockDefines blockDeclares_eq execBranch)

variable {α : Type} {W : World α} {T : Table} {d : Direction} {r : Nat} {names : List String}
  {Γ Γ' Δ Δ' : Ctx} {env env' : Surface.Bindings α} {ρ : Flat.Bindings α} {loc : Option Location}
  {n : Node} {items : List Item} {L : List Made} {xs changed : List String} {b : List Stmt}
  {last : Option (Flat.Val α)} {m : Made} {syms : List Symbol}

/-- A statement and its items, at any stage. -/
def StmtKeeps (d : Direction) (W : World α) (T : Table) (names : List String) (st : Stmt) : Prop :=
  ∀ {r Γ Γ' env ρ items L last}, StmtCode T Γ st items L Γ' → st.isTidy = true →
    st.mentions ⊆ names → (∀ r' ≤ r, Calls d W T r') → Agrees T names Γ env ρ →
    Follows d (FlowRel T names Γ' env st.declares st.returns) (Surface.exec W (d.knot W r) env st)
      (runItems W T (d.call W T r) ρ last items)

/-- Of what changes later, all that counts is what it is. -/
theorem FlowRel.mono {returns : Bool} {flow : Flow α} {p : Flat.Bindings α × Option (Flat.Val α)}
    {changed' : List String} (h : FlowRel T names Γ env' changed returns flow p)
    (hkept : ∀ x, x ∉ changed' → x ∉ changed ∧ env'.lookup x = env.lookup x) :
    FlowRel T names Γ env changed' returns flow p := by
  cases h with
  | next agrees related kept =>
    exact .next agrees related fun x hx => (kept x (hkept x hx).1).trans (hkept x hx).2
  | back value => exact .back value

theorem blockKeeps_of (ih : ∀ st ∈ b, StmtKeeps d W T names st) (htidy : blockIsTidy b = true)
    (hm : blockMentions b ⊆ names) : BlockKeeps d W T names b := by
  intro r Γ Γ' env ρ items L last last' h hcalls hΓ hlast
  induction b generalizing Γ env ρ items L last last' with
  | nil =>
    cases h
    exact .some (.next hΓ hlast fun _ _ => rfl)
  | cons st b ihb =>
    simp only [blockIsTidy, Bool.and_eq_true] at htidy
    rw [blockMentions, List.append_subset] at hm
    cases h with
    | cons hst hreturns hb =>
      rw [Flat.runItems_append]
      refine (ih st (by simp) hst htidy.1 hm.1 hcalls hΓ).bind fun flow p hflow => ?_
      cases hret : st.returns with
      | false =>
        rw [hret] at hflow
        cases hflow with
        | next hagrees hrelated hkept =>
          have hrest := ihb (fun s hs => ih s (List.mem_cons_of_mem _ hs)) htidy.2 hm.2 hb hagrees
            hrelated
          rw [Surface.blockReturns, hret, Bool.false_or]
          refine hrest.imp fun flow p hflow => hflow.mono fun x hx => ?_
          rw [blockDeclares, List.flatMap_cons, List.mem_append, not_or] at hx
          exact ⟨hx.2, hkept x hx.1⟩
      | true =>
        obtain rfl := hreturns hret
        cases hb
        rw [hret] at hflow
        cases hflow with
        | back value =>
          rw [Surface.blockReturns, hret, Bool.true_or]
          exact .some (.back value)

/-- A name is bound to what its code yields. -/
theorem assign_follows {o : Option (Surface.Val α)} {x : String} {a : Symbol}
    (hΓ : Agrees T names Γ env ρ) (ha : Fresh T Γ.bound a)
    (h : Follows d (ValRel T) o (Flat.eval W T (d.call W T r) ρ n)) :
    Follows d (FlowRel T names (Γ.bind x a) env [x] false)
      (o >>= fun v => some (.next ((x, v) :: env) none))
      (runItems W T (d.call W T r) ρ last [.assign ⟨a, n, loc⟩]) := by
  refine h.bind fun v w hv => .some (.next (hΓ.bind ha hv) .none fun y hy => ?_)
  rw [List.lookup_cons, show (y == x) = false by simpa using hy]

/-- What is returned, and the value of flat code. -/
inductive Backs (T : Table) : Flow α → Flat.Val α → Prop
  | mk {v w} (h : ValRel T v w) : Backs T (.back v) w

/-- A branch that returns. -/
theorem branch_returns (hT : T.IsPlain) (hΓ : Agrees T names Γ env ρ)
    (hl : Lifted T Γ [] (blockReads b) [] Δ m n) (hb : BlockCode T Δ b items L Δ')
    (hcode : group items none loc = .ok m.lambda.body) (hreturns : blockReturns b = true)
    (hkeeps : BlockKeeps d W T names b) (hm : blockMentions b ⊆ names)
    (hcalls : ∀ r' ≤ r, Calls d W T r') : ∃ g, (∀ call, Flat.eval W T call ρ n = some g) ∧
      Follows d (Backs T) (execBranch W (d.knot W r) env b)
        (Flat.applyValue W (d.call W T r) g []) := by
  have hreads : blockReads b ⊆ names := List.Subset.trans (Surface.blockReads_mentioned b) hm
  refine hl.follows hT hΓ hreads (o := fun K => execBranch W K env b) fun r' hr' ρ' hΔ => ?_
  rw [Flat.eval_group hcode]
  have hbranch := hkeeps hb (fun r'' hr'' => hcalls r'' (Nat.le_trans hr'' hr')) hΔ .none
  refine hbranch.bind fun flow p hflow => ?_
  rw [hreturns] at hflow
  cases hflow with
  | back value => exact .some (.mk value)

/-- A branch that hands over the values of the names that it assigns. -/
theorem branch_hands (hT : T.IsPlain) (hΓ : Agrees T names Γ env ρ)
    (hl : Lifted T Γ [] (blockReads b) [] Δ m n) (hb : BlockCode T Δ b items L Δ')
    (hcode : group items (some (packed loc syms)) loc = .ok m.lambda.body)
    (hreturns : blockReturns b = false) (hs : Δ'.Have xs syms) (hx : xs ⊆ names)
    (hdeclares : ∀ x, x ∈ blockDeclares b → x ∈ xs) (hkeeps : BlockKeeps d W T names b)
    (hm : blockMentions b ⊆ names) (hcalls : ∀ r' ≤ r, Calls d W T r') :
    ∃ g, (∀ call, Flat.eval W T call ρ n = some g) ∧
      Follows d (Hands T env xs packedValue) (execBranch W (d.knot W r) env b)
        (Flat.applyValue W (d.call W T r) g []) := by
  have hreads : blockReads b ⊆ names := List.Subset.trans (Surface.blockReads_mentioned b) hm
  refine hl.follows hT hΓ hreads (o := fun K => execBranch W K env b) fun r' hr' ρ' hΔ => ?_
  rw [Flat.eval_group hcode]
  have hbranch := hkeeps hb (fun r'' hr'' => hcalls r'' (Nat.le_trans hr'' hr')) hΔ .none
  refine hbranch.bind fun flow p hflow => ?_
  rw [hreturns] at hflow
  cases hflow with
  | @next env' ρ' _ last' hagrees _ hkept =>
    have hpacked : ∃ us, Given T env xs env' us ∧
        Flat.eval W T (d.call W T r') ρ' (packed loc syms) = some (packedValue us) :=
      packed_given hagrees hs hx fun x hx => hkept x fun hd => hx (hdeclares x hd)
    obtain ⟨us, hus, heval⟩ := hpacked
    rw [Flat.finish, heval]
    exact .some (.mk hus)

/-- The names of a conditional or a loop are bound to what it hands over. -/
theorem HandsOver.follows {value : List (Flat.Val α) → Flat.Val α} {o : Option (Flow α)}
    (h : HandsOver W T names Γ' env ρ xs n items value)
    (hvalue : Follows d (Hands T env xs value) o (Flat.eval W T (d.call W T r) ρ n))
    (hchanged : xs ⊆ changed) :
    Follows d (FlowRel T names Γ' env changed false) o (runItems W T (d.call W T r) ρ last items) := by
  obtain ⟨rest, hrun, hrest⟩ := h (d.call W T r) last
  rw [hrun]
  refine hvalue.bind_right fun flow w hw => ?_
  cases hw with
  | mk hgiven =>
    obtain ⟨ρ', hagrees, he⟩ := hrest hgiven
    rw [he]
    exact .some (.next hagrees .none fun x hx => hgiven.kept x fun hxs => hx (hchanged hxs))

/-- What a function is, and the lambda it is lifted to, are bound to its name. -/
theorem define_follows {sp : Surface.Span} {f : String} {ps : Surface.Params Expr} {ds : List Expr}
    {formals : List Symbol} {a : Symbol} (hΓ : Agrees T names Γ env ρ)
    (hlen : ps.names.length = formals.length)
    (hl : Lifted T Γ (paramBindings ps.names formals ++ [(f, m.lambda.ref)]) (blockReads b) formals Δ
      m n)
    (hb : BlockCode T Δ b items L Δ') (hcode : group items none loc = .ok m.lambda.body)
    (ha : Fresh T Γ.bound a) (hself : f ∉ blockMentions b) (htidy : blockIsTidy b = true)
    (hm : blockMentions b ⊆ names) {loc' : Option Location} :
    Follows d (FlowRel T names (Γ.bind f a) env [f] false)
      (Surface.exec W (d.knot W r) env (.functionDef sp f ps b ds))
      (runItems W T (d.call W T r) ρ last [.assign ⟨a, n, loc'⟩]) := by
  -- The body does not mention the function, so all names of its own are its parameters.
  have hparams : ∀ x ∈ blockMentions b, x ≠ f := fun x hx he => hself (he ▸ hx)
  exact assign_follows hΓ ha (hΓ.function hl hlen (.block hb hcode) htidy hm
    (Surface.blockReads_mentioned b) (fun p hp => functionBindings_mem hp)
    fun x hx => functionBindings_lookup (hparams x hx))

/-- A conditional whose branches return. -/
theorem ifReturns_follows {sp : Surface.Span} {t : Expr} {o : List Stmt} {t' nT nF : Node}
    {ΔT ΔT' ΔF ΔF' : Ctx} {mT mF : Made} {itemsT itemsF : List Item} {LT LF : List Made}
    (hT : T.IsPlain) (hΓ : Agrees T names Γ env ρ) (ht : ExprCode T Γ t t' L)
    (hlT : Lifted T Γ [] (blockReads b) [] ΔT mT nT) (hb : BlockCode T ΔT b itemsT LT ΔT')
    (hcodeT : group itemsT none loc = .ok mT.lambda.body) (hrT : blockReturns b = true)
    (hlF : Lifted T Γ [] (blockReads o) [] ΔF mF nF) (ho : BlockCode T ΔF o itemsF LF ΔF')
    (hcodeF : group itemsF none loc = .ok mF.lambda.body) (hrF : blockReturns o = true)
    (hkeepsT : BlockKeeps d W T names b) (hkeepsF : BlockKeeps d W T names o)
    (hmt : t.mentions ⊆ names) (hmb : blockMentions b ⊆ names) (hmo : blockMentions o ⊆ names)
    (hcalls : ∀ r' ≤ r, Calls d W T r') :
    Follows d (FlowRel T names Γ env changed true)
      (Surface.exec W (d.knot W r) env (.ifElse sp t b o))
      (runItems W T (d.call W T r) ρ last [.plain (branchCall t' nT nF loc)]) := by
  obtain ⟨gT, hgT, hfT⟩ := branch_returns (d := d) (r := r) hT hΓ hlT hb hcodeT hrT hkeepsT hmb hcalls
  obtain ⟨gF, hgF, hfF⟩ := branch_returns (d := d) (r := r) hT hΓ hlF ho hcodeF hrF hkeepsF hmo hcalls
  have htest := ExprCode.keeps hT (hcalls r (Nat.le_refl r)) hΓ t ht hmt
  rw [Surface.exec_ifElse]
  refine (choice_follows hT hΓ.generated htest (hgT _) (hgF _) hfT hfF).bind_right fun flow w hflow => ?_
  cases hflow with
  | mk hv => exact .some (.back hv)

/-- A conditional whose branches assign the same names. -/
theorem ifAssigns_follows {sp : Surface.Span} {t : Expr} {o : List Stmt} {t' nT nF : Node}
    {ΔT ΔT' ΔF ΔF' : Ctx} {mT mF : Made} {itemsT itemsF : List Item} {symsT symsF : List Symbol}
    {LT LF : List Made} (hT : T.IsPlain) (hΓ : Agrees T names Γ env ρ) (ht : ExprCode T Γ t t' L)
    (hlT : Lifted T Γ [] (blockReads b) [] ΔT mT nT) (hb : BlockCode T ΔT b itemsT LT ΔT')
    (hsT : ΔT'.Have xs symsT)
    (hcodeT : group itemsT (some (packed loc symsT)) loc = .ok mT.lambda.body)
    (hrT : blockReturns b = false)
    (hlF : Lifted T Γ [] (blockReads o) [] ΔF mF nF) (ho : BlockCode T ΔF o itemsF LF ΔF')
    (hsF : ΔF'.Have xs symsF)
    (hcodeF : group itemsF (some (packed loc symsF)) loc = .ok mF.lambda.body)
    (hrF : blockReturns o = false) (h : Results T Γ (branchCall t' nT nF loc) xs items Γ')
    (hlen : xs.length < 2 ^ 63) (hx : xs ⊆ names) (hdb : ∀ x, x ∈ blockDeclares b → x ∈ xs)
    (hdo : ∀ x, x ∈ blockDeclares o → x ∈ xs) (hchanged : xs ⊆ changed)
    (hkeepsT : BlockKeeps d W T names b) (hkeepsF : BlockKeeps d W T names o)
    (hmt : t.mentions ⊆ names) (hmb : blockMentions b ⊆ names) (hmo : blockMentions o ⊆ names)
    (hcalls : ∀ r' ≤ r, Calls d W T r') :
    Follows d (FlowRel T names Γ' env changed false)
      (Surface.exec W (d.knot W r) env (.ifElse sp t b o))
      (runItems W T (d.call W T r) ρ last items) := by
  obtain ⟨gT, hgT, hfT⟩ := branch_hands (d := d) (r := r) hT hΓ hlT hb hcodeT hrT hsT hx hdb hkeepsT hmb
    hcalls
  obtain ⟨gF, hgF, hfF⟩ := branch_hands (d := d) (r := r) hT hΓ hlF ho hcodeF hrF hsF hx hdo hkeepsF hmo
    hcalls
  have htest := ExprCode.keeps hT (hcalls r (Nat.le_refl r)) hΓ t ht hmt
  rw [Surface.exec_ifElse]
  exact (h.handsOver hT hΓ hlen).follows
    (choice_follows hT hΓ.generated htest (hgT _) (hgF _) hfT hfF) hchanged

/-- A loop, its call and the names that are bound to what it hands over. -/
theorem whileLoop_follows {sp : Surface.Span} {t : Expr} {t' code : Node} {taken given : List String}
    {formals exits updated initial : List Symbol} {next loop : Made} {R : List Made}
    {is : List Item} (hT : T.IsPlain) (hΓ : Agrees T names Γ env ρ)
    (hlen : taken.length = formals.length) (hformals : Formals T formals)
    (hexits : (Γ.inner (paramBindings taken formals) [] formals).Have given exits)
    (ht : ExprCode T (Γ.inner (paramBindings taken formals) [] formals) t t' L)
    (hb : BlockCode T (Γ.inner (paramBindings taken formals) [] formals) b items R Δ)
    (hreturns : blockReturns b = false) (hupdated : Δ.Have taken updated)
    (hcode : group items
      (some (.apply loc (.ref loc loop.lambda.ref) (updated.map (.ref loc)) false)) loc = .ok code)
    (hnext : next.lambda = ⟨next.lambda.ref, formals, code, loc⟩)
    (hloop : loop.lambda =
      ⟨loop.lambda.ref, formals, turnCode loc t' next.lambda.ref formals exits, loc⟩)
    (hfound : ∀ m ∈ [next, loop], T.find? m.lambda.ref = some m.lambda)
    (hinitial : Γ.Have taken initial)
    (h : Unpacked T Γ given
      (.apply loc (.ref loc loop.lambda.ref) (initial.map (.ref loc)) false) is Γ')
    (hcount : given.length < 2 ^ 63) (hkeeps : BlockKeeps d W T names b) (hm : t.mentions ⊆ names)
    (htaken : taken ⊆ names) (hgiven : given ⊆ taken)
    (hassigned : ∀ x, x ∈ blockDeclares b → x ∈ given) (hchanged : given ⊆ changed)
    (hcalls : ∀ r' ≤ r, Calls d W T r') :
    Follows d (FlowRel T names Γ' env changed false)
      (Surface.exec W (d.knot W r) env (.whileLoop sp t b []))
      (runItems W T (d.call W T r) ρ last is) := by
  obtain ⟨vs, ws, hvs, hrel, heval⟩ := hΓ.readAll (fun x hx => htaken hx) hinitial
  have hcall : Flat.eval W T (d.call W T r) ρ
      (.apply loc (.ref loc loop.lambda.ref) (initial.map (.ref loc)) false) =
        d.call W T r ⟨loop.lambda.ref, []⟩ ws := by
    have href : T.contains loop.lambda.ref = true := contains_of_find (hfound loop (by simp))
    simp [Flat.eval, Flat.readSymbol, href, heval, applyValue_lambda hT (hfound loop (by simp))]
  refine (h.handsOver hT hΓ hcount).follows ?_ hchanged
  rw [hcall]
  exact loop_follows hT hlen hformals hexits ht hb hreturns hupdated hcode hnext hloop hfound hkeeps hm
    htaken hgiven hassigned (fun x hx => hinitial.visible x (hgiven hx)) hcalls hvs hrel hΓ.hidden

/-- A statement and its items come to the same. -/
theorem StmtCode.keeps (hT : T.IsPlain) (st : Stmt) : StmtKeeps d W T names st := by
  induction st using Stmt.ind with
  | expr sp e =>
    intro r Γ Γ' env ρ items L last h _ hm hcalls hΓ
    cases h with
    | expr h =>
      have hkeeps := ExprCode.keeps hT (hcalls r (Nat.le_refl r)) hΓ e h hm
      exact hkeeps.bind fun v w hv => .some (.next hΓ (.some hv) fun _ _ => rfl)
  | assign sp ts e =>
    intro r Γ Γ' env ρ items L last h _ hm hcalls hΓ
    have hc := hcalls r (Nat.le_refl r)
    cases h with
    | assign h ha =>
      rw [Stmt.mentions, List.append_subset] at hm
      exact assign_follows hΓ ha (ExprCode.keeps hT hc hΓ e h hm.2)
    | @setItem _ _ _ _ x i i' _ v' o a loc loc' _ _ hv ho hi ha =>
      simp only [Stmt.mentions, Surface.allMentions, Expr.mentions, List.append_nil,
        List.append_subset, List.cons_subset] at hm
      have hread : Follows d (ValRel T) (Surface.read W env x)
          (Flat.eval W T (d.call W T r) ρ (.ref loc' o)) := .of_rel (hΓ.read hm.1.1.1 ho)
      rw [Surface.exec_setItem]
      exact assign_follows hΓ ha (invoke_three (f := "setslice") hT hΓ (by decide) (by decide)
        hread (ExprCode.keeps hT hc hΓ i hi hm.1.2) (ExprCode.keeps hT hc hΓ e hv hm.2))
  | augAssign sp t op e =>
    intro r Γ Γ' env ρ items L last h _ hm hcalls hΓ
    cases h with
    | @augAssign _ _ _ x _ f _ v' o a loc _ hop hv ho ha =>
      simp only [Stmt.mentions, Expr.mentions, List.append_subset, List.cons_subset] at hm
      obtain ⟨hs, hi⟩ := builtin?_ne hop
      have hread : Follows d (ValRel T) (Surface.read W env x)
          (Flat.eval W T (d.call W T r) ρ (.ref loc o)) := .of_rel (hΓ.read hm.1.1 ho)
      have hvalue := ExprCode.keeps hT (hcalls r (Nat.le_refl r)) hΓ e hv hm.2
      rw [Surface.exec_augAssign _ _ _ _ _ _ hop]
      exact assign_follows hΓ ha (invoke_two hT hΓ hs hi hread hvalue)
  | functionDef sp f ps b ds _ =>
    intro r Γ Γ' env ρ items L last h htidy hm hcalls hΓ
    cases h with
    | functionDef _ hlen hl hb hcode ha =>
      simp only [Stmt.isTidy, Bool.and_eq_true, Bool.not_eq_true', List.contains_eq_mem,
        decide_eq_false_iff_not] at htidy
      rw [Stmt.mentions, List.append_subset] at hm
      exact define_follows hΓ hlen hl hb hcode ha htidy.1 htidy.2 hm.2
  | returnValue sp e =>
    intro r Γ Γ' env ρ items L last h _ hm hcalls hΓ
    cases h with
    | returnNone => exact .some (.back .lit)
    | returnSome h =>
      have hkeeps := ExprCode.keeps hT (hcalls r (Nat.le_refl r)) hΓ _ h hm
      exact hkeeps.bind fun v w hv => .some (.back hv)
  | ifElse sp t b o ihb iho =>
    intro r Γ Γ' env ρ items L last h htidy hm hcalls hΓ
    simp only [Stmt.isTidy, Bool.and_eq_true, Bool.not_eq_true', decide_eq_true_eq] at htidy
    obtain ⟨⟨⟨⟨hdb, hdo⟩, hcount⟩, htb⟩, hto⟩ := htidy
    simp only [Stmt.mentions, List.append_subset] at hm
    obtain ⟨⟨hmt, hmb⟩, hmo⟩ := hm
    have hkeepsT : BlockKeeps d W T names b := blockKeeps_of ihb htb hmb
    have hkeepsF : BlockKeeps d W T names o := blockKeeps_of iho hto hmo
    cases h with
    | ifReturns ht _ hlT hb hcodeT hrT hlF ho hcodeF hrF =>
      rw [Stmt.returns, hrT]
      exact ifReturns_follows hT hΓ ht hlT hb hcodeT hrT hlF ho hcodeF hrF hkeepsT hkeepsF hmt hmb hmo
        hcalls
    | ifAssigns ht _ hlT hb hsT hcodeT hrT hlF ho hsF hcodeF hrF hsame h =>
      have hassigns : noteAll [] (blockAssigns b) ⊆ names := fun x hx =>
        hmb (Surface.blockAssigns_mentioned b (by simpa using hx))
      have hlen := length_noteAll_le (k := []) (l := blockAssigns b)
      rw [Stmt.returns, hrT]
      refine ifAssigns_follows hT hΓ ht hlT hb hsT hcodeT hrT hlF ho hsF hcodeF hrF h
        (by simp at hlen; omega) hassigns (fun x hx => ?_) (fun x hx => ?_) (fun x hx => ?_) hkeepsT hkeepsF
        hmt hmb hmo hcalls
      · simpa [blockDeclares_eq hdb] using hx
      · simpa [blockDeclares_eq hdo, hsame] using hx
      · simpa [Stmt.declares, Stmt.assigns, hrT] using hx
  | whileLoop sp t b o ih =>
    intro r Γ Γ' env ρ items L last h htidy hm hcalls hΓ
    simp only [Stmt.isTidy, Bool.and_eq_true, Bool.not_eq_true', decide_eq_true_eq] at htidy
    obtain ⟨⟨hdb, hcount⟩, htb⟩ := htidy
    rw [Stmt.mentions, List.append_subset] at hm
    have hkeeps : BlockKeeps d W T names b := blockKeeps_of ih htb hm.2
    cases h with
    | @whileLoop _ _ _ _ _ _ _ _ vars _ _ _ _ _ _ _ _ _ _ _ _ hvars hlen' hformals hΔ hexits ht hb hr
        hupdated hcode _ hnext hloop hfound hinitial h =>
      subst hΔ
      have hgivens : ∀ x, x ∈ vars.given ↔ x ∈ blockAssigns b := by simp [← hvars, loopVariables]
      have htakens : ∀ x ∈ vars.taken, x ∈ t.reads ∨ x ∈ blockReads b ∨ x ∈ blockAssigns b := by
        intro x hx
        simp only [← hvars, loopVariables, mem_noteAll, List.not_mem_nil, false_or, List.mem_append,
          List.mem_filter] at hx
        exact hx.elim (fun h => h.1.imp_right .inl) (.inr ∘ .inr)
      have htaken : vars.taken ⊆ names := by
        intro x hx
        rcases htakens x hx with hx | hx | hx
        · exact hm.1 (t.reads_subset hx)
        · exact hm.2 (Surface.blockReads_mentioned b hx)
        · exact hm.2 (Surface.blockAssigns_mentioned b hx)
      have hgiven : vars.given ⊆ vars.taken := by
        intro x hx
        have := (hgivens x).1 hx
        simp [← hvars, loopVariables, this]
      have hlen := length_noteAll_le (k := []) (l := blockAssigns b)
      have hfew : vars.given.length < 2 ^ 63 := by
        simp only [List.length_nil] at hlen
        simp only [← hvars, loopVariables]
        omega
      exact whileLoop_follows hT hΓ hlen' hformals hexits ht hb hr hupdated hcode hnext hloop hfound
        hinitial h hfew hkeeps hm.1 htaken hgiven
        (fun x hx => (hgivens x).2 (blockDeclares_eq hdb ▸ hx)) (fun x hx => (hgivens x).1 hx) hcalls
  | foreign st hf =>
    intro r Γ Γ' env ρ items L last h
    cases h <;> simp [Stmt.isForeign] at hf

end Lowering

end Hoist
